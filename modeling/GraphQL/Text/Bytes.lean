/-!
Byte offsets into a text. A text is a list of characters, each weighing its
UTF-8 length, so that an offset names a place in the text only when it falls
between two characters.
-/

namespace GraphQL.Text

/-- The UTF-8 length of a text. -/
def byteLength : List Char → Nat
  | [] => 0
  | c :: cs => c.utf8Size + byteLength cs

@[simp] theorem byteLength_nil : byteLength [] = 0 := rfl

@[simp] theorem byteLength_cons (c : Char) (cs : List Char) :
    byteLength (c :: cs) = c.utf8Size + byteLength cs := rfl

@[simp] theorem byteLength_append (a b : List Char) :
    byteLength (a ++ b) = byteLength a + byteLength b := by
  induction a with
  | nil => simp
  | cons c a ih => simp [ih, Nat.add_assoc]

theorem byteLength_pos {cs : List Char} (h : cs ≠ []) : 0 < byteLength cs := by
  obtain ⟨c, cs, rfl⟩ := List.exists_cons_of_ne_nil h
  exact Nat.add_pos_left (Char.utf8Size_pos c) _

/-- The length of a text is that of the string it makes. -/
theorem byteLength_toList (s : String) : byteLength s.toList = s.utf8ByteSize := by
  have hofList : ∀ cs : List Char, byteLength cs = (String.ofList cs).utf8ByteSize := by
    intro cs
    induction cs with
    | nil => rfl
    | cons c cs ih =>
        rw [byteLength_cons, ih, ← List.singleton_append, String.ofList_append,
          String.utf8ByteSize_append, ← String.singleton_eq_ofList, String.utf8ByteSize_singleton]
  rw [hofList, String.ofList_toList]

/-- Cuts a text at a byte offset. There is no cut past the end or inside a
character. -/
def splitAtByte : Nat → List Char → Option (List Char × List Char)
  | 0, cs => some ([], cs)
  | _ + 1, [] => none
  | n + 1, c :: cs =>
      if c.utf8Size ≤ n + 1 then
        (splitAtByte (n + 1 - c.utf8Size) cs).map fun (before, after) => (c :: before, after)
      else none

/-- A cut loses nothing, and its first half has the length asked for. -/
theorem splitAtByte_eq_some {n : Nat} {cs before after : List Char}
    (h : splitAtByte n cs = some (before, after)) :
    before ++ after = cs ∧ byteLength before = n := by
  induction cs generalizing n before after with
  | nil =>
      cases n with
      | zero =>
          simp only [splitAtByte, Option.some.injEq, Prod.mk.injEq] at h
          simp [← h.1, ← h.2]
      | succ n => simp [splitAtByte] at h
  | cons c cs ih =>
      cases n with
      | zero =>
          simp only [splitAtByte, Option.some.injEq, Prod.mk.injEq] at h
          simp [← h.1, ← h.2]
      | succ n =>
          simp only [splitAtByte] at h
          split at h
          · obtain ⟨⟨l, r⟩, hlr, heq⟩ := Option.map_eq_some_iff.1 h
            simp only [Prod.mk.injEq] at heq
            obtain ⟨hl, hn⟩ := ih hlr
            rw [← heq.1, ← heq.2]
            exact ⟨by simp [hl], by simp only [byteLength_cons, hn]; omega⟩
          · simp at h

/-- Every place between two characters can be cut. -/
theorem splitAtByte_append (before after : List Char) :
    splitAtByte (byteLength before) (before ++ after) = some (before, after) := by
  induction before with
  | nil => simp [splitAtByte]
  | cons c before ih =>
      have hc : 0 < c.utf8Size := Char.utf8Size_pos c
      obtain ⟨n, hn⟩ : ∃ n, byteLength (c :: before) = n + 1 :=
        ⟨c.utf8Size + byteLength before - 1, by simp only [byteLength_cons]; omega⟩
      have hle : c.utf8Size ≤ n + 1 := by rw [← hn]; simp
      have hsub : n + 1 - c.utf8Size = byteLength before := by rw [← hn]; simp
      rw [hn, List.cons_append, splitAtByte, if_pos hle, hsub, ih]
      rfl

end GraphQL.Text
