import BrushLink.Json.Basic

/-! # Values that differ in the order of members

What it means that the order of members does not count, said without sorting
anything: one value arises from the other by exchanging neighbouring members of
different names, in objects at any depth, and by changing the sign of a zero
(`Reordered`).  Sorting by name undoes every exchange (`Reordered.sorted_eq`) and is
itself made of exchanges (`reordered_sorted`), so comparing sorted forms decides
exactly this relation (`same_iff_reordered`).
-/
namespace BrushLink.Json

/-- Two values that differ at most in the order in which objects, at any depth, list
their members, and in the signs of zeros. -/
inductive Reordered : Json → Json → Prop
  | refl (v : Json) : Reordered v v
  | symm {v w : Json} (h : Reordered v w) : Reordered w v
  | trans {u v w : Json} (h : Reordered u v) (h' : Reordered v w) : Reordered u w
  /-- Two neighbouring members of different names change places. -/
  | swap (pre post : List (String × Json)) {m n : String × Json} (h : m.1 ≠ n.1) :
      Reordered (.object (pre ++ m :: n :: post)) (.object (pre ++ n :: m :: post))
  /-- Something changes inside the value of a member. -/
  | member (pre post : List (String × Json)) (name : String) {v w : Json} (h : Reordered v w) :
      Reordered (.object (pre ++ (name, v) :: post)) (.object (pre ++ (name, w) :: post))
  /-- Something changes inside an element of an array. -/
  | element (pre post : List Json) {v w : Json} (h : Reordered v w) :
      Reordered (.array (pre ++ v :: post)) (.array (pre ++ w :: post))
  | zero {a b : Binary} (ha : a.isZero) (hb : b.isZero) :
      Reordered (.number (.float a)) (.number (.float b))

/-! ## Sorting undoes exchanges -/

section Insert
variable {k l : String} {v w : Json}

/-- Two members of different names end up in the same places, whichever is put there
first; here the second name is the greater. -/
theorem insertSorted_comm_of_lt (h : k < l) (ms : List (String × Json)) :
    insertSorted k v (insertSorted l w ms) = insertSorted l w (insertSorted k v ms) := by
  have hnot : ¬ l < k := String.lt_asymm h
  induction ms with
  | nil => simp [insertSorted, h, hnot]
  | cons m ms ih =>
    by_cases hk : m.1 < k
    · have hl : m.1 < l := String.lt_trans hk h
      simp [insertSorted, hk, hl, ih]
    · by_cases hl : m.1 < l
      · simp [insertSorted, hk, hl, h]
      · simp [insertSorted, hk, hl, h, hnot]

theorem insertSorted_comm (h : k ≠ l) (ms : List (String × Json)) :
    insertSorted k v (insertSorted l w ms) = insertSorted l w (insertSorted k v ms) := by
  rcases String.le_total k l with hle | hle
  · exact insertSorted_comm_of_lt (by grind) ms
  · exact (insertSorted_comm_of_lt (by grind) ms).symm

end Insert

theorem sortedElements_eq_map (xs : List Json) : sortedElements xs = xs.map sorted := by
  induction xs with
  | nil => rfl
  | cons x xs ih => rw [sortedElements, ih, List.map_cons]

theorem sortedMembers_eq_foldr (ms : List (String × Json)) :
    sortedMembers ms = ms.foldr (fun m ms => insertSorted m.1 (sorted m.2) ms) [] := by
  induction ms with
  | nil => rfl
  | cons m ms ih => rw [sortedMembers, ih, List.foldr_cons]

theorem Reordered.sorted_eq {v w : Json} (h : Reordered v w) : v.sorted = w.sorted := by
  induction h with
  | refl => rfl
  | symm _ ih => exact ih.symm
  | trans _ _ ih ih' => exact ih.trans ih'
  | swap pre post h =>
    rw [sorted, sorted, sortedMembers_eq_foldr, sortedMembers_eq_foldr]
    simp only [List.foldr_append, List.foldr_cons, insertSorted_comm h]
  | member pre post name _ ih =>
    rw [sorted, sorted, sortedMembers_eq_foldr, sortedMembers_eq_foldr]
    simp only [List.foldr_append, List.foldr_cons, ih]
  | element pre post _ ih =>
    rw [sorted, sorted, sortedElements_eq_map, sortedElements_eq_map]
    simp only [List.map_append, List.map_cons, ih]
  | zero ha hb => rw [sorted, sorted, if_pos ha, if_pos hb]

/-! ## Sorting is made of exchanges -/

/-- A member gets to its place by exchanges with its neighbours. -/
theorem reordered_insertSorted (pre : List (String × Json)) (k : String) (v : Json)
    (ms : List (String × Json)) :
    Reordered (.object (pre ++ (k, v) :: ms)) (.object (pre ++ insertSorted k v ms)) := by
  induction ms generalizing pre with
  | nil => exact .refl _
  | cons m ms ih =>
    by_cases hlt : m.1 < k
    · have hne : k ≠ m.1 := fun he => String.lt_irrefl k (he ▸ hlt)
      have hrest := ih (pre ++ [m])
      rw [List.append_assoc, List.append_assoc] at hrest
      rw [insertSorted, if_pos hlt]
      exact (Reordered.swap pre ms hne).trans hrest
    · rw [insertSorted, if_neg hlt]
      exact .refl _

mutual

theorem reordered_sorted : ∀ v : Json, Reordered v v.sorted
  | .null | .bool _ | .string _ | .number (.integer _) => .refl _
  | .number (.float b) => by
    rw [sorted]
    split
    · exact .zero ‹_› rfl
    · exact .refl _
  | .array xs => reordered_sortedElements [] xs
  | .object ms => reordered_sortedMembers [] ms

theorem reordered_sortedElements (pre : List Json) :
    ∀ xs : List Json, Reordered (.array (pre ++ xs)) (.array (pre ++ sortedElements xs))
  | [] => .refl _
  | x :: xs => by
    have hrest := reordered_sortedElements (pre ++ [x.sorted]) xs
    rw [List.append_assoc, List.append_assoc] at hrest
    exact (Reordered.element pre xs (reordered_sorted x)).trans hrest

theorem reordered_sortedMembers (pre : List (String × Json)) :
    ∀ ms : List (String × Json),
      Reordered (.object (pre ++ ms)) (.object (pre ++ sortedMembers ms))
  | [] => .refl _
  | (k, v) :: ms => by
    have hrest := reordered_sortedMembers (pre ++ [(k, v.sorted)]) ms
    rw [List.append_assoc, List.append_assoc] at hrest
    refine (Reordered.member pre ms k (reordered_sorted v)).trans (hrest.trans ?_)
    exact reordered_insertSorted pre k v.sorted (sortedMembers ms)

end

/-- Comparing sorted forms decides whether values differ in the order of members at
most. -/
theorem same_iff_reordered {v w : Json} : v.same w = true ↔ Reordered v w := by
  rw [same, decide_eq_true_eq]
  constructor
  · intro h
    have hw := (reordered_sorted w).symm
    rw [← h] at hw
    exact (reordered_sorted v).trans hw
  · exact Reordered.sorted_eq

end BrushLink.Json
