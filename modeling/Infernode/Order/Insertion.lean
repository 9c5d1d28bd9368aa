import Mathlib.Data.List.Sort

/-!
Contract: the insertion sort of an array in place.

Owns: `insertions`, which takes the elements one by one and moves those of the sorted part up
while their key is above that of the new one; that the result is a permutation in the order of
the keys; and that with distinct keys it is the only one, whatever the order of the input.
-/

namespace Infernode.Insertion

variable {α κ : Type} [LinearOrder κ] (key : α → κ)

/-- The sorted part, last element first, with a new element moved down into its place. -/
def shift (new : α) : List α → List α
  | [] => [new]
  | last :: front => if key new < key last then last :: shift new front else new :: last :: front

def insertions (l : List α) : List α :=
  (l.foldl (fun sorted new => shift key new sorted) []).reverse

/-- The order of the sorted part read from its end. -/
def Falls (a b : α) : Prop := key b ≤ key a

instance : DecidableRel (Falls key) := fun a b => inferInstanceAs (Decidable (key b ≤ key a))

instance : Std.Total (Falls key) := ⟨fun a b => le_total (key b) (key a)⟩

instance : IsTrans α (Falls key) := ⟨fun _ _ _ first second => le_trans second first⟩

theorem shift_eq (new : α) (l : List α) : shift key new l = l.orderedInsert (Falls key) new := by
  induction l with
  | nil => rfl
  | cons last _ ih =>
    rw [shift, List.orderedInsert_cons, ih]
    by_cases above : key new < key last
    · have notFalls : ¬Falls key new last := not_le.2 above
      rw [if_pos above, if_neg notFalls]
    · have falls : Falls key new last := not_lt.1 above
      rw [if_neg above, if_pos falls]

theorem insertions_eq (l : List α) :
    insertions key l = (l.reverse.insertionSort (Falls key)).reverse := by
  have steps : (fun sorted new => shift key new sorted) =
      fun sorted new => List.orderedInsert (Falls key) new sorted := by
    funext sorted new
    exact shift_eq key new sorted
  unfold insertions List.insertionSort
  rw [steps, List.foldr_reverse]

theorem insertions_perm (l : List α) : (insertions key l).Perm l := by
  rw [insertions_eq]
  exact (List.reverse_perm _).trans ((List.perm_insertionSort _ _).trans (List.reverse_perm l))

theorem insertions_pairwise (l : List α) :
    (insertions key l).Pairwise fun a b => key a ≤ key b := by
  rw [insertions_eq, List.pairwise_reverse]
  exact List.pairwise_insertionSort (Falls key) l.reverse

variable {key}

theorem insertions_strict {l : List α} (distinct : (l.map key).Nodup) :
    (insertions key l).Pairwise fun a b => key a < key b := by
  have sorted := insertions_pairwise key l
  have apart : ((insertions key l).map key).Nodup :=
    ((insertions_perm key l).map key).nodup_iff.2 distinct
  rw [List.Nodup, List.pairwise_map] at apart
  exact sorted.imp₂ (fun _ _ atMost different => lt_of_le_of_ne atMost different) apart

theorem insertions_unique {l sorted : List α} (distinct : (l.map key).Nodup)
    (same : sorted.Perm l) (ordered : sorted.Pairwise fun a b => key a < key b) :
    sorted = insertions key l := by
  have both := same.trans (insertions_perm key l).symm
  refine both.eq_of_pairwise ?_ ordered (insertions_strict distinct)
  intro _ _ _ _ below above
  exact absurd below above.asymm

theorem insertions_congr {l other : List α} (distinct : (l.map key).Nodup)
    (same : other.Perm l) : insertions key other = insertions key l := by
  apply insertions_unique distinct ((insertions_perm key other).trans same)
  exact insertions_strict ((same.map key).nodup_iff.2 distinct)

end Infernode.Insertion
