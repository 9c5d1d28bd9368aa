import Mathlib.Data.List.Basic
import Mathlib.Tactic.Common

/-!
Contract: tables of numbered slots, each free or with an entry.

Owns: the entry of a number, inside the table and beyond it; the search for a free slot from a
number on; and the search that starts where all slots below are taken.
-/

namespace Infernode.Slots

open List

variable {α : Type}

def entry (slots : List (Option α)) (i : Nat) : Option α := slots[i]?.join

def firstFree (slots : List (Option α)) (start : Nat) : Nat :=
  start + (slots.drop start).findIdx Option.isNone

def Packed (slots : List (Option α)) (bound : Nat) : Prop :=
  ∀ i < bound, (entry slots i).isSome = true

def OneFree (slots : List (Option α)) : Prop :=
  ∃ i : Nat, slots[i]? = some none ∧ ∀ j : Nat, slots[j]? = some none → j = i

/-! ### Entries -/

variable {slots : List (Option α)} {i start : Nat}

theorem entry_eq_some {a : α} :
    entry slots i = some a ↔ slots[i]? = some (some a) := Option.join_eq_some_iff

theorem lt_length_of_entry (taken : (entry slots i).isSome = true) : i < slots.length := by
  have ⟨a, is⟩ := Option.isSome_iff_exists.1 taken
  exact (List.getElem?_eq_some_iff.1 (entry_eq_some.1 is)).1

theorem entry_of_free (free : slots[i]? = some none) : entry slots i = none := by
  rw [entry, free]
  rfl

theorem entry_beyond (beyond : slots.length ≤ i) : entry slots i = none := by
  rw [entry, getElem?_eq_none beyond]
  rfl

theorem free_of_entry (inside : i < slots.length) (none : entry slots i = none) :
    slots[i]? = some Option.none := by
  rw [entry, getElem?_eq_getElem inside] at none
  rw [getElem?_eq_getElem inside]
  exact congrArg some none

@[simp] theorem entry_nil (i : Nat) : entry ([] : List (Option α)) i = none := rfl

theorem entry_set (slots : List (Option α)) (i : Nat) (x : Option α) (j : Nat) :
    entry (slots.set i x) j = if i = j ∧ i < slots.length then x else entry slots j := by
  unfold entry
  rw [getElem?_set]
  by_cases same : i = j
  · by_cases inside : i < slots.length
    · rw [if_pos same, if_pos inside, if_pos ⟨same, inside⟩]
      rfl
    · rw [if_pos same, if_neg inside, if_neg fun both => inside both.2]
      rw [← same, getElem?_eq_none (Nat.not_lt.1 inside)]
  · rw [if_neg same, if_neg fun both => same both.1]

theorem entry_set_self (inside : i < slots.length) (x : Option α) :
    entry (slots.set i x) i = x := by
  rw [entry_set, if_pos ⟨rfl, inside⟩]

theorem entry_grown (slots : List (Option α)) (n i : Nat) :
    entry (slots ++ List.replicate n none) i = entry slots i := by
  unfold entry
  rw [getElem?_append]
  split
  · rfl
  · rename_i beyond
    rw [getElem?_eq_none (Nat.not_lt.1 beyond), getElem?_replicate]
    split <;> rfl

/-- The first slots of a table, in a table of another length. -/
theorem entry_kept {bound : Nat} (n : Nat)
    (bounded : ∀ i, (entry slots i).isSome = true → i < bound) (i : Nat) :
    entry (slots.take bound ++ List.replicate n none) i = entry slots i := by
  rw [entry_grown]
  unfold entry
  rw [getElem?_take]
  split
  · rfl
  rename_i beyond
  have empty : entry slots i = none := by
    rw [← Option.not_isSome_iff_eq_none]
    exact fun taken => beyond (bounded i taken)
  exact empty.symm

/-! ### The search -/

theorem firstFree_le (inside : start ≤ slots.length) : firstFree slots start ≤ slots.length := by
  have within : (slots.drop start).findIdx Option.isNone ≤ (slots.drop start).length :=
    findIdx_le_length
  rw [length_drop] at within
  unfold firstFree
  omega

theorem free_firstFree (inside : firstFree slots start < slots.length) :
    slots[firstFree slots start]? = some none := by
  unfold firstFree at inside ⊢
  have within : (slots.drop start).findIdx Option.isNone < (slots.drop start).length := by
    rw [length_drop]
    omega
  have found := findIdx_getElem (w := within)
  rw [← getElem?_drop, getElem?_eq_getElem within]
  exact congrArg some (Option.isNone_iff_eq_none.1 found)

theorem taken_of_lt_firstFree (from' : start ≤ i) (before : i < firstFree slots start) :
    (entry slots i).isSome = true := by
  unfold firstFree at before
  have early : i - start < (slots.drop start).findIdx Option.isNone := by omega
  have within : i - start < (slots.drop start).length :=
    Nat.lt_of_lt_of_le early findIdx_le_length
  have passed := not_of_lt_findIdx early
  have is : slots[i]? = some (slots.drop start)[i - start] := by
    rw [← getElem?_eq_getElem within, getElem?_drop, Nat.add_sub_cancel' from']
  rw [entry, is]
  rcases there : (slots.drop start)[i - start] with _ | a
  · rw [there] at passed
    exact absurd passed Bool.noConfusion
  · rfl

/-- From a number below which all is taken, all below the slot found is. -/
theorem packed_firstFree (packed : Packed slots start) : Packed slots (firstFree slots start) := by
  intro i before
  rcases Nat.lt_or_ge i start with below | above
  · exact packed i below
  · exact taken_of_lt_firstFree above before

theorem packed_length {bound : Nat} (packed : Packed slots bound) : bound ≤ slots.length := by
  rcases Nat.eq_zero_or_pos bound with zero | positive
  · omega
  · have last := lt_length_of_entry (packed (bound - 1) (by omega))
    omega

theorem entry_firstFree (slots : List (Option α)) (start : Nat) :
    entry slots (firstFree slots start) = none := by
  rcases Nat.lt_or_ge (firstFree slots start) slots.length with inside | beyond
  · exact entry_of_free (free_firstFree inside)
  · exact entry_beyond beyond

end Infernode.Slots
