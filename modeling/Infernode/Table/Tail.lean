import Mathlib.Data.List.Nodup
import Mathlib.Tactic.SplitIfs

/-!
Chains of named cells beside a pointer to the last cell.

Contract: a cell gets the next number as its name when it enters a chain. `link` writes
through the pointer, so it puts cells behind the cell that the pointer names, wherever that
is. While the pointer names the last cell, this is at the end.
-/

namespace Infernode.Tail

open List

variable {Value : Type}

structure Cell (Value : Type) where
  name : Nat
  value : Value
deriving DecidableEq, Repr

/-- The values in cells of their own, which get the names from `made` on. -/
def place (made : Nat) : List Value → List (Cell Value)
  | [] => []
  | value :: rest => ⟨made, value⟩ :: place (made + 1) rest

/-- The cells in the place of whatever follows the named one. -/
def link (name : Option Nat) (added : List (Cell Value)) : List (Cell Value) → List (Cell Value)
  | [] => []
  | cell :: rest =>
    if name = some cell.name then cell :: added else cell :: link name added rest

def lastname (chain : List (Cell Value)) : Option Nat := chain.getLast?.map Cell.name

/-- No name is used twice, every name has been given, and the pointer names the last cell. -/
structure Tailed (chain : List (Cell Value)) (last : Option Nat) (made : Nat) : Prop where
  distinct : (chain.map Cell.name).Nodup
  named : ∀ cell ∈ chain, cell.name < made
  last : chain ≠ [] → last = lastname chain

theorem map_value_place (made : Nat) (values : List Value) :
    (place made values).map Cell.value = values := by
  induction values generalizing made with
  | nil => rfl
  | cons _ _ ih =>
    rw [place, map_cons, ih]

variable {made : Nat} {last : Option Nat}

theorem place_eq_nil {values : List Value} : place made values = [] ↔ values = [] := by
  cases values with
  | nil => simp [place]
  | cons _ _ => simp [place]

theorem map_name_place (made : Nat) (values : List Value) :
    (place made values).map Cell.name = List.range' made values.length := by
  induction values generalizing made with
  | nil => rfl
  | cons _ _ ih =>
    rw [place, map_cons, ih, length_cons, range'_succ]

theorem lastname_append (front : List (Cell Value)) {back : List (Cell Value)} (some : back ≠ []) :
    lastname (front ++ back) = lastname back := by
  rw [lastname, getLast?_append_of_ne_nil front some, lastname]

theorem lastname_cons (cell : Cell Value) {rest : List (Cell Value)} (some : rest ≠ []) :
    lastname (cell :: rest) = lastname rest :=
  lastname_append [cell] some

variable {chain chain' : List (Cell Value)}

theorem lastname_congr (same : chain'.map Cell.name = chain.map Cell.name) :
    lastname chain' = lastname chain := by
  rw [lastname, lastname, ← getLast?_map, ← getLast?_map, same]

theorem link_last {added : List (Cell Value)} (distinct : (chain.map Cell.name).Nodup)
    (is : last = lastname chain) (some : chain ≠ []) : link last added chain = chain ++ added := by
  induction chain with
  | nil => exact absurd rfl some
  | cons cell rest ih =>
    rw [map_cons, nodup_cons] at distinct
    by_cases alone : rest = []
    · subst alone
      have here : last = Option.some cell.name := is
      rw [link, if_pos here, singleton_append]
    rw [lastname_cons cell alone] at is
    have other : last ≠ Option.some cell.name := by
      rw [is, lastname, getLast?_eq_getLast_of_ne_nil alone, Option.map_some]
      intro same
      apply distinct.1
      rw [← Option.some.inj same]
      exact mem_map_of_mem (getLast_mem alone)
    rw [link, if_neg other, ih distinct.2 is alone, cons_append]

theorem tailed_nil (last : Option Nat) (made : Nat) : Tailed ([] : List (Cell Value)) last made where
  distinct := nodup_nil
  named := by simp
  last := fun some => absurd rfl some

theorem Tailed.tail {cell : Cell Value} {rest : List (Cell Value)}
    (tailed : Tailed (cell :: rest) last made) : Tailed rest last made where
  distinct := (nodup_cons.1 tailed.distinct).2
  named := fun other member => tailed.named other (mem_cons_of_mem cell member)
  last := by
    intro some
    rw [tailed.last (cons_ne_nil cell rest), lastname_cons cell some]

theorem Tailed.congr (tailed : Tailed chain last made)
    (same : chain'.map Cell.name = chain.map Cell.name) :
    Tailed chain' last made where
  distinct := same ▸ tailed.distinct
  named := by
    intro cell member
    have there : cell.name ∈ chain.map Cell.name := same ▸ mem_map_of_mem member
    have ⟨other, memberOther, is⟩ := mem_map.1 there
    exact is ▸ tailed.named other memberOther
  last := by
    intro some
    rw [lastname_congr same]
    apply tailed.last
    rintro rfl
    exact some (map_eq_nil_iff.1 same)

/-- The names before the next one, and the next one, are different. -/
theorem Tailed.fresh (tailed : Tailed chain last made) : (made :: chain.map Cell.name).Nodup := by
  rw [nodup_cons]
  refine ⟨?_, tailed.distinct⟩
  intro member
  have ⟨cell, memberCell, is⟩ := mem_map.1 member
  exact absurd (tailed.named cell memberCell) (by rw [is]; exact Nat.lt_irrefl made)

/-- Cells of some of these names are left, one of them perhaps with the next name; the pointer
is set anew. -/
theorem Tailed.left (tailed : Tailed chain last made)
    (left : (chain'.map Cell.name).Sublist (made :: chain.map Cell.name)) :
    Tailed chain' (lastname chain') (made + 1) where
  distinct := left.nodup tailed.fresh
  named := by
    intro _ member
    rcases mem_cons.1 (left.subset (mem_map_of_mem member)) with is | there
    · exact is ▸ Nat.lt_succ_self made
    · have ⟨other, memberOther, is⟩ := mem_map.1 there
      exact is ▸ Nat.lt_succ_of_lt (tailed.named other memberOther)
  last := fun _ => rfl

/-- A cell with the next name goes to the front; an empty chain's pointer is set to it. -/
theorem Tailed.cons {chain : List (Cell Value)} {last : Option Nat} {made : Nat}
    (tailed : Tailed chain last made) (value : Value) :
    Tailed (⟨made, value⟩ :: chain) (if chain = [] then some made else last) (made + 1) where
  distinct := tailed.fresh
  named := by
    intro cell member
    rcases mem_cons.1 member with rfl | member
    · exact Nat.lt_succ_self made
    · exact Nat.lt_succ_of_lt (tailed.named cell member)
  last := by
    intro _
    split_ifs with empty
    · rw [empty]
      rfl
    · rw [lastname_cons _ empty]
      exact tailed.last empty

/-- Cells with the next names go to the end, and the pointer to the last of them. -/
theorem Tailed.append (tailed : Tailed chain last made) {values : List Value} (some : values ≠ []) :
    Tailed (chain ++ place made values) (lastname (place made values))
      (made + values.length) where
  distinct := by
    rw [map_append, map_name_place, nodup_append]
    refine ⟨tailed.distinct, nodup_range' 1, ?_⟩
    intro _ member _ memberOther _
    have ⟨cell, memberCell, _⟩ := mem_map.1 member
    have before := tailed.named cell memberCell
    have later := (mem_range'_1.1 memberOther).1
    omega
  named := by
    intro cell member
    rcases mem_append.1 member with member | member
    · exact Nat.lt_add_right values.length (tailed.named cell member)
    · have given : cell.name ∈ (place made values).map Cell.name := mem_map_of_mem member
      rw [map_name_place] at given
      exact (mem_range'_1.1 given).2
  last := by
    intro _
    rw [lastname_append chain (fun empty => some (place_eq_nil.1 empty))]

end Infernode.Tail
