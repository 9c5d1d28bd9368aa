import Mathlib.Data.List.Nodup
import Mathlib.Tactic.Common

/-!
Contract: a list of values under names, each name once.

Owns: `Named`, the table; `get`, `put` in front of the others, whose order it turns around,
and `change` in place; and what `get` finds after them.
-/

namespace Infernode

universe u v

structure Named (κ : Type u) (β : Type v) where
  entries : List (κ × β)
  nodup : (entries.map Prod.fst).Nodup

namespace Named

open List

variable {κ : Type u} {β : Type v} [DecidableEq κ]

def empty : Named κ β := ⟨[], nodup_nil⟩

def get (table : Named κ β) (name : κ) : Option β := table.entries.lookup name

def put (table : Named κ β) (name : κ) (val : β) : Named κ β where
  entries := (name, val) :: (table.entries.filter fun entry => entry.1 ≠ name).reverse
  nodup := by
    rw [map_cons, nodup_cons, map_reverse, mem_reverse, nodup_reverse]
    refine ⟨?_, (table.nodup.sublist (filter_sublist.map Prod.fst))⟩
    intro member
    have ⟨entry, kept, same⟩ := mem_map.1 member
    have different := (mem_filter.1 kept).2
    exact absurd same (by simpa using different)

def change (table : Named κ β) (name : κ) (f : β → β) : Named κ β where
  entries := table.entries.map fun entry => if entry.1 = name then (entry.1, f entry.2) else entry
  nodup := by
    rw [map_map]
    have names : (Prod.fst ∘ fun entry : κ × β =>
        if entry.1 = name then (entry.1, f entry.2) else entry) = Prod.fst := by
      funext entry
      simp only [Function.comp_apply]
      split <;> rfl
    rw [names]
    exact table.nodup

theorem get_eq_some_iff {table : Named κ β} {name : κ} {val : β} :
    table.get name = some val ↔ (name, val) ∈ table.entries := by
  have ⟨entries, nodup⟩ := table
  change entries.lookup name = some val ↔ (name, val) ∈ entries
  induction entries with
  | nil => simp
  | cons entry rest ih =>
    have ⟨found, _⟩ := entry
    have ⟨fresh, nodup⟩ := nodup_cons.1 nodup
    rw [lookup_cons, mem_cons, Prod.mk.injEq]
    by_cases same : name = found
    · subst same
      have absent : (name, val) ∉ rest := fun member =>
        fresh (mem_map.2 ⟨_, member, rfl⟩)
      simp [absent, eq_comm]
    · have different : (name == found) = false := by simpa using same
      rw [different]
      simp [same, ih nodup]

@[simp] theorem get_empty (name : κ) : (empty : Named κ β).get name = none := rfl

@[simp] theorem get_put_self (table : Named κ β) (name : κ) (val : β) :
    (table.put name val).get name = some val := by
  rw [get_eq_some_iff]
  exact mem_cons_self

theorem get_put_other (table : Named κ β) {name other : κ} (val : β) (different : other ≠ name) :
    (table.put name val).get other = table.get other := by
  apply Option.ext
  intro _
  rw [get_eq_some_iff, get_eq_some_iff]
  simp [put, different]

theorem get_change_self (table : Named κ β) (name : κ) (f : β → β) :
    (table.change name f).get name = (table.get name).map f := by
  apply Option.ext
  intro found
  rw [get_eq_some_iff, Option.map_eq_some_iff]
  simp only [change, mem_map, get_eq_some_iff]
  constructor
  · rintro ⟨entry, member, same⟩
    split at same
    · rename_i own
      cases same
      exact ⟨entry.2, own ▸ member, rfl⟩
    · rename_i other
      exact absurd (congrArg Prod.fst same) other
  · rintro ⟨before, member, rfl⟩
    exact ⟨_, member, by simp⟩

theorem get_change_other (table : Named κ β) {name other : κ} (f : β → β)
    (different : other ≠ name) : (table.change name f).get other = table.get other := by
  apply Option.ext
  intro found
  rw [get_eq_some_iff, get_eq_some_iff]
  simp only [change, mem_map]
  constructor
  · rintro ⟨entry, member, same⟩
    split at same
    · rename_i own
      cases same
      exact absurd own different
    · exact same ▸ member
  · intro member
    exact ⟨_, member, by simp [different]⟩

end Named

end Infernode
