import Mathlib.Data.List.Pairwise
import Mathlib.Tactic.Common

/-!
Contract: chains of entries with keys, no key twice.

Owns: what the first entry of a key is, when an entry is put at the end of the chain or the first
of a key is taken out.
-/

namespace Infernode.Chains

open List

variable {α κ : Type} [DecidableEq κ] (key : α → κ)

def Apart (entries : List α) : Prop := entries.Pairwise fun a b => key a ≠ key b

def lookup (entries : List α) (k : κ) : Option α := entries.find? fun a => key a == k

def delete (entries : List α) (k : κ) : List α := entries.eraseP fun a => key a == k

variable {key}

variable {entries : List α} {k : κ} {a : α}

theorem mem_of_lookup (found : lookup key entries k = some a) : a ∈ entries ∧ key a = k := by
  have first : entries.find? (fun b => key b == k) = some a := found
  have is := find?_some first
  exact ⟨mem_of_find?_eq_some first, beq_iff_eq.1 is⟩

theorem lookup_eq_none : lookup key entries k = none ↔ ∀ a ∈ entries, key a ≠ k := by
  unfold lookup
  rw [find?_eq_none]
  exact forall₂_congr fun a _ => not_congr beq_iff_eq

theorem lookup_cons (a : α) (entries : List α) (k : κ) :
    lookup key (a :: entries) k = if key a = k then some a else lookup key entries k := by
  unfold lookup
  rw [find?_cons]
  by_cases same : key a = k
  · rw [beq_iff_eq.2 same, if_pos same]
  · rw [beq_false_of_ne same, if_neg same]

theorem lookup_eq_some (apart : Apart key entries) :
    lookup key entries k = some a ↔ a ∈ entries ∧ key a = k := by
  constructor
  · exact mem_of_lookup
  rintro ⟨member, is⟩
  induction entries with
  | nil => cases member
  | cons _ _ ih =>
    have ⟨differ, apart'⟩ := pairwise_cons.1 apart
    rw [lookup_cons]
    rcases mem_cons.1 member with same | later
    · rw [← same, if_pos is]
    · rw [if_neg fun here => differ a later (here.trans is.symm)]
      exact ih apart' later

theorem lookup_concat (fresh : lookup key entries (key a) = none) (k : κ) :
    lookup key (entries ++ [a]) k = if key a = k then some a else lookup key entries k := by
  unfold lookup at *
  rw [find?_append]
  by_cases same : key a = k
  · subst same
    rw [fresh, if_pos rfl, find?_singleton, beq_self_eq_true, if_pos rfl]
    rfl
  · rw [if_neg same, find?_singleton, beq_false_of_ne same, if_neg Bool.false_ne_true,
      Option.or_none]

theorem apart_concat (apart : Apart key entries) (fresh : lookup key entries (key a) = none) :
    Apart key (entries ++ [a]) := by
  refine pairwise_append.2 ⟨apart, pairwise_singleton _ _, ?_⟩
  intro b member _ last
  rw [mem_singleton.1 last]
  exact lookup_eq_none.1 fresh b member

theorem apart_delete (apart : Apart key entries) (k : κ) :
    Apart key (delete key entries k) := apart.sublist eraseP_sublist

theorem mem_of_mem_delete (member : a ∈ delete key entries k) :
    a ∈ entries := eraseP_sublist.subset member

theorem delete_cons (a : α) (entries : List α) (k : κ) :
    delete key (a :: entries) k = if key a = k then entries else a :: delete key entries k := by
  unfold delete
  rw [eraseP_cons]
  by_cases same : key a = k
  · rw [beq_iff_eq.2 same, if_pos same]
    rfl
  · rw [beq_false_of_ne same, if_neg same]
    rfl

theorem lookup_delete (apart : Apart key entries) (k k' : κ) :
    lookup key (delete key entries k) k' = if k = k' then none else lookup key entries k' := by
  induction entries with
  | nil =>
    show none = _
    split <;> rfl
  | cons a _ ih =>
    have ⟨differ, apart'⟩ := pairwise_cons.1 apart
    rw [delete_cons, lookup_cons]
    by_cases here : key a = k
    · rw [if_pos here]
      by_cases same : k = k'
      · rw [if_pos same, lookup_eq_none]
        exact fun b member is => differ b member (here.trans (same.trans is.symm))
      · rw [if_neg same, if_neg fun is => same (here.symm.trans is)]
    rw [if_neg here, lookup_cons, ih apart']
    by_cases found : key a = k'
    · rw [if_pos found, if_pos found, if_neg]
      exact fun same => here (found.trans same.symm)
    · rw [if_neg found, if_neg found]

/-- A key that is looked up is taken out whole. -/
theorem not_mem_delete (apart : Apart key entries) (found : lookup key entries k = some a) :
    a ∉ delete key entries k := by
  intro member
  have gone : lookup key (delete key entries k) k = none := by
    rw [lookup_delete apart, if_pos rfl]
  exact lookup_eq_none.1 gone a member (mem_of_lookup found).2

theorem lookup_congr {key' : α → κ} (same : ∀ a ∈ entries, key' a = key a) (k : κ) :
    lookup key' entries k = lookup key entries k := by
  induction entries with
  | nil => rfl
  | cons a _ ih =>
    rw [lookup_cons, lookup_cons, same a mem_cons_self,
      ih fun b member => same b (mem_cons_of_mem a member)]

end Infernode.Chains
