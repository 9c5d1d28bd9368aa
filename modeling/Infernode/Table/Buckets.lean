import Mathlib.Data.List.Pairwise
import Mathlib.Data.List.Basic
import Mathlib.Logic.Function.Basic
import Mathlib.Tactic.Common

/-!
Contract: hash tables with chained buckets, where an entry carries its own number and
the bucket of a number is its remainder.

Owns: lookup, insertion at the front of a bucket, removal that rebuilds the bucket in
reverse, change of an entry in place, the invariant that a number has one entry in its
own bucket, and what each operation does to every lookup.
-/

namespace Infernode.Buckets

open List Function

abbrev Table (α : Type) := Nat → List α

variable {α : Type} (number : α → Nat) (size : Nat)

def get (table : Table α) (k : Nat) : Option α :=
  (table (k % size)).find? fun entry => decide (number entry = k)

/-- A new entry goes to the front of its bucket. -/
def insert (table : Table α) (entry : α) : Table α :=
  Function.update table (number entry % size) (entry :: table (number entry % size))

def erase (table : Table α) (k : Nat) : Table α :=
  Function.update table (k % size)
    ((table (k % size)).filter fun entry => decide (number entry ≠ k)).reverse

def replaceFirst (entry : α) : List α → List α
  | [] => []
  | other :: chain =>
    if number other = number entry then entry :: chain else other :: replaceFirst entry chain

def set (table : Table α) (entry : α) : Table α :=
  Function.update table (number entry % size)
    (replaceFirst number entry (table (number entry % size)))

/-- An entry is in the bucket of its number, and no other entry has the number. -/
structure Keyed (table : Table α) : Prop where
  placed : ∀ i, ∀ entry ∈ table i, number entry % size = i
  unique : ∀ i, (table i).Pairwise fun a b => number a ≠ number b

/-! ### Chains -/

variable {k : Nat} {entry : α}

section Chains

variable {number}

variable {chain : List α}

private theorem find_none :
    chain.find? (fun entry => decide (number entry = k)) = none ↔ ∀ entry ∈ chain, number entry ≠ k := by
  simp [find?_eq_none]

private theorem find_some (unique : chain.Pairwise fun a b => number a ≠ number b) :
    chain.find? (fun entry => decide (number entry = k)) = some entry ↔
      entry ∈ chain ∧ number entry = k := by
  induction chain with
  | nil => simp
  | cons other _ ih =>
    have ⟨apart, later⟩ := pairwise_cons.1 unique
    rw [find?_cons]
    by_cases found : number other = k
    · simp only [found, decide_true, mem_cons, Option.some.injEq]
      constructor
      · rintro rfl
        exact ⟨Or.inl rfl, found⟩
      · rintro ⟨rfl | member, same⟩
        · rfl
        · exact absurd (found.trans same.symm) (apart entry member)
    · simp only [found, decide_false, mem_cons]
      rw [ih later]
      constructor
      · exact fun ⟨member, same⟩ => ⟨Or.inr member, same⟩
      · rintro ⟨rfl | member, same⟩
        · exact absurd same found
        · exact ⟨member, same⟩

theorem mem_replaceFirst {other : α} (member : other ∈ replaceFirst number entry chain) :
    other = entry ∨ other ∈ chain := by
  induction chain with
  | nil => exact absurd member not_mem_nil
  | cons _ _ ih =>
    unfold replaceFirst at member
    split_ifs at member with same
    · rcases mem_cons.1 member with rfl | later
      · exact Or.inl rfl
      · exact Or.inr (mem_cons_of_mem _ later)
    · rcases mem_cons.1 member with rfl | later
      · exact Or.inr (mem_cons_self ..)
      · exact (ih later).imp id (mem_cons_of_mem _)

theorem replaceFirst_unique (unique : chain.Pairwise fun a b => number a ≠ number b) :
    (replaceFirst number entry chain).Pairwise fun a b => number a ≠ number b := by
  induction chain with
  | nil => exact List.Pairwise.nil
  | cons _ _ ih =>
    have ⟨apart, later⟩ := pairwise_cons.1 unique
    unfold replaceFirst
    split_ifs with same
    · exact pairwise_cons.2 ⟨fun other member => same ▸ apart other member, later⟩
    refine pairwise_cons.2 ⟨fun other member => ?_, ih later⟩
    rcases mem_replaceFirst member with rfl | old
    · exact same
    · exact apart other old

theorem find_replaceFirst (entry : α) (chain : List α) (k : Nat) :
    (replaceFirst number entry chain).find? (fun other => decide (number other = k)) =
      if k = number entry then
        (chain.find? fun other => decide (number other = k)).map fun _ => entry
      else chain.find? fun other => decide (number other = k) := by
  induction chain with
  | nil => simp [replaceFirst]
  | cons first _ ih =>
    unfold replaceFirst
    by_cases same : number first = number entry
    · rw [if_pos same, find?_cons, find?_cons, same]
      by_cases wanted : k = number entry
      · simp [wanted]
      · have other : number entry ≠ k := fun equal => wanted equal.symm
        simp [wanted, other]
    rw [if_neg same, find?_cons, find?_cons, ih]
    by_cases wanted : k = number entry
    · have other : number first ≠ k := fun equal => same (equal.trans wanted)
      simp [wanted, same]
    · by_cases found : number first = k <;> simp [wanted, found]

end Chains

/-! ### Lookups after an operation -/

section Lookups

variable {number size} {table : Table α}

theorem number_of_get (found : get number size table k = some entry) : number entry = k := by
  have satisfied := find?_some (p := fun entry => decide (number entry = k)) found
  exact of_decide_eq_true satisfied

theorem get_insert (entry : α) (k : Nat) : get number size (insert number size table entry) k =
    if k = number entry then some entry else get number size table k := by
  unfold get insert
  by_cases same : k % size = number entry % size
  · rw [same, update_self, find?_cons]
    by_cases wanted : k = number entry
    · simp [wanted]
    · have other : number entry ≠ k := fun equal => wanted equal.symm
      simp [wanted, other]
  · rw [update_of_ne same, if_neg fun equal => same (by rw [equal])]

theorem get_set (entry : α) (k : Nat) : get number size (set number size table entry) k =
    if k = number entry then (get number size table k).map fun _ => entry
    else get number size table k := by
  unfold get set
  by_cases same : k % size = number entry % size
  · rw [same, update_self, find_replaceFirst]
  · rw [update_of_ne same, if_neg fun equal => same (by rw [equal])]

theorem get_erase (keyed : Keyed number size table) (k j : Nat) :
    get number size (erase number size table k) j = if j = k then none else get number size table j := by
  unfold get erase
  by_cases same : j % size = k % size
  · rw [same, update_self]
    have kept : ((table (k % size)).filter fun entry => decide (number entry ≠ k)).reverse.Pairwise
        fun a b => number a ≠ number b :=
      pairwise_reverse.2 (((keyed.unique _).filter _).imp fun apart => apart.symm)
    by_cases erased : j = k
    · rw [if_pos erased, find_none]
      intro entry member
      rw [mem_reverse, mem_filter] at member
      rw [erased]
      exact of_decide_eq_true member.2
    rw [if_neg erased]
    ext entry
    rw [find_some kept, find_some (keyed.unique _), mem_reverse, mem_filter]
    constructor
    · exact fun ⟨⟨member, _⟩, equal⟩ => ⟨member, equal⟩
    · exact fun ⟨member, equal⟩ => ⟨⟨member, decide_eq_true (equal ▸ erased)⟩, equal⟩
  · rw [update_of_ne same, if_neg fun equal => same (by rw [equal])]

/-! ### The invariant -/

theorem Keyed.empty : Keyed number size (fun _ => ([] : List α)) where
  placed := fun _ _ member => absurd member not_mem_nil
  unique := fun _ => List.Pairwise.nil

theorem Keyed.insert (keyed : Keyed number size table)
    (free : get number size table (number entry) = none) :
    Keyed number size (insert number size table entry) := by
  unfold Buckets.insert
  constructor
  · intro i other member
    by_cases here : i = number entry % size
    · subst here
      rw [update_self] at member
      rcases mem_cons.1 member with rfl | old
      · rfl
      · exact keyed.placed _ other old
    · rw [update_of_ne here] at member
      exact keyed.placed i other member
  · intro i
    by_cases here : i = number entry % size
    · subst here
      rw [update_self]
      exact pairwise_cons.2
        ⟨fun other member => (find_none.1 free other member).symm, keyed.unique _⟩
    · rw [update_of_ne here]
      exact keyed.unique i

theorem Keyed.erase (keyed : Keyed number size table) (k : Nat) :
    Keyed number size (erase number size table k) := by
  unfold Buckets.erase
  constructor
  · intro i other member
    by_cases here : i = k % size
    · subst here
      rw [update_self, mem_reverse] at member
      exact keyed.placed _ other (mem_filter.1 member).1
    · rw [update_of_ne here] at member
      exact keyed.placed i other member
  · intro i
    by_cases here : i = k % size
    · subst here
      rw [update_self]
      exact pairwise_reverse.2 (((keyed.unique _).filter _).imp fun apart => apart.symm)
    · rw [update_of_ne here]
      exact keyed.unique i

theorem Keyed.set (keyed : Keyed number size table) (entry : α) :
    Keyed number size (set number size table entry) := by
  unfold Buckets.set
  constructor
  · intro i other member
    by_cases here : i = number entry % size
    · subst here
      rw [update_self] at member
      rcases mem_replaceFirst member with rfl | old
      · rfl
      · exact keyed.placed _ other old
    · rw [update_of_ne here] at member
      exact keyed.placed i other member
  · intro i
    by_cases here : i = number entry % size
    · subst here
      rw [update_self]
      exact replaceFirst_unique (keyed.unique _)
    · rw [update_of_ne here]
      exact keyed.unique i

end Lookups

end Infernode.Buckets
