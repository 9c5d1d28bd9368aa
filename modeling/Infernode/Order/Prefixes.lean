import Mathlib.Data.List.Infix
import Mathlib.Tactic.Common

/-!
Contract: a list of lists under the prefix order, read one letter at a time.

Owns: what it is for two lists to lie on one path, and for a list to be longest, with no other
list going on from it; the `tails` behind a first letter; that every list is a prefix of a
longest one; and that a list lies on the path of a longest one exactly if, letter by letter,
some list begins with the letter and the rest is so for the tails, where there are any.
-/

namespace Infernode.Prefixes

open List

variable {α : Type} [DecidableEq α]

def OnPath (p q : List α) : Prop := p <+: q ∨ q <+: p

/-- No list of the collection goes on from it. -/
structure Longest (lists : List (List α)) (m : List α) : Prop where
  mem : m ∈ lists
  last : ∀ g ∈ lists, m <+: g → g = m

/-- What is left of a list behind a first letter, if it goes on. -/
def tail? (n : α) : List α → Option (List α)
  | [] => none
  | [_] => none
  | first :: second :: rest => if first = n then some (second :: rest) else none

/-- What is left of the lists that begin with a letter and go on. -/
def tails (n : α) (lists : List (List α)) : List (List α) := lists.filterMap (tail? n)

/-- Letter by letter, some list goes the way of `q`, until there is none that goes on. -/
def Goes : List (List α) → List α → Prop
  | _, [] => True
  | lists, n :: q => (∃ g ∈ lists, g.head? = some n) ∧ (tails n lists ≠ [] → Goes (tails n lists) q)

variable {n : α} {t : List α}

theorem tail?_eq_some {g : List α} : tail? n g = some t ↔ t ≠ [] ∧ g = n :: t := by
  match g with
  | [] => exact ⟨nofun, nofun⟩
  | [a] =>
    constructor
    · nofun
    · rintro ⟨nonempty, same⟩
      exact absurd (List.cons.inj same).2.symm nonempty
  | first :: second :: rest =>
    show (if first = n then some (second :: rest) else none) = some t ↔ _
    constructor
    · intro found
      split at found
      · rename_i same
        rw [← Option.some.inj found, same]
        exact ⟨cons_ne_nil _ _, rfl⟩
      · cases found
    · rintro ⟨_, same⟩
      rw [List.cons.injEq] at same
      rw [if_pos same.1, same.2]

variable {lists : List (List α)}

theorem mem_tails : t ∈ tails n lists ↔ t ≠ [] ∧ n :: t ∈ lists := by
  unfold tails
  rw [mem_filterMap]
  constructor
  · rintro ⟨g, member, found⟩
    obtain ⟨nonempty, rfl⟩ := tail?_eq_some.1 found
    exact ⟨nonempty, member⟩
  · rintro ⟨nonempty, member⟩
    exact ⟨n :: t, member, tail?_eq_some.2 ⟨nonempty, rfl⟩⟩

theorem goes_congr {others : List (List α)} (same : ∀ g, g ∈ lists ↔ g ∈ others) (q : List α) :
    Goes lists q ↔ Goes others q := by
  induction q generalizing lists others with
  | nil =>
    unfold Goes
    exact Iff.rfl
  | cons n _ ih =>
    have tailsSame : ∀ t, t ∈ tails n lists ↔ t ∈ tails n others := by
      intro t
      rw [mem_tails, mem_tails, same]
    have both : tails n lists = [] ↔ tails n others = [] := by
      rw [eq_nil_iff_forall_not_mem, eq_nil_iff_forall_not_mem]
      exact forall_congr' fun t => not_congr (tailsSame t)
    have heads : (∃ g ∈ lists, g.head? = some n) ↔ ∃ g ∈ others, g.head? = some n :=
      exists_congr fun g => and_congr_left fun _ => same g
    unfold Goes
    rw [heads, Ne, both, ih tailsSame]

theorem exists_longest {g : List α} (member : g ∈ lists) : ∃ m, Longest lists m ∧ g <+: m := by
  -- by what is left to the length of the longest of all
  have bounded : ∃ bound, ∀ l ∈ lists, l.length ≤ bound := by
    refine ⟨lists.flatten.length, ?_⟩
    intro _ here
    exact (sublist_flatten_of_mem here).length_le
  have ⟨bound, atMost⟩ := bounded
  induction left : bound - g.length using Nat.strong_induction_on generalizing g with
  | _ _ ih =>
    by_cases longest : Longest lists g
    · exact ⟨g, longest, prefix_refl g⟩
    have longer : ∃ h ∈ lists, g <+: h ∧ h ≠ g := by
      by_contra none
      apply longest
      refine ⟨member, ?_⟩
      intro h here front
      by_contra other
      exact none ⟨h, here, front, other⟩
    have ⟨h, here, front, other⟩ := longer
    have growth : g.length < h.length := by
      have atLeast := front.length_le
      have different : g.length ≠ h.length := fun same => other (front.eq_of_length same).symm
      omega
    have room := atMost h here
    have ⟨m, longestM, front'⟩ :=
      ih (bound - h.length) (by omega) here rfl
    exact ⟨m, longestM, front.trans front'⟩

theorem longest_tails (nonempty : t ≠ []) : Longest (tails n lists) t ↔ Longest lists (n :: t) := by
  constructor
  · rintro ⟨member, last⟩
    refine ⟨(mem_tails.1 member).2, ?_⟩
    intro g here front
    obtain ⟨rest, rfl⟩ := front
    have tailMember : t ++ rest ∈ tails n lists := by
      refine mem_tails.2 ⟨?_, here⟩
      intro empty
      exact nonempty (append_eq_nil_iff.1 empty).1
    have same := last _ tailMember (prefix_append t rest)
    rw [cons_append, same]
  · rintro ⟨member, last⟩
    refine ⟨mem_tails.2 ⟨nonempty, member⟩, ?_⟩
    intro g here front
    have same := last (n :: g) (mem_tails.1 here).2 (cons_prefix_cons.2 ⟨rfl, front⟩)
    exact (List.cons.inj same).2

/-- To go the way of some list until none goes on is to lie on the path of a longest one. -/
theorem goes_iff (nonempty : ∀ g ∈ lists, g ≠ []) {q : List α} (some_ : q ≠ []) :
    Goes lists q ↔ ∃ m, Longest lists m ∧ OnPath q m := by
  induction q generalizing lists with
  | nil => exact absurd rfl some_
  | cons n q ih =>
    have tailsNonempty : ∀ t ∈ tails n lists, t ≠ [] := fun t member => (mem_tails.1 member).1
    unfold Goes
    constructor
    · rintro ⟨⟨g, member, first⟩, rest⟩
      obtain ⟨t, rfl⟩ : ∃ t, g = n :: t := by
        cases g with
        | nil => cases first
        | cons _ t => exact ⟨t, by rw [head?_cons, Option.some.injEq] at first; rw [first]⟩
      by_cases ends : tails n lists = []
      · -- the letter itself is a list that none goes on from
        have only : ∀ t, n :: t ∈ lists → t = [] := by
          intro t here
          by_contra goesOn
          have inTails := mem_tails.2 ⟨goesOn, here⟩
          rw [ends] at inTails
          cases inTails
        refine ⟨[n], ⟨?_, ?_⟩, Or.inr (cons_prefix_cons.2 ⟨rfl, nil_prefix⟩)⟩
        · have empty := only t member
          rwa [empty] at member
        intro _ here front
        obtain ⟨s, rfl⟩ := front
        have empty := only s here
        rw [empty]
        rfl
      · by_cases stop : q = []
        · have ⟨s, inTails⟩ := exists_mem_of_ne_nil _ ends
          have ⟨m, longest, front⟩ := exists_longest (mem_tails.1 inTails).2
          refine ⟨m, longest, Or.inl ?_⟩
          rw [stop]
          exact (cons_prefix_cons.2 ⟨rfl, nil_prefix⟩).trans front
        have ⟨m, longest, onPath⟩ := (ih tailsNonempty stop).1 (rest ends)
        have named := (longest_tails (tailsNonempty m longest.mem)).1 longest
        refine ⟨n :: m, named, ?_⟩
        exact onPath.imp (fun front => cons_prefix_cons.2 ⟨rfl, front⟩)
          (fun front => cons_prefix_cons.2 ⟨rfl, front⟩)
    · rintro ⟨m, longest, onPath⟩
      have begins : ∃ t, m = n :: t ∧ OnPath q t := by
        cases m with
        | nil => exact absurd rfl (nonempty [] longest.mem)
        | cons _ t =>
          rcases onPath with front | front
          · have both := cons_prefix_cons.1 front
            exact ⟨t, by rw [both.1], Or.inl both.2⟩
          · have both := cons_prefix_cons.1 front
            exact ⟨t, by rw [both.1], Or.inr both.2⟩
      obtain ⟨t, rfl, onTail⟩ := begins
      refine ⟨⟨n :: t, longest.mem, rfl⟩, ?_⟩
      intro more
      by_cases stop : q = []
      · rw [stop]
        unfold Goes
        trivial
      refine (ih tailsNonempty stop).2 ⟨t, ?_, onTail⟩
      refine (longest_tails ?_).2 longest
      rintro rfl
      have ⟨s, inTails⟩ := exists_mem_of_ne_nil _ more
      have facts := mem_tails.1 inTails
      have same := longest.last (n :: s) facts.2
        (cons_prefix_cons.2 ⟨rfl, nil_prefix⟩)
      exact facts.1 (List.cons.inj same).2

end Infernode.Prefixes
