import Infernode.Dis.Shared

/-!
The strings that are made.

Owns: what a new block holds, how new strings are filled, and copies of strings.
-/

namespace Infernode.Dis

open Program Text DisString

/-- A new string of `nb` chars, before anything is written into it. -/
structure Blank (nb : Nat) (str : DisString) : Prop where
  len : str.len = nb
  max : str.max + 8 = str.room
  enough : nb ≤ str.max
  some : 48 ≤ str.max

/-- The result is a new string of which this is known, and nothing else has changed. -/
def Made (s : Strings) (known : DisString → Prop) (a : Nat) (t : Strings) : Prop :=
  a = s.next ∧ ∃ str, t = s.alloc str ∧ known str

def Pool.Refuses (pool : Pool) : Prop := ∃ k asize, pool.grant k asize = none

/-- There was no memory, and nothing has changed. -/
def Nomem (pool : Pool) (s : Strings) (e : Exn) (t : Strings) : Prop :=
  e = .exHeap ∧ t = s ∧ pool.Refuses

theorem poolround_le (n : Nat) : n ≤ poolround n ∧ 104 ≤ poolround n := by
  unfold poolround
  omega

section Actions

variable {pool : Pool} {s : Strings} {a : Nat} {cell : Cell} {str : DisString}

theorem newstring_ends (nb : Nat) : Ends (newstring pool nb) s (Made s (Blank nb)) (Nomem pool s) := by
  unfold Ends newstring
  cases granted : pool.grant s.next (sizeofHeap + (sizeofString + nb)) with
  | none => exact ⟨rfl, rfl, _, _, granted⟩
  | some hmsize =>
    have enough := pool.enough granted
    have round := poolround_le (sizeofHeap + (sizeofString + nb))
    simp only [sizeofHeap, sizeofString, offsetofData] at enough round ⊢
    refine ⟨rfl, _, rfl, ⟨rfl, ?_, ?_, ?_⟩⟩
    · show hmsize - (24 + 32) + 8 = hmsize - (32 + 16)
      omega
    · show nb ≤ hmsize - (24 + 32)
      omega
    · show 48 ≤ hmsize - (24 + 32)
      omega

variable {exc : Exn → Strings → Prop} {f : DisString → Option DisString}
    {post : Unit → Strings → Prop}

theorem look_ends {post : Cell → Strings → Prop} (is : s.heap a = some cell) (holds : post cell s) :
    Ends (look a) s post exc := by
  refine Ends.attempt ?_ holds
  rw [is]
  rfl

theorem change_ends (is : s.heap a = some cell) (put : f cell.str = some str)
    (holds : post () (s.put a (some ⟨cell.ref, str⟩))) : Ends (change a f) s post exc := by
  refine Ends.attempt ?_ holds
  rw [is]
  show (f cell.str).map _ = _
  rw [put]
  rfl

theorem destroy_ends {v : Option Nat} (live : ∀ a, v = some a → ∃ cell, s.heap a = some cell)
    (holds : post () (s.drop v)) : Ends (destroy v) s post exc := by
  cases v with
  | none => exact holds
  | some a =>
    have ⟨cell, is⟩ := live a rfl
    have dropped : s.drop (some a) = s.put a
        (if 1 < cell.ref then some { cell with ref := cell.ref - 1 } else none) := by
      show s.put a ((s.heap a).bind _) = _
      rw [is]
      rfl
    refine Ends.attempt ?_ holds
    rw [is, dropped]
    rfl

theorem change_alloc_ends {str' : DisString} (put : f str = some str')
    (holds : post () (s.alloc str')) : Ends (change s.next f) (s.alloc str) post exc := by
  refine change_ends (Strings.heap_alloc_self s str) put ?_
  rw [Strings.put_alloc]
  exact holds

variable {make : Act Nat} {known : DisString → Prop} {nr : Nat} {cs : Str}

theorem made_ends {β : Type} {rest : Nat → Act β} {post : β → Strings → Prop}
    (made : Ends make s (Made s known) (Nomem pool s))
    (ends : ∀ str, known str → Ends (rest s.next) (s.alloc str) post exc)
    (nomem : pool.Refuses → exc .exHeap s) : Ends (make >>= rest) s post exc := by
  apply Ends.seq made
  · rintro ns t ⟨rfl, str, rfl, knows⟩
    exact ends str knows
  · rintro e t ⟨rfl, rfl, refuses⟩
    exact nomem refuses

theorem fill_ends {known' : DisString → Prop} (made : Ends make s (Made s known) (Nomem pool s))
    (filled : ∀ str, known str → ∃ str', f str = some str' ∧ known' str') :
    Ends (do let ns ← make; change ns f; pure ns) s (Made s known') (Nomem pool s) := by
  apply made_ends made
  · intro str knows
    have ⟨str', put, knows'⟩ := filled str knows
    exact Ends.bind (change_alloc_ends put ⟨rfl, str', rfl, knows'⟩)
  · exact fun refuses => ⟨rfl, rfl, refuses⟩

/-- A new string of `nr` runes, before anything is written into it. -/
structure Blankrunes (nr : Nat) (str : DisString) : Prop where
  len : str.len = -nr
  fits : 2 * str.max ≤ str.room - 8
  enough : nr ≤ str.max

theorem newrunes_ends (positive : nr ≠ 0) :
    Ends (newrunes pool nr) s (Made s (Blankrunes nr)) (Nomem pool s) := by
  unfold newrunes
  rw [if_neg positive]
  apply fill_ends (newstring_ends (2 * nr))
  intro str blank
  refine ⟨_, rfl, ⟨rfl, ?_, ?_⟩⟩
  · show 2 * (str.max / 2) ≤ str.room - 8
    have max := blank.max
    omega
  · show nr ≤ str.max / 2
    have enough := blank.enough
    omega

/-- A string with the characters of another. -/
structure Copy (old str : DisString) : Prop where
  chars : str.chars = old.chars
  represented : str.Represented
  runes : str.len < 0 ↔ old.len < 0

theorem fill_runes {f : Nat → Nat} (positive : nr ≠ 0) (count : cs.length = nr)
    (each : ∀ i, i < nr → cs[i]? = some (f i % 65536)) (blank : Blankrunes nr str) :
    ∃ str', str.putrunes 0 nr f = some str' ∧ str'.chars = cs ∧ str'.Represented ∧
      str'.len < 0 := by
  have len := blank.len
  have fits := blank.fits
  have enough := blank.enough
  obtain ⟨str', put, written, chars⟩ := join_runes (f := f) [] cs
    (by rw [len, List.length_nil, Nat.zero_add]) (by rw [List.length_nil]; omega)
    (by rw [List.length_nil]; omega) count (fun i below => absurd below (Nat.not_lt_zero i)) each
  have runes : str'.len < 0 := by
    rw [written.len, len]
    omega
  refine ⟨str', put, chars, Represented.of_runes runes ?_ ?_, runes⟩
  · rw [written.max, ← length_chars, chars, List.nil_append, count]
    exact enough
  · rw [written.max, written.room]
    exact fits

theorem fill_chars {nb : Nat} {f : Nat → Nat} (count : cs.length = nb)
    (each : ∀ i, i < nb → cs[i]? = some (f i)) (ascii : ∀ i, i < nb → f i < 0x80)
    (blank : Blank nb str) :
    ∃ str', str.putascii 0 nb f = some str' ∧ str'.chars = cs ∧ str'.Represented ∧
      0 ≤ str'.len := by
  have len := blank.len
  have max := blank.max
  have enough := blank.enough
  obtain ⟨str', put, written, chars⟩ := join_chars (f := f) [] cs
    (by rw [len, List.length_nil, Nat.zero_add]) (by rw [List.length_nil]; omega) count
    (fun i below => absurd below (Nat.not_lt_zero i)) (fun i below => by
      have small := ascii i below
      rw [each i below, Nat.mod_eq_of_lt (by omega)])
  have nonneg : 0 ≤ str'.len := by
    rw [written.len, len]
    omega
  refine ⟨str', put, chars, Represented.of_ascii nonneg ?_ ?_ ?_, nonneg⟩
  · rw [written.max, ← length_chars, chars, List.nil_append, count]
    exact enough
  · rw [written.max, written.room]
    omega
  intro i below
  rw [← length_chars, chars, List.nil_append, count] at below
  have atStart : str.putascii 0 nb f = some str' := put
  rw [ascii_putascii atStart, if_pos (by omega), Nat.sub_zero, Nat.mod_eq_of_lt]
  · exact ascii i below
  · exact Nat.lt_trans (ascii i below) (by decide)

theorem duplicate_ends (is : s.heap a = some cell) (represented : cell.str.Represented) :
    Ends (duplicate pool a) s (Made s (Copy cell.str)) (Nomem pool s) := by
  unfold duplicate
  apply Ends.bind
  apply look_ends is
  by_cases ascii : 0 ≤ cell.str.len
  · simp only [if_pos ascii]
    apply fill_ends (newstring_ends _)
    intro str blank
    obtain ⟨str', put, chars, represented', _⟩ := fill_chars (length_chars cell.str)
      (fun i below => getElem_chars_of_nonneg ascii below) (represented.chars ascii) blank
    exact ⟨str', put, chars, represented', by omega⟩
  simp only [if_neg ascii]
  have runes : cell.str.len < 0 := by omega
  have positive : cell.str.length ≠ 0 := by
    unfold DisString.length
    omega
  apply fill_ends (newrunes_ends positive)
  intro _ blank
  obtain ⟨str', put, chars, represented', _⟩ := fill_runes positive (length_chars cell.str)
    (fun i below => by
      rw [getElem_chars_of_neg runes below, Nat.mod_eq_of_lt (rune_lt _ _)]) blank
  exact ⟨str', put, chars, represented', by omega⟩

end Actions

end Infernode.Dis
