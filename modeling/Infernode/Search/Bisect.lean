import Mathlib.Order.Basic
import Mathlib.Tactic.Common

/-!
Contract: the search for an entry of a table, by halves and one by one.

Owns: the two searches, over entries that lie a stride apart: by halves, with a probe that says on
which side of an entry the sought thing is, and one by one; and that both find the one entry that it
is in.
-/

namespace Infernode.Search

/-- The search by halves, among `n` entries from `t` on. -/
def bisect (stride : Nat) (probe : Nat → Ordering) (n t : Nat) : Option Nat :=
  if _some : n = 0 then none
  else
    match probe (t + n / 2 * stride) with
    | .lt => bisect stride probe (n / 2) t
    | .gt => bisect stride probe (n - (n / 2 + 1)) (t + n / 2 * stride + stride)
    | .eq => some (t + n / 2 * stride)
termination_by n

def scan (stride : Nat) (here : Nat → Bool) : (n t : Nat) → Option Nat
  | 0, _ => none
  | n + 1, t => if here t = true then some t else scan stride here n (t + stride)

/-- What is not above an entry is below those behind it. -/
def Ordered (stride : Nat) (probe : Nat → Ordering) (n t : Nat) : Prop :=
  ∀ i j, i < j → j < n → probe (t + i * stride) ≠ .gt → probe (t + j * stride) = .lt

/-- The entry `l` is the one. -/
def At (stride : Nat) (probe : Nat → Ordering) (n t l : Nat) : Prop :=
  ∃ i < n, l = t + i * stride ∧ probe l = .eq

variable {stride n t l : Nat} {probe : Nat → Ordering}

/-! ### Entries in order -/

theorem Ordered.take {m : Nat} (ordered : Ordered stride probe n t) (fewer : m ≤ n) :
    Ordered stride probe m t :=
  fun i j before inside => ordered i j before (Nat.lt_of_lt_of_le inside fewer)

theorem address (k i : Nat) : t + k * stride + stride + i * stride = t + (k + 1 + i) * stride := by
  rw [Nat.add_mul, Nat.add_mul, Nat.one_mul, Nat.add_assoc, Nat.add_assoc, Nat.add_assoc]

theorem Ordered.drop {k : Nat} (ordered : Ordered stride probe n t) :
    Ordered stride probe (n - (k + 1)) (t + k * stride + stride) := by
  intro _ _ _ _
  rw [address, address]
  exact ordered _ _ (by omega) (by omega)

theorem At.take {m : Nat} (at_ : At stride probe m t l) (fewer : m ≤ n) : At stride probe n t l := by
  have ⟨i, inside, is, found⟩ := at_
  exact ⟨i, Nat.lt_of_lt_of_le inside fewer, is, found⟩

theorem At.drop {k : Nat} (at_ : At stride probe (n - (k + 1)) (t + k * stride + stride) l) :
    At stride probe n t l := by
  have ⟨i, _, is, found⟩ := at_
  rw [address] at is
  exact ⟨k + 1 + i, by omega, is, found⟩

theorem At.unique {l' : Nat} (ordered : Ordered stride probe n t) (at_ : At stride probe n t l)
    (at' : At stride probe n t l') : l = l' := by
  obtain ⟨i, inside, rfl, found⟩ := at_
  obtain ⟨j, inside', rfl, found'⟩ := at'
  rcases Nat.lt_trichotomy i j with before | rfl | after
  · have below := ordered i j before inside' (by rw [found]; nofun)
    rw [found'] at below
    cases below
  · rfl
  · have below := ordered j i after inside (by rw [found']; nofun)
    rw [found] at below
    cases below

/-! ### The searches -/

theorem bisect_at (ordered : Ordered stride probe n t) :
    bisect stride probe n t = some l ↔ At stride probe n t l := by
  induction n using Nat.strongRecOn generalizing t with
  | ind n ih =>
    unfold bisect
    by_cases none : n = 0
    · rw [dif_pos none]
      constructor
      · nofun
      · rintro ⟨i, inside, -⟩
        omega
    rw [dif_neg none]
    have inside : n / 2 < n := by omega
    cases middle : probe (t + n / 2 * stride) with
    | lt =>
      simp only
      rw [ih _ inside (ordered.take (Nat.le_of_lt inside))]
      constructor
      · exact fun at_ => at_.take (Nat.le_of_lt inside)
      rintro ⟨i, last, rfl, found⟩
      refine ⟨i, ?_, rfl, found⟩
      rcases Nat.lt_trichotomy i (n / 2) with before | rfl | after
      · exact before
      · rw [middle] at found
        cases found
      · have below := ordered _ _ after last (by rw [middle]; nofun)
        rw [found] at below
        cases below
    | gt =>
      simp only
      rw [ih _ (by omega) ordered.drop]
      constructor
      · exact At.drop
      rintro ⟨i, last, rfl, found⟩
      rcases Nat.lt_trichotomy i (n / 2) with before | rfl | after
      · have below := ordered _ _ before inside (by rw [found]; nofun)
        rw [middle] at below
        cases below
      · rw [middle] at found
        cases found
      refine ⟨i - (n / 2 + 1), by omega, ?_, found⟩
      rw [address]
      congr 2
      omega
    | eq =>
      simp only [Option.some.injEq]
      have here : At stride probe n t (t + n / 2 * stride) := ⟨n / 2, inside, rfl, middle⟩
      constructor
      · rintro rfl
        exact here
      · exact fun at_ => here.unique ordered at_

theorem scan_at {here : Nat → Bool} (ordered : Ordered stride probe n t)
    (same : ∀ i < n, here (t + i * stride) = true ↔ probe (t + i * stride) = .eq) :
    scan stride here n t = some l ↔ At stride probe n t l := by
  induction n generalizing t with
  | zero =>
    constructor
    · nofun
    · rintro ⟨i, inside, -⟩
      omega
  | succ n ih =>
    have first : t + 0 * stride = t := by omega
    have next (i : Nat) : t + stride + i * stride = t + (i + 1) * stride := by
      rw [Nat.succ_mul]
      omega
    have head := same 0 (Nat.succ_pos n)
    rw [first] at head
    unfold scan
    by_cases found : here t = true
    · rw [if_pos found, Option.some.injEq]
      have one : At stride probe (n + 1) t t :=
        ⟨0, Nat.succ_pos n, first.symm, head.1 found⟩
      constructor
      · rintro rfl
        exact one
      · exact fun at_ => one.unique ordered at_
    rw [if_neg found]
    have rest := @Ordered.drop stride (n + 1) t probe 0 ordered
    rw [first, Nat.zero_add, Nat.add_sub_cancel] at rest
    have later : ∀ i < n, here (t + stride + i * stride) = true ↔
        probe (t + stride + i * stride) = .eq := by
      intro i inside
      rw [next]
      exact same (i + 1) (Nat.succ_lt_succ inside)
    rw [ih rest later]
    constructor
    · rintro ⟨i, inside, is, at_⟩
      rw [next] at is
      exact ⟨i + 1, Nat.succ_lt_succ inside, is, at_⟩
    rintro ⟨i, last, rfl, is⟩
    cases i with
    | zero =>
      rw [first] at is
      exact absurd (head.2 is) found
    | succ i => exact ⟨i, Nat.lt_of_succ_lt_succ last, (next i).symm, is⟩

theorem bisect_eq_scan {here : Nat → Bool} (ordered : Ordered stride probe n t)
    (same : ∀ i < n, here (t + i * stride) = true ↔ probe (t + i * stride) = .eq) :
    bisect stride probe n t = scan stride here n t :=
  Option.ext fun _ => (bisect_at ordered).trans (scan_at ordered same).symm

end Infernode.Search
