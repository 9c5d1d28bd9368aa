import Mathlib.Algebra.BigOperators.Group.List.Basic
import Mathlib.Tactic.Ring

/-!
Contract: a meter with a limit on each amount and a limit on their sum, and its history.

Owns: the entries of a history, latest first; the reservations and the amounts spent since the
limits were last set; and that a meter stays sound when a reservation within the limits is made
before each amount is spent.
-/

namespace Infernode.Ledger

inductive Entry where
  | limits (pertx persess : Nat)
  | reserve (n : Nat)
  | spend (n : Nat)
deriving DecidableEq, Repr

/-- The limits, and the sum of what was reserved under them. -/
structure Meter where
  pertx : Nat
  persess : Nat
  spent : Nat
deriving DecidableEq, Repr

def Within (limit n : Nat) : Prop := limit = 0 ∨ n ≤ limit

def setting : List Entry → Option (Nat × Nat)
  | [] => none
  | .limits pertx persess :: _ => some (pertx, persess)
  | .reserve _ :: older => setting older
  | .spend _ :: older => setting older

def reservations : List Entry → List Nat
  | [] => []
  | .limits _ _ :: _ => []
  | .reserve n :: older => n :: reservations older
  | .spend _ :: older => reservations older

def spends : List Entry → List Nat
  | [] => []
  | .limits _ _ :: _ => []
  | .reserve _ :: older => spends older
  | .spend n :: older => n :: spends older

/-- The meter is that of the history, which keeps to its limits. -/
structure Sound (m : Meter) (history : List Entry) : Prop where
  limits : setting history = some (m.pertx, m.persess)
  spent : m.spent = (reservations history).sum
  covered : (spends history).sum ≤ (reservations history).sum
  session : Within m.persess m.spent
  each : ∀ n ∈ spends history, Within m.pertx n

/-- What is spent keeps to the limits that were set last, and the meter counts what is reserved. -/
structure Capped (m : Meter) (history : List Entry) : Prop where
  limits : setting history = some (m.pertx, m.persess)
  spent : m.spent = (reservations history).sum
  session : Within m.persess (spends history).sum
  each : ∀ n ∈ spends history, Within m.pertx n

theorem sound_limits (pertx persess : Nat) (history : List Entry) :
    Sound ⟨pertx, persess, 0⟩ (.limits pertx persess :: history) where
  limits := rfl
  spent := rfl
  covered := Nat.le_refl _
  session := Or.inr (Nat.zero_le _)
  each := fun _ member => absurd member List.not_mem_nil

variable {m : Meter} {history : List Entry}

theorem Sound.capped (sound : Sound m history) :
    Capped m history where
  limits := sound.limits
  spent := sound.spent
  session := by
    rcases sound.session with unlimited | below
    · exact Or.inl unlimited
    right
    calc (spends history).sum ≤ (reservations history).sum := sound.covered
      _ = m.spent := sound.spent.symm
      _ ≤ m.persess := below
  each := sound.each

theorem Sound.reserve (sound : Sound m history) {n : Nat} (room : Within m.persess (m.spent + n)) :
    Sound { m with spent := m.spent + n } (.reserve n :: history) where
  limits := sound.limits
  spent := by
    show m.spent + n = (n :: reservations history).sum
    rw [List.sum_cons, sound.spent, Nat.add_comm]
  covered := by
    show (spends history).sum ≤ (n :: reservations history).sum
    rw [List.sum_cons]
    exact Nat.le_trans sound.covered (Nat.le_add_left _ _)
  session := room
  each := sound.each

theorem Sound.spend (sound : Sound m history) {n : Nat} (within : Within m.pertx n)
    (left : (spends history).sum + n ≤ (reservations history).sum) :
    Sound m (.spend n :: history) where
  limits := sound.limits
  spent := sound.spent
  covered := by
    show (n :: spends history).sum ≤ (reservations history).sum
    rw [List.sum_cons, Nat.add_comm]
    exact left
  session := sound.session
  each := by
    intro k member
    rcases List.mem_cons.1 member with rfl | older
    · exact within
    · exact sound.each k older

theorem Sound.left (sound : Sound m history) (n : Nat) :
    (spends (.reserve n :: history)).sum + n ≤ (reservations (.reserve n :: history)).sum := by
  show (spends history).sum + n ≤ (n :: reservations history).sum
  rw [List.sum_cons, Nat.add_comm]
  exact Nat.add_le_add_left sound.covered n

end Infernode.Ledger
