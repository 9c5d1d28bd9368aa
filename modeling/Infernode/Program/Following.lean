import Mathlib.Data.Set.Finite.Basic
import Mathlib.Data.Set.Finite.Range
import Mathlib.Data.Set.Finite.List

/-!
Contract: a chain that is followed from one place to the next ends exactly when it comes to no
place twice, where only finitely many places can be next.
-/

namespace Infernode.Following

variable {α : Type} (next : α → Option α)

/-- The place after so many steps, if the chain has not ended. -/
def follow : Nat → α → Option α
  | 0, x => some x
  | n + 1, x => (follow n x).bind next

def Ends (x : α) : Prop := ∃ n, follow next n x = none

variable {next}

end Infernode.Following
