import Mathlib.Tactic.Common

/-!
Contract: actions on a state that return, raise an exception or go wild.

Owns: the outcome of an action, how actions follow each other, what an action ends with from
a state, and one rule for each way in which an action is put together, loops over lists among them.
-/

namespace Infernode.Program

/-- What an action does: it returns, it raises an exception, or it does what nothing defines. -/
inductive Outcome (σ ε α : Type) where
  | ok (result : α) (after : σ)
  | raised (exception : ε) (after : σ)
  | wild

def Action (σ ε α : Type) : Type := σ → Outcome σ ε α

variable {σ ε α β : Type}

namespace Action

protected def pure (a : α) : Action σ ε α := fun s => .ok a s

protected def bind (first : Action σ ε α) (second : α → Action σ ε β) : Action σ ε β := fun s =>
  match first s with
  | .ok a t => second a t
  | .raised e t => .raised e t
  | .wild => .wild

instance : Monad (Action σ ε) where
  pure := Action.pure
  bind := Action.bind

def raise (e : ε) : Action σ ε α := fun s => .raised e s

def get (read : σ → α) : Action σ ε α := fun s => .ok (read s) s

def modify (change : σ → σ) : Action σ ε Unit := fun s => .ok () (change s)

def attempt (change : σ → Option (α × σ)) : Action σ ε α := fun s =>
  match change s with
  | some result => .ok result.1 result.2
  | none => .wild

/-- The action for each element, with its place from `i` on. -/
def each {α : Type} (work : Nat → α → Action σ ε Unit) : (i : Nat) → List α → Action σ ε Unit
  | _, [] => Action.pure ()
  | i, a :: rest => Action.bind (work i a) fun _ => each work (i + 1) rest

end Action

/-- The outcome is a result of `post` or an exception of `exc`. -/
def Outcome.Ends (outcome : Outcome σ ε α) (post : α → σ → Prop) (exc : ε → σ → Prop) : Prop :=
  match outcome with
  | .ok a t => post a t
  | .raised e t => exc e t
  | .wild => False

/-- From the state the action ends with a result of `post` or an exception of `exc`. -/
def Ends (action : Action σ ε α) (s : σ) (post : α → σ → Prop) (exc : ε → σ → Prop) : Prop :=
  (action s).Ends post exc

variable {change : σ → Option (α × σ)}

section Rules

variable {s : σ} {post : α → σ → Prop} {exc : ε → σ → Prop}

theorem Ends.pure {a : α} (holds : post a s) : Ends (Pure.pure a : Action σ ε α) s post exc :=
  holds

theorem Ends.raise {e : ε} (holds : exc e s) : Ends (Action.raise e : Action σ ε α) s post exc :=
  holds

theorem Ends.get {read : σ → α} (holds : post (read s) s) :
    Ends (Action.get read : Action σ ε α) s post exc := holds

theorem Ends.modify {change : σ → σ} {post : Unit → σ → Prop} (holds : post () (change s)) :
    Ends (Action.modify change : Action σ ε Unit) s post exc := holds

theorem Ends.attempt {a : α} {t : σ} (defined : change s = some (a, t)) (holds : post a t) :
    Ends (Action.attempt change : Action σ ε α) s post exc := by
  unfold Ends Action.attempt
  rw [defined]
  exact holds

theorem Ends.bind {first : Action σ ε α} {second : α → Action σ ε β} {post : β → σ → Prop}
    (ends : Ends first s (fun a t => Ends (second a) t post exc) exc) :
    Ends (first >>= second) s post exc := by
  show (Action.bind first second s).Ends post exc
  unfold Ends at ends
  unfold Action.bind
  cases outcome : first s with
  | ok _ _ =>
    rw [outcome] at ends
    exact ends
  | raised _ _ =>
    rw [outcome] at ends
    exact ends
  | wild =>
    rw [outcome] at ends
    exact ends

variable {action : Action σ ε α}

theorem Ends.weaken {strong : α → σ → Prop} {strongExc : ε → σ → Prop}
    (ends : Ends action s strong strongExc) (implies : ∀ a t, strong a t → post a t)
    (impliesExc : ∀ e t, strongExc e t → exc e t) : Ends action s post exc := by
  unfold Ends at *
  cases outcome : action s with
  | ok a t =>
    rw [outcome] at ends
    exact implies a t ends
  | raised e t =>
    rw [outcome] at ends
    exact impliesExc e t ends
  | wild =>
    rw [outcome] at ends
    exact ends

theorem Ends.seq {first : Action σ ε α} {second : α → Action σ ε β} {middle : α → σ → Prop}
    {middleExc : ε → σ → Prop} {post : β → σ → Prop} (ends : Ends first s middle middleExc)
    (rest : ∀ a t, middle a t → Ends (second a) t post exc)
    (impliesExc : ∀ e t, middleExc e t → exc e t) : Ends (first >>= second) s post exc :=
  Ends.bind (ends.weaken rest impliesExc)

theorem Ends.both {post' : α → σ → Prop} {exc' : ε → σ → Prop} (ends : Ends action s post exc)
    (ends' : Ends action s post' exc') :
    (∃ a t, post a t ∧ post' a t) ∨ ∃ e t, exc e t ∧ exc' e t := by
  unfold Ends at *
  cases outcome : action s with
  | ok a t =>
    rw [outcome] at ends ends'
    exact Or.inl ⟨a, t, ends, ends'⟩
  | raised e t =>
    rw [outcome] at ends ends'
    exact Or.inr ⟨e, t, ends, ends'⟩
  | wild =>
    rw [outcome] at ends
    exact ends.elim

theorem Ends.not_wild (ends : Ends action s post exc) : action s ≠ .wild := by
  intro wild
  unfold Ends at ends
  rw [wild] at ends
  exact ends

end Rules

/-! ### Evaluation -/

section Evaluation

variable {s t : σ} {first : Action σ ε α} {second : α → Action σ ε β} {a : α}

theorem Action.bind_of_ok (returns : first s = .ok a t) : (first >>= second) s = second a t := by
  show Action.bind first second s = _
  unfold Action.bind
  rw [returns]

theorem Action.bind_of_wild (wild : first s = .wild) : (first >>= second) s = .wild := by
  show Action.bind first second s = _
  unfold Action.bind
  rw [wild]

theorem Action.bind_of_raised {e : ε} (raises : first s = .raised e t) :
    (first >>= second) s = .raised e t := by
  show Action.bind first second s = _
  unfold Action.bind
  rw [raises]

theorem Action.attempt_of_some (defined : change s = some (a, t)) :
    (Action.attempt change : Action σ ε α) s = .ok a t := by
  unfold Action.attempt
  rw [defined]

theorem Action.attempt_of_none (undefined : change s = none) :
    (Action.attempt change : Action σ ε α) s = .wild := by
  unfold Action.attempt
  rw [undefined]

end Evaluation

/-! ### Loops -/

section Loops

variable {work : Nat → α → Action σ ε Unit} {inv : Nat → σ → Prop} {i : Nat} {s : σ}

/-- What the work for an element takes on to the next place, the loop takes to the end. -/
theorem Action.each_keeps {rest : List α} (works : ∀ j a s, rest[j]? = some a → inv (i + j) s →
      ∃ t, work (i + j) a s = .ok () t ∧ inv (i + j + 1) t) (initial : inv i s) :
    ∃ t, Action.each work i rest s = .ok () t ∧ inv (i + rest.length) t := by
  induction rest generalizing i s with
  | nil => exact ⟨s, rfl, initial⟩
  | cons a rest ih =>
    have ⟨_, here, kept⟩ := works 0 a s rfl initial
    have onward (j : Nat) : i + 1 + j = i + (j + 1) := by omega
    have next : ∀ j b s, rest[j]? = some b → inv (i + 1 + j) s →
        ∃ t, work (i + 1 + j) b s = .ok () t ∧ inv (i + 1 + j + 1) t := by
      intro j b s is holds
      rw [onward] at holds ⊢
      exact works (j + 1) b s is holds
    have ⟨t, later, holds⟩ := ih next kept
    rw [onward] at holds
    exact ⟨t, (Action.bind_of_ok here).trans later, holds⟩

theorem Action.each_raises {rest : List α} {k : Nat} {a : α} {e : ε} {post : σ → Prop}
    (is : rest[k]? = some a) (works : ∀ j < k, ∀ a s, rest[j]? = some a → inv (i + j) s →
      ∃ t, work (i + j) a s = .ok () t ∧ inv (i + j + 1) t) (initial : inv i s)
    (raises : ∀ s, inv (i + k) s → ∃ t, work (i + k) a s = .raised e t ∧ post t) :
    ∃ t, Action.each work i rest s = .raised e t ∧ post t := by
  induction rest generalizing i s k with
  | nil => cases is
  | cons b rest ih =>
    cases k with
    | zero =>
      cases is
      have ⟨t, here, holds⟩ := raises s initial
      exact ⟨t, Action.bind_of_raised here, holds⟩
    | succ k =>
      have ⟨_, here, kept⟩ := works 0 (Nat.succ_pos k) b s rfl initial
      have onward (j : Nat) : i + 1 + j = i + (j + 1) := by omega
      have next : ∀ j < k, ∀ a s, rest[j]? = some a → inv (i + 1 + j) s →
          ∃ t, work (i + 1 + j) a s = .ok () t ∧ inv (i + 1 + j + 1) t := by
        intro j before b s is holds
        rw [onward] at holds ⊢
        exact works (j + 1) (Nat.succ_lt_succ before) b s is holds
      rw [← onward] at raises
      have ⟨t, later, holds⟩ := ih is next kept raises
      exact ⟨t, (Action.bind_of_ok here).trans later, holds⟩

end Loops

end Infernode.Program
