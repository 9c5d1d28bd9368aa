/-!
Functions that return an error or go on.

Owns: `check`, `need` and `refuse`, the three ways to return an error; and what is known
after a check that did not return, and after a step that gave a value.
-/

namespace Infernode.Checks

variable {ε α β : Type}

def check (refuse : Prop) [Decidable refuse] (err : ε) : Except ε Unit :=
  if refuse then .error err else .ok ⟨⟩

def need (found : Option α) (err : ε) : Except ε α :=
  match found with
  | none => .error err
  | some a => .ok a

def refuse {problem : Type} (found : Option problem) (err : problem → ε) : Except ε Unit :=
  match found with
  | none => .ok ⟨⟩
  | some p => .error (err p)

def mapError {ε' : Type} (done : Except ε' α) (err : ε' → ε) : Except ε α :=
  match done with
  | .ok a => .ok a
  | .error e => .error (err e)

theorem passed {refuse : Prop} [Decidable refuse] {err : ε} {rest : Except ε β} {result : β}
    (done : (if refuse then .error err else rest) = .ok result) : ¬refuse ∧ rest = .ok result := by
  split at done
  · cases done
  · exact ⟨by assumption, done⟩

theorem chosen {choice : Prop} [Decidable choice] {first second result : α}
    (done : (if choice then first else second) = result) :
    choice ∧ first = result ∨ second = result := by
  split at done
  · exact Or.inl ⟨by assumption, done⟩
  · exact Or.inr done

/-- A step that gave a value, and the steps after it. -/
theorem bind_eq_ok {first : Except ε α} {rest : α → Except ε β} {result : β} :
    (first >>= rest) = .ok result ↔ ∃ a, first = .ok a ∧ rest a = .ok result := by
  cases first with
  | error e =>
    constructor
    · intro done
      cases done
    · rintro ⟨a, done, _⟩
      cases done
  | ok a =>
    constructor
    · intro done
      exact ⟨a, rfl, done⟩
    · rintro ⟨_, same, done⟩
      cases same
      exact done

theorem check_eq_ok {refuse : Prop} [Decidable refuse] {err : ε} {u : Unit} :
    check refuse err = .ok u ↔ ¬refuse := by
  unfold check
  split
  · simp_all
  · simp_all

theorem need_eq_ok {found : Option α} {err : ε} {a : α} :
    need found err = .ok a ↔ found = some a := by
  cases found with
  | none => simp [need]
  | some b => simp [need]

theorem refuse_eq_ok {problem : Type} {found : Option problem} {err : problem → ε} {u : Unit} :
    refuse found err = .ok u ↔ found = none := by
  cases found with
  | none => simp [refuse]
  | some p => simp [refuse]

theorem mapError_eq_ok {ε' : Type} {done : Except ε' α} {err : ε' → ε} {a : α} :
    mapError done err = .ok a ↔ done = .ok a := by
  cases done with
  | error e => simp [mapError]
  | ok b => simp [mapError]

end Infernode.Checks
