import Infernode.Text.Tokens
import Infernode.Text.Decimal

/-!
Contract: texts of lines, each a key, a separator and a value.

Owns: `fieldOf`, the key and the value of a line; `fields`, those of all lines of a text;
`OnlyLine` and `NoLine`, what a text says about one key; what is read from a text whose
lines are written one by one; and `setall`, a record that is set line by line, with where
each of its parts comes from when no key is used twice.
-/

namespace Infernode.Text

open List

/-- The text before the first separator and the text after it, where there is one. -/
def fieldOf (separator : Nat) (line : Str) : Option (Str × Str) :=
  match line.dropWhile (· != separator) with
  | [] => none
  | _ :: val => some (line.takeWhile (· != separator), val)

/-- The keys and values of the lines that have both, in order. -/
def fields (isDelim : Nat → Bool) (separator : Nat) (text : Str) : List (Str × Str) :=
  (tokens isDelim text).filterMap (fieldOf separator)

def OnlyLine (pairs : List (Str × Str)) (key val : Str) : Prop :=
  ∃ before after, pairs = before ++ (key, val) :: after ∧
    ∀ pair ∈ before ++ after, pair.1 ≠ key

def NoLine (pairs : List (Str × Str)) (key : Str) : Prop := ∀ pair ∈ pairs, pair.1 ≠ key

theorem fieldOf_append {separator : Nat} {key : Str} (clean : separator ∉ key) (val : Str) :
    fieldOf separator (key ++ separator :: val) = some (key, val) := by
  have kept : ∀ c ∈ key, (c != separator) = true := by
    intro c member
    have other : c ≠ separator := fun same => clean (same ▸ member)
    simpa using other
  unfold fieldOf
  rw [dropWhile_append_of_pos kept, takeWhile_append_stop kept (by simp),
    dropWhile_cons_of_neg (by simp)]

theorem tokens_lines {isDelim : Nat → Bool} {newline : Nat} (delimits : isDelim newline = true)
    {lines : List Str}
    (proper : ∀ line ∈ lines, line ≠ [] ∧ ∀ c ∈ line, isDelim c = false) :
    tokens isDelim (lines.flatMap (· ++ [newline])) = lines := by
  rw [tokens_flatMap_concat delimits]
  induction lines with
  | nil => rfl
  | cons line _ ih =>
    have here := proper line mem_cons_self
    rw [flatMap_cons, tokens_eq_singleton here.1 here.2,
      ih (forall_mem_cons.1 proper).2]
    rfl

theorem noLine_nil (key : Str) : NoLine [] key := by
  intro _ member
  cases member

theorem OnlyLine.cons {pairs : List (Str × Str)} {key val : Str} {pair : Str × Str}
    (only : OnlyLine pairs key val) (other : pair.1 ≠ key) : OnlyLine (pair :: pairs) key val := by
  have ⟨before, after, shape, absent⟩ := only
  refine ⟨pair :: before, after, by rw [shape]; rfl, ?_⟩
  intro found member
  rcases mem_cons.1 member with rfl | member
  · exact other
  · exact absent found member

theorem NoLine.cons {pairs : List (Str × Str)} {key : Str} {pair : Str × Str}
    (absent : NoLine pairs key) (other : pair.1 ≠ key) : NoLine (pair :: pairs) key :=
  forall_mem_cons.2 ⟨other, absent⟩

variable {pairs : List (Str × Str)}

theorem NoLine.onlyLine {key : Str} (absent : NoLine pairs key) (val : Str) :
    OnlyLine ((key, val) :: pairs) key val :=
  ⟨[], pairs, rfl, absent⟩

theorem noLine_iff {key : Str} : NoLine pairs key ↔ key ∉ pairs.map Prod.fst := by
  unfold NoLine
  simp only [mem_map, not_exists, not_and]

/-! ### Records -/

section Record

variable {σ ε γ : Type} (set : σ → Str → Str → Except ε σ)

/-- The record after all lines, or the first error. -/
def setall : σ → List (Str × Str) → Except ε σ
  | s, [] => .ok s
  | s, (key, val) :: rest =>
    match set s key val with
    | .error err => .error err
    | .ok s => setall s rest

/-- The part `value` of the record is set by lines with the key and by no others;
`accepts` says how. -/
structure SetBy (value : σ → γ) (key : Str) (accepts : Str → γ → γ → Prop) : Prop where
  own : ∀ s val after, set s key val = .ok after → accepts val (value s) (value after)
  other : ∀ s found val after, set s found val = .ok after → found ≠ key →
    value after = value s

variable {set}

variable {s out : σ}

theorem setall_cons {key val : Str} {rest : List (Str × Str)}
    (done : setall set s ((key, val) :: rest) = .ok out) :
    ∃ after, set s key val = .ok after ∧ setall set after rest = .ok out := by
  unfold setall at done
  split at done
  · cases done
  · exact ⟨_, by assumption, done⟩

variable {value : σ → γ} {key : Str} {accepts : Str → γ → γ → Prop}

theorem SetBy.of_noLine (setBy : SetBy set value key accepts) (absent : NoLine pairs key)
    (done : setall set s pairs = .ok out) : value out = value s := by
  induction pairs generalizing s with
  | nil =>
    cases done
    rfl
  | cons pair _ ih =>
    have ⟨_, here, done⟩ := setall_cons done
    rw [ih (forall_mem_cons.1 absent).2 done]
    exact setBy.other _ _ _ _ here (absent pair mem_cons_self)

theorem SetBy.onlyLine (setBy : SetBy set value key accepts) (nodup : (pairs.map Prod.fst).Nodup)
    (done : setall set s pairs = .ok out) :
    (∃ val, OnlyLine pairs key val ∧ accepts val (value s) (value out)) ∨
      NoLine pairs key ∧ value out = value s := by
  induction pairs generalizing s with
  | nil => exact Or.inr ⟨noLine_nil key, setBy.of_noLine (noLine_nil key) done⟩
  | cons pair rest ih =>
    have ⟨found, val⟩ := pair
    have ⟨_, here, done⟩ := setall_cons done
    have ⟨fresh, nodup⟩ := nodup_cons.1 nodup
    by_cases own : found = key
    · subst own
      have absent : NoLine rest found := noLine_iff.2 fresh
      have kept := setBy.of_noLine absent done
      refine Or.inl ⟨val, absent.onlyLine val, ?_⟩
      rw [kept]
      exact setBy.own _ _ _ here
    · have kept := setBy.other _ _ _ _ here own
      rcases ih nodup done with ⟨val, only, accepted⟩ | ⟨absent, same⟩
      · exact Or.inl ⟨val, only.cons own, kept ▸ accepted⟩
      · exact Or.inr ⟨absent.cons own, same.trans kept⟩

end Record

end Infernode.Text
