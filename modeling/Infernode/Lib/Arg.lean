import Infernode.Text.Decimal

/-!
The option parser `appl/lib/arg.b`.

Owns: the parser's state, `opt`, `earg` and `argv`, and that an option consumes text.
-/

namespace Infernode

open Text

/-- What is left of the current option argument, and of the arguments. -/
structure Arg where
  curropt : Str
  args : List Str
deriving DecidableEq, Repr

namespace Arg

/-- The first argument is the name of the command. -/
def init (argv : List Str) : Arg := ⟨[], argv.tail⟩

/-- The next option letter, 0 at the end of the options. -/
def opt (a : Arg) : Nat × Arg :=
  match a.curropt with
  | c :: rest => (c, ⟨rest, a.args⟩)
  | [] =>
    match a.args with
    | (45 :: c :: cluster) :: args =>
      if c = 45 ∧ cluster = [] then (0, ⟨[], args⟩) else (c, ⟨cluster, args⟩)
    | _ => (0, a)

def earg (a : Arg) : Option (Str × Arg) :=
  match a.curropt with
  | c :: rest => some (c :: rest, ⟨[], a.args⟩)
  | [] =>
    match a.args with
    | next :: args => some (next, ⟨[], args⟩)
    | [] => none

def size (a : Arg) : Nat := a.curropt.length + (a.args.map fun arg => arg.length + 1).sum

theorem size_opt {a : Arg} (option : (opt a).1 ≠ 0) : size (opt a).2 < size a := by
  revert option
  have ⟨curropt, _⟩ := a
  unfold opt
  cases curropt with
  | cons _ _ => simp [size]
  | nil =>
    simp only
    split
    · split_ifs
      · simp
      · simp [size]
        omega
    · simp

theorem size_earg {a a' : Arg} {text : Str} (taken : earg a = some (text, a')) :
    size a' ≤ size a := by
  have ⟨curropt, args⟩ := a
  unfold earg at taken
  cases curropt with
  | cons _ _ =>
    cases taken
    simp [size]
  | nil =>
    cases args with
    | nil => cases taken
    | cons _ _ =>
      cases taken
      simp [size]

/-- An option letter by itself is read from the next argument. -/
theorem opt_letter {c : Nat} (letter : c ≠ 45) (args : List Str) :
    opt ⟨[], [45, c] :: args⟩ = (c, ⟨[], args⟩) := by
  simp [opt, letter]

/-- A text that does not begin with a dash ends the options. -/
theorem opt_word {word : Str} (plain : word.head? ≠ some 45) (args : List Str) :
    opt ⟨[], word :: args⟩ = (0, ⟨[], word :: args⟩) := by
  cases word with
  | nil => rfl
  | cons c rest =>
    simp only [List.head?_cons, ne_eq, Option.some.injEq] at plain
    unfold opt
    split
    · rename_i shape
      cases shape
    split
    · rename_i shape
      simp only [List.cons.injEq] at shape
      exact absurd shape.1.1 plain
    · rfl

end Arg

end Infernode
