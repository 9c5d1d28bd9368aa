import Infernode.Dis.Slicec
import Infernode.Program.Runs

/-!
The strings as values.

Owns: what each instruction should make of the characters that the variables stand for, when it
does, and when every string of a run is represented as it should be.
-/

namespace Infernode.Dis

open Program Runs Text DisString

variable {op : Strop} {cs : Str} {r : Int} {v : Nat}

namespace Strop

/-! ### What the instructions are for -/

def target : Strop → Nat
  | .insc _ _ d => d
  | .slicec _ _ d => d
  | .addc _ _ d => d
  | .cvtac _ d => d
  | .cvtwc _ d => d
  | .cvtlc _ d => d
  | .dup _ d => d
  | .movp _ d => d

def Outside (val : Nat → Str) : Strop → Prop
  | .insc _ v d => (val d).length < v
  | .slicec start v d => ¬(start ≤ v ∧ v ≤ (val d).length)
  | _ => False

/-- The characters that the target is to stand for. -/
def Yields (val : Nat → Str) : Strop → Str → Prop
  | .insc r v d, cs => ∃ c : Nat, (c : Int) = r ∧ cs = putAt v c (val d)
  | .slicec start v d, cs => cs = slice start v (val d)
  | .addc source middle _, cs => cs = val middle ++ val source
  | .cvtac a _, cs => cs = a.elim [] decoded
  | .cvtwc w _, cs => cs = decimal (w.setWidth 32).toInt
  | .cvtlc v _, cs => cs = decimal v.toInt
  | .dup source _, cs => cs = val source
  | .movp source _, cs => cs = val source

/-- The instruction computes on characters: the target stands for the result and every other
variable for what it did, or the index is out of bounds, or there is no memory, and then every
variable stands for what it did. -/
def Meets (pool : Pool) (s : Strings) (op : Strop) : Prop :=
  Ends (op.exec pool) s
    (fun _ t => ¬op.Outside s.val ∧ ∃ cs, op.Yields s.val cs ∧ Becomes s op.target cs t)
    (Refused pool s (op.Outside s.val))

/-- The character is a rune, and a string that is appended to itself fits into its block. -/
def Proper (s : Strings) : Strop → Prop
  | .insc r v d => v ≤ (s.val d).length → 0 ≤ r ∧ r < 65536
  | .addc source middle d => Appendable s source middle d
  | _ => True

section Meets

variable {pool : Pool} {s : Strings} {d : Nat}

theorem meets_of_gives (inside : ¬op.Outside s.val) (yields : op.Yields s.val cs)
    (ends : Ends (op.exec pool) s (fun _ => Gives s op.target cs)
      (Refused pool s (op.Outside s.val))) : op.Meets pool s :=
  ends.weaken (fun _ _ gives => ⟨inside, cs, yields, gives.1⟩) fun _ _ refused => refused

theorem meets_insc (linked : s.Linked) (all : s.Represented) (proper : (insc r v d).Proper s) :
    (insc r v d).Meets pool s := by
  refine (insc_ends linked all).weaken ?_ fun _ _ refused => refused
  rintro - t ⟨atMost, ⟨c, stored, becomes⟩, -⟩
  exact ⟨Nat.not_lt.2 atMost, _, ⟨c, stored.2 (proper atMost), rfl⟩, becomes⟩

theorem meets_of_proper (linked : s.Linked) (all : s.Represented) (proper : op.Proper s) :
    op.Meets pool s := by
  cases op with
  | insc _ _ _ => exact meets_insc linked all proper
  | slicec _ _ _ =>
    refine (slicec_ends linked all).weaken ?_ fun _ _ refused => refused
    rintro - t ⟨inside, gives⟩
    exact ⟨not_not.2 inside, _, rfl, gives.1⟩
  | addc _ _ _ => exact meets_of_gives id rfl (addc_ends linked all proper)
  | cvtac a _ => exact meets_of_gives id rfl (cvtac_ends linked all a)
  | cvtwc w _ => exact meets_of_gives id rfl (cvtwc_ends linked all w)
  | cvtlc v _ => exact meets_of_gives id rfl (cvtlc_ends linked all v)
  | dup _ _ => exact meets_of_gives id rfl (dup_ends linked all)
  | movp _ _ => exact meets_of_gives id rfl (movp_ends linked all)

end Meets

end Strop

/-! ### What an instruction that is not proper does -/

section Improper

variable {pool : Pool} {s : Strings} {a d : Nat} {cell : Cell}

theorem look_of_some (is : s.heap a = some cell) : look a s = .ok cell s := by
  apply Action.attempt_of_some
  rw [is]
  rfl

variable {f : DisString → Option DisString}

theorem change_of_some {str : DisString} (is : s.heap a = some cell) (put : f cell.str = some str) :
    change a f s = .ok () (s.put a (some ⟨cell.ref, str⟩)) := by
  apply Action.attempt_of_some
  rw [is]
  show (f cell.str).map _ = _
  rw [put]
  rfl

theorem change_of_none (is : s.heap a = some cell) (stuck : f cell.str = none) :
    change a f s = .wild := by
  apply Action.attempt_of_none
  rw [is]
  show (f cell.str).map _ = _
  rw [stuck]
  rfl

/-- The copy of a string behind itself goes past the block. -/
theorem backrunes_wild (is : s.heap a = some cell)
    (past : cell.str.room < 2 * (3 * cell.str.length)) :
    backrunes a a cell.str.length (cell.str.length + cell.str.length) s = .wild := by
  have longer := change_of_some (f := fun n => some (n.setlen
    (-(cell.str.length + cell.str.length : Nat)))) is rfl
  unfold backrunes
  rw [Action.bind_of_ok longer, Action.bind_of_ok (look_of_some (Strings.put_self s a _))]
  apply change_of_none (Strings.put_self s a _)
  unfold putrunes
  apply if_neg
  show ¬2 * (cell.str.length + Int.natAbs (-(cell.str.length + cell.str.length : Nat))) ≤
    cell.str.room
  omega

theorem backchars_wild (is : s.heap a = some cell)
    (past : cell.str.room < 3 * cell.str.length) :
    backchars a a cell.str.length (cell.str.length + cell.str.length) s = .wild := by
  have longer := change_of_some (f := fun n => some (n.setlen
    (cell.str.length + cell.str.length : Nat))) is rfl
  unfold backchars
  rw [Action.bind_of_ok longer, Action.bind_of_ok (look_of_some (Strings.put_self s a _))]
  apply change_of_none (Strings.put_self s a _)
  unfold putascii
  apply if_neg
  show ¬cell.str.length + Int.natAbs (cell.str.length + cell.str.length : Nat) ≤ cell.str.room
  omega

theorem addstrings_wild (is : s.heap a = some cell) (unfit : ¬Fits cell.str) :
    addstrings pool a a true s = .wild := by
  unfold Fits at unfit
  rw [Classical.not_imp, Nat.not_le] at unfit
  have ⟨_, past⟩ := unfit
  have room : cell.str.length + cell.str.length ≤ cell.str.max := by omega
  unfold addstrings
  rw [Action.bind_of_ok (look_of_some is), Action.bind_of_ok (look_of_some is)]
  unfold DisString.width at past
  by_cases runes : cell.str.len < 0
  · rw [if_pos runes] at past
    have front : frontrunes pool a true (cell.str.length + cell.str.length) s = .ok a s := by
      unfold frontrunes
      rw [Action.bind_of_ok (look_of_some is)]
      simp only [true_and, if_pos room]
      rfl
    simp only [if_pos runes]
    rw [Action.bind_of_ok front, Action.bind_of_wild (backrunes_wild is past)]
  rw [if_neg runes, Nat.one_mul] at past
  have front : frontchars pool a true (cell.str.length + cell.str.length) s = .ok a s := by
    unfold frontchars
    rw [Action.bind_of_ok (look_of_some is)]
    simp only [true_and, if_pos room]
    rfl
  simp only [if_neg runes]
  rw [Action.bind_of_ok front, Action.bind_of_wild (backchars_wild is past)]

theorem addc_wild {source middle : Nat} (unfit : ¬Appendable s source middle d) :
    addc pool source middle d s = .wild := by
  unfold Appendable at unfit
  simp only [Classical.not_forall] at unfit
  obtain ⟨rfl, rfl, a, cell, holds, is, one, unfit⟩ := unfit
  unfold addc
  have value : S source s = .ok (some a) s := congrArg (Outcome.ok · s) holds
  rw [Action.bind_of_ok value, Action.bind_of_ok value]
  apply Action.bind_of_wild
  refine (Action.bind_of_ok (look_of_some is)).trans ?_
  have append : (decide (source = source) && !decide (1 < cell.ref)) = true := by
    rw [decide_eq_true rfl, decide_eq_false one]
    rfl
  rw [append]
  exact Action.bind_of_wild (addstrings_wild is unfit)

def Pool.generous : Pool where
  grant := fun _ asize => some (poolround asize)
  fill := fun _ _ => 0
  enough := by
    intro k asize size granted
    exact (Option.some.inj granted).le

theorem not_refuses_generous : ¬Pool.generous.Refuses := by
  rintro ⟨k, asize, refused⟩
  cases refused

theorem putAt_injective {c c' : Nat} (same : putAt v c cs = putAt v c' cs) : c = c' := by
  unfold putAt at same
  split at same
  · rename_i inside
    have at_v := congrArg (fun cs => cs[v]?) same
    simp only [List.getElem?_set_self inside] at at_v
    exact Option.some.inj at_v
  · exact List.singleton_inj.1 (List.append_cancel_left same)

/-- Where memory does not run out a character that is put in is a rune. -/
theorem proper_of_meets_insc (linked : s.Linked) (all : s.Represented)
    (meets : (Strop.insc r v d).Meets Pool.generous s) : (Strop.insc r v d).Proper s := by
  intro atMost
  rcases (insc_ends linked all).both meets with
    ⟨-, t, ⟨-, ⟨c, stored, becomes⟩, -⟩, -, cs, ⟨c', is, same⟩, becomes'⟩ |
      ⟨e, t, refused, -⟩
  · have values := becomes.value.symm.trans (becomes'.value.trans same)
    rw [← putAt_injective values] at is
    exact stored.1 is
  · cases e with
    | exBounds => exact absurd (refused.bounds rfl) (Nat.not_lt.2 atMost)
    | exHeap => exact absurd (refused.heap rfl) not_refuses_generous

end Improper

/-! ### Strings as values -/

namespace Strop

/-- The instructions compute on characters exactly where they are proper. -/
theorem strings_are_values {s : Strings} (linked : s.Linked) (represented : s.Represented)
    (op : Strop) : (∀ pool, op.Meets pool s) ↔ op.Proper s := by
  constructor
  · intro meets
    cases op with
    | insc _ _ _ => exact proper_of_meets_insc linked represented (meets Pool.generous)
    | addc _ _ _ =>
      by_contra unfit
      exact (meets Pool.generous).not_wild (addc_wild unfit)
    | slicec _ _ _ => trivial
    | cvtac _ _ => trivial
    | cvtwc _ _ => trivial
    | cvtlc _ _ => trivial
    | dup _ _ => trivial
    | movp _ _ => trivial
  · intro proper _
    exact meets_of_proper linked represented proper

end Strop

/-- No string yet, and every variable `H`. -/
def Strings.nil : Strings := ⟨fun _ => none, 0, fun _ => none⟩

theorem linked_nil : Strings.nil.Linked where
  live := nofun
  held := nofun
  fresh := fun _ _ => rfl

theorem represented_nil : Strings.nil.Represented := nofun

/-- A string of `n` times the letter a in the least block there is. -/
def letters (n : Nat) : DisString := ⟨n, 48, 56, fun _ => 97⟩

def lettered (n : Nat) : Strings := (Strings.nil.alloc (letters n)).replaced 0 (some 0)

theorem linked_lettered (n : Nat) : (lettered n).Linked :=
  (becomes_alloc (d := 0) linked_nil (letters n)).linked

theorem represented_lettered {n : Nat} (short : n ≤ 48) : (lettered n).Represented := by
  apply Strings.Represented.replaced
  apply Strings.Represented.alloc represented_nil
  apply Represented.of_ascii (Int.natCast_nonneg n)
  · show Int.natAbs n ≤ 48
    omega
  · exact Nat.le_refl 48
  · intro _ _
    show UInt8.toNat 97 < 0x80
    decide

namespace Strop

theorem strings_are_values_lettered : (addc 0 0 0).Meets Pool.generous (lettered 2) := by
  refine (strings_are_values (linked_lettered 2) (represented_lettered (by decide)) _).2 ?_
    Pool.generous
  rintro - - a cell holds is -
  cases holds
  cases is
  unfold Fits
  decide

/-- Twenty letters appended to themselves do not. -/
theorem not_meets_addc : (lettered 20).Linked ∧ (lettered 20).Represented ∧
    ¬(addc 0 0 0).Meets Pool.generous (lettered 20) := by
  refine ⟨linked_lettered 20, represented_lettered (by decide), fun meets => ?_⟩
  refine meets.not_wild (addc_wild fun appendable => ?_)
  have fits := appendable rfl rfl 0 ⟨1, letters 20⟩ rfl rfl (Nat.lt_irrefl 1)
  exact absurd (fits (by decide)) (by decide)

/-! ### Runs -/

def step (s : Strings) (action : Pool × Strop) : Option Strings :=
  match action.2.exec action.1 s with
  | .ok _ t => some t
  | .raised _ t => some t
  | .wild => none

/-- The string of the variable can take the character, and a string that is appended to itself
fits into its block. -/
def Harmless (s : Strings) : Strop → Prop
  | .insc r v d => Insertable s r v d
  | .addc source middle d => Appendable s source middle d
  | _ => True

/-- No instruction of the run writes outside of a block, and every string of every state that it
reaches is represented as it should be. -/
def Sound (actions : List (Pool × Strop)) : Prop :=
  (∃ final, run step Strings.nil actions = some final) ∧
    Always step Strings.Represented Strings.nil actions

section Steps

variable {pool : Pool} {s : Strings}

theorem exec_keeps (linked : s.Linked) (all : s.Represented) (harmless : op.Harmless s) :
    Ends (op.exec pool) s (fun _ t => t.Linked ∧ t.Represented)
      fun _ t => t.Linked ∧ t.Represented := by
  have gives : ∀ {cs : Str} {outside : Prop}, Ends (op.exec pool) s
      (fun _ => Gives s op.target cs) (Refused pool s outside) →
      Ends (op.exec pool) s (fun _ t => t.Linked ∧ t.Represented)
        fun _ t => t.Linked ∧ t.Represented := fun ends =>
    ends.weaken (fun _ _ given => ⟨given.1.linked, given.2⟩)
      fun _ _ refused => ⟨refused.unchanged.linked, refused.represented all⟩
  cases op with
  | insc _ _ _ =>
    refine (insc_ends linked all).weaken ?_
      fun _ _ refused => ⟨refused.unchanged.linked, refused.represented all⟩
    rintro - t ⟨-, ⟨c, -, becomes⟩, represented⟩
    exact ⟨becomes.linked, represented all harmless⟩
  | slicec _ _ _ =>
    apply gives
    exact (slicec_ends linked all).weaken (fun _ _ sliced => sliced.2) fun _ _ same => same
  | addc _ _ _ => exact gives (addc_ends linked all harmless)
  | cvtac a _ => exact gives (cvtac_ends linked all a)
  | cvtwc w _ => exact gives (cvtwc_ends linked all w)
  | cvtlc v _ => exact gives (cvtlc_ends linked all v)
  | dup _ _ => exact gives (dup_ends linked all)
  | movp source d =>
    have ends : Ends (Dis.movp source d) s (fun _ => Gives s d (s.val source))
      (Refused pool s False) := movp_ends linked all
    exact gives ends

theorem step_taken {action : Pool × Strop} (kept : s.Linked ∧ s.Represented)
    (harmless : action.2.Harmless s) :
    ∃ t, step s action = some t ∧ t.Linked ∧ t.Represented := by
  have ends : Ends (action.2.exec action.1) s (fun _ t => t.Linked ∧ t.Represented)
      fun _ t => t.Linked ∧ t.Represented := exec_keeps kept.1 kept.2 harmless
  unfold Ends at ends
  unfold step
  cases outcome : action.2.exec action.1 s with
  | ok _ t =>
    rw [outcome] at ends
    exact ⟨t, rfl, ends⟩
  | raised _ t =>
    rw [outcome] at ends
    exact ⟨t, rfl, ends⟩
  | wild =>
    rw [outcome] at ends
    exact ends.elim

end Steps

/-- A run of harmless instructions keeps every string represented as it should be. -/
theorem strings_represented (actions : List (Pool × Strop))
    (each : Each step (fun s action => action.2.Harmless s) Strings.nil actions) :
    Sound actions := by
  have initial : Strings.nil.Linked ∧ Strings.nil.Represented := ⟨linked_nil, represented_nil⟩
  constructor
  · exact run_total (fun s action kept harmless => step_taken kept harmless) initial each
  have always : Always step (fun t => t.Linked ∧ t.Represented) Strings.nil actions :=
    always_of_kept (fun s action after kept harmless stepped => by
      have ⟨_, stepped', kept'⟩ := step_taken kept harmless
      rw [stepped] at stepped'
      cases stepped'
      exact kept') initial each
  exact fun front back middle split reached => (always front back middle split reached).2

theorem strings_represented_insc :
    Sound [(Pool.generous, insc 0x100 0 0), (Pool.generous, dup 0 1)] := by
  apply strings_represented
  intro front _ _ _ split reached
  cases front with
  | nil =>
    cases split
    cases reached
    intro _
    refine ⟨fun _ a cell holds => ?_, fun below => ?_⟩
    · cases holds
    · cases below
  | cons _ rest =>
    cases rest with
    | nil =>
      cases split
      trivial
    | cons _ _ =>
      have lengths := congrArg List.length split
      simp only [List.length_cons, List.length_append, List.length_nil] at lengths
      omega

/-- Twenty letters that are appended to themselves are written past their block. -/
theorem not_sound_addc : ¬Sound [(Pool.generous, cvtac (some (List.replicate 20 97)) 0),
    (Pool.generous, addc 0 0 0)] := by
  rintro ⟨⟨final, reached⟩, -⟩
  have stuck : (run step Strings.nil [(Pool.generous, cvtac (some (List.replicate 20 97)) 0),
      (Pool.generous, addc 0 0 0)]).isSome = false := by decide +kernel
  rw [reached] at stuck
  cases stuck

end Strop

end Infernode.Dis
