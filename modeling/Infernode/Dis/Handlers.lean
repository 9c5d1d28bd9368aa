import Infernode.Dis.Exception
import Mathlib.Data.List.Infix
import Mathlib.Data.List.Nodup

/-!
Which handler takes an exception.

Owns: what it is for a clause, a handler and a frame to take an exception, how a stack lies in its
pieces, and what `handler` does to every such stack.
-/

namespace Infernode.Exception

open Text List

/-! ### Clauses -/

/-- A pattern matches the same text, or, when it ends with a star, a text that it begins. -/
def Matches (pat exp : Str) : Prop := pat = exp ∨ ∃ front, pat = front ++ [42] ∧ front <+: exp

theorem ematch_iff (pat exp : Str) : ematch pat exp = true ↔ Matches pat exp := by
  unfold ematch Matches
  by_cases same : pat = exp
  · rw [if_pos same]
    exact ⟨fun _ => Or.inl same, fun _ => rfl⟩
  rw [if_neg same]
  rcases eq_nil_or_concat pat with rfl | ⟨front, c, rfl⟩
  · simp [same]
  rw [concat_eq_append, getLast?_concat, dropLast_concat]
  simp only [Bool.and_eq_true, Bool.or_eq_true, beq_iff_eq, isPrefixOf_iff_prefix]
  constructor
  · rintro ⟨rfl, one | begins⟩
    · rw [length_append, length_singleton] at one
      have empty : front = [] := eq_nil_of_length_eq_zero (by omega)
      rw [empty]
      exact Or.inr ⟨[], rfl, nil_prefix⟩
    · exact Or.inr ⟨front, rfl, begins⟩
  · rintro (whole | ⟨front', is, begins⟩)
    · exact absurd whole (by simpa using same)
    · obtain ⟨rfl, last⟩ := append_inj' is rfl
      exact ⟨singleton_inj.1 last, Or.inr begins⟩

/-- The clause number `i` of a handler takes the exception. Those before `ne` take an exception that
is seen as itself, the others a string. -/
structure Accepts (estr : Str) (str : Bool) (ne : Int) (i : Nat) (e : Except) : Prop where
  text : Matches e.s estr
  kind : str = true ↔ ne ≤ i
  reached : e.pc ≠ none

/-- Where the clauses resume: at the first that takes the exception. -/
def Selects (estr : Str) (str : Bool) (ne : Int) (etab : List Except) (target : Nat) : Prop :=
  ∃ i e, etab[i]? = some e ∧ Accepts estr str ne i e ∧ e.pc = some target ∧
    ∀ j < i, ∀ e' ∈ etab[j]?, ¬ Accepts estr str ne j e'

def Rejects (estr : Str) (str : Bool) (ne : Int) (etab : List Except) : Prop :=
  ∀ j, ∀ e' ∈ etab[j]?, ¬ Accepts estr str ne j e'

variable {ne : Int} {target : Nat} {h : Handler}

section Clauses

variable {estr : Str} {str : Bool}

variable {e : Except}

theorem accepts_succ {i : Nat} : Accepts estr str ne (i + 1) e ↔ Accepts estr str (ne - 1) i e := by
  constructor
  · rintro ⟨text, kind, reached⟩
    exact ⟨text, kind.trans (by omega), reached⟩
  · rintro ⟨text, kind, reached⟩
    exact ⟨text, kind.trans (by omega), reached⟩

variable {rest : List Except}

theorem selects_cons_of_accepts (accepts : Accepts estr str ne 0 e) (is : e.pc = some target) :
    Selects estr str ne (e :: rest) target :=
  ⟨0, e, rfl, accepts, is, fun _ before => absurd before (Nat.not_lt_zero _)⟩

theorem selects_cons (rejects : ¬ Accepts estr str ne 0 e)
    (selects : Selects estr str (ne - 1) rest target) : Selects estr str ne (e :: rest) target := by
  have ⟨i, e', is, accepts, pc, before⟩ := selects
  refine ⟨i + 1, e', is, accepts_succ.2 accepts, pc, ?_⟩
  intro j earlier other member
  cases j with
  | zero =>
    cases member
    exact rejects
  | succ j =>
    rw [accepts_succ]
    exact before j (Nat.lt_of_succ_lt_succ earlier) other member

theorem rejects_cons (here : ¬ Accepts estr str ne 0 e) (rejects : Rejects estr str (ne - 1) rest) :
    Rejects estr str ne (e :: rest) := by
  intro j other member
  cases j with
  | zero =>
    cases member
    exact here
  | succ j =>
    rw [accepts_succ]
    exact rejects j other member

theorem accepts_zero (ne : Int) (e : Except) : Accepts estr str ne 0 e ↔
    (ematch e.s estr && (str && decide (ne ≤ 0) || !str && decide (0 < ne))) = true ∧
      e.pc ≠ none := by
  have kind : (str && decide (ne ≤ 0) || !str && decide (0 < ne)) = true ↔
      (str = true ↔ ne ≤ ((0 : Nat) : Int)) := by
    cases str with
    | true => simp
    | false => simp
  rw [Bool.and_eq_true, ematch_iff, kind]
  constructor
  · rintro ⟨text, kind, reached⟩
    exact ⟨⟨text, kind⟩, reached⟩
  · rintro ⟨⟨text, kind⟩, reached⟩
    exact ⟨text, kind, reached⟩

theorem clause_spec (etab : List Except) : ∀ ne : Int,
    match clause estr str ne etab with
    | some target => Selects estr str ne etab target
    | none => Rejects estr str ne etab := by
  induction etab with
  | nil => exact fun ne j e' member => absurd member (by simp)
  | cons e rest ih =>
    intro ne
    have later := ih (ne - 1)
    have onward (rejects : ¬ Accepts estr str ne 0 e) :
        match clause estr str (ne - 1) rest with
        | some target => Selects estr str ne (e :: rest) target
        | none => Rejects estr str ne (e :: rest) := by
      cases found : clause estr str (ne - 1) rest with
      | some _ =>
        rw [found] at later
        exact selects_cons rejects later
      | none =>
        rw [found] at later
        exact rejects_cons rejects later
    unfold clause
    by_cases takes : (ematch e.s estr &&
        (str && decide (ne ≤ 0) || !str && decide (0 < ne))) = true
    · rw [if_pos takes]
      cases pc : e.pc with
      | some _ =>
        have reached : e.pc ≠ none := by
          rw [pc]
          nofun
        exact selects_cons_of_accepts ((accepts_zero ne e).2 ⟨takes, reached⟩) pc
      | none => exact onward fun accepts => accepts.reached pc
    · rw [if_neg takes]
      exact onward fun accepts => takes ((accepts_zero ne e).1 accepts).1

end Clauses

/-! ### Handlers -/

/-- The handler takes the exception at the pc, and resumes there. -/
structure Guards (estr : Str) (str : Bool) (pc : Nat) (h : Handler) (target : Nat) : Prop where
  low : h.pc1 ≤ pc
  high : pc < h.pc2
  selects : Selects estr str h.ne h.etab target ∨
    (Rejects estr str h.ne h.etab ∧ h.dflt = some target)

def Takes (estr : Str) (str : Bool) (pc : Nat) (htab : List Handler) (h : Handler)
    (target : Nat) : Prop :=
  ∃ front back, htab = front ++ h :: back ∧ Guards estr str pc h target ∧
    ∀ h' ∈ front, ∀ target', ¬ Guards estr str pc h' target'

def Passes (estr : Str) (str : Bool) (pc : Nat) (htab : List Handler) : Prop :=
  ∀ h ∈ htab, ∀ target, ¬ Guards estr str pc h target

section Scans

variable {estr : Str} {str : Bool} {pc : Nat}

theorem selects_not_rejects {etab : List Except} (selects : Selects estr str ne etab target) :
    ¬ Rejects estr str ne etab := by
  obtain ⟨i, e, is, accepts, -, -⟩ := selects
  exact fun rejects => rejects i e is accepts

theorem newpc_spec (h : Handler) :
    match newpc estr str h with
    | some target => Selects estr str h.ne h.etab target ∨
        (Rejects estr str h.ne h.etab ∧ h.dflt = some target)
    | none => Rejects estr str h.ne h.etab ∧ h.dflt = none := by
  have clauses := @clause_spec estr str h.etab h.ne
  unfold newpc
  cases found : clause estr str h.ne h.etab with
  | some _ =>
    rw [found] at clauses
    exact Or.inl clauses
  | none =>
    rw [found] at clauses
    cases dflt : h.dflt with
    | some _ => exact Or.inr ⟨clauses, rfl⟩
    | none => exact ⟨clauses, rfl⟩

theorem takes_cons {h' : Handler} {rest : List Handler}
    (passes : ∀ target', ¬ Guards estr str pc h' target') (takes : Takes estr str pc rest h target)
    : Takes estr str pc (h' :: rest) h target := by
  obtain ⟨front, back, rfl, guards, before⟩ := takes
  refine ⟨h' :: front, back, rfl, guards, ?_⟩
  intro other member
  rcases mem_cons.1 member with rfl | inside
  · exact passes
  · exact before other inside

theorem passes_cons {rest : List Handler} (here : ∀ target, ¬ Guards estr str pc h target)
    (passes : Passes estr str pc rest) : Passes estr str pc (h :: rest) := by
  intro other member
  rcases mem_cons.1 member with rfl | inside
  · exact here
  · exact passes other inside

theorem scan_spec (htab : List Handler) :
    match scan estr str pc htab with
    | some (h, target) => Takes estr str pc htab h target
    | none => Passes estr str pc htab := by
  induction htab with
  | nil => exact fun h member => absurd member not_mem_nil
  | cons h rest ih =>
    have onward (passes : ∀ target, ¬ Guards estr str pc h target) :
        match scan estr str pc rest with
        | some (h', target) => Takes estr str pc (h :: rest) h' target
        | none => Passes estr str pc (h :: rest) := by
      cases found : scan estr str pc rest with
      | some _ =>
        rw [found] at ih
        exact takes_cons passes ih
      | none =>
        rw [found] at ih
        exact passes_cons passes ih
    unfold scan
    by_cases outside : pc < h.pc1 ∨ h.pc2 ≤ pc
    · rw [if_pos outside]
      apply onward
      intro target guards
      have low := guards.low
      have high := guards.high
      omega
    rw [if_neg outside]
    have newpc := @newpc_spec estr str h
    cases found : Exception.newpc estr str h with
    | some _ =>
      rw [found] at newpc
      refine ⟨[], rest, rfl, ⟨by omega, by omega, newpc⟩, nofun⟩
    | none =>
      rw [found] at newpc
      apply onward
      intro _ guards
      rcases guards.selects with selects | ⟨-, dflt⟩
      · exact selects_not_rejects selects newpc.1
      · rw [newpc.2] at dflt
        cases dflt

end Scans

/-! ### Frames -/

def places (m pc : Nat) : List Frame → List (Nat × Nat)
  | [] => []
  | f :: rest => (m, pc) :: places (f.mr.getD m) (dec f.lr) rest

/-- How an exception is seen in a frame: `false` is as itself. In the frame that raised it and, at
first, in the caller of that frame a user-defined exception is seen as itself. -/
def seen (top str : Bool) : Nat → List Bool
  | 0 => if str then [true] else if top then [false] else [false, true]
  | i + 1 => seen false (str || !top) i

/-- The innermost handler that takes the exception: that of the frame number `k`, where the
exception is seen as `v`. -/
structure Innermost (htab : Nat → List Handler) (estr : Str) (views : Nat → List Bool)
    (at_ : List (Nat × Nat)) (k : Nat) (v : Bool) (h : Handler) (target : Nat) : Prop where
  place : ∃ m pc, at_[k]? = some (m, pc) ∧ Takes estr v pc (htab m) h target ∧
    (v = true → false ∈ views k → Passes estr false pc (htab m))
  view : v ∈ views k
  inner : ∀ j < k, ∀ m pc, at_[j]? = some (m, pc) → ∀ v ∈ views j, Passes estr v pc (htab m)

def Unhandled (htab : Nat → List Handler) (estr : Str) (views : Nat → List Bool)
    (at_ : List (Nat × Nat)) : Prop :=
  ∀ j m pc, at_[j]? = some (m, pc) → ∀ v ∈ views j, Passes estr v pc (htab m)

variable {f : Frame} {sp ts ex : Nat}

section Looks

variable {htab : Nat → List Handler} {estr : Str}

theorem Innermost.cons {views views' : Nat → List Bool} {at_ : List (Nat × Nat)} {k m pc : Nat}
    {v : Bool} {h : Handler} {target : Nat} (shift : ∀ i, views' (i + 1) = views i)
    (passes : ∀ v ∈ views' 0, Passes estr v pc (htab m))
    (innermost : Innermost htab estr views at_ k v h target) :
    Innermost htab estr views' ((m, pc) :: at_) (k + 1) v h target where
  place := by
    rw [shift]
    exact innermost.place
  view := by
    rw [shift]
    exact innermost.view
  inner := by
    intro j before m' pc' is
    cases j with
    | zero =>
      cases is
      exact passes
    | succ j =>
      rw [shift]
      exact innermost.inner j (Nat.lt_of_succ_lt_succ before) m' pc' is

theorem Unhandled.cons {views views' : Nat → List Bool} {at_ : List (Nat × Nat)} {m pc : Nat}
    (shift : ∀ i, views' (i + 1) = views i)
    (passes : ∀ v ∈ views' 0, Passes estr v pc (htab m))
    (unhandled : Unhandled htab estr views at_) :
    Unhandled htab estr views' ((m, pc) :: at_) := by
  intro j m' pc' is
  cases j with
  | zero =>
    cases is
    exact passes
  | succ j =>
    rw [shift]
    exact unhandled j m' pc' is

def Finds (htab : Nat → List Handler) (estr : Str) (views : Nat → List Bool) (m pc : Nat)
    (frames : List Frame) (search : Search) : Prop :=
  match search.found with
  | some (f, h, target) => ∃ k, frames[k]? = some f ∧
      Innermost htab estr views (places m pc frames) k search.str h target
  | none => Unhandled htab estr views (places m pc frames)

theorem Finds.cons {views views' : Nat → List Bool} {m pc : Nat} {f : Frame} {rest : List Frame}
    {search : Search} (shift : ∀ i, views' (i + 1) = views i)
    (passes : ∀ v ∈ views' 0, Passes estr v pc (htab m))
    (finds : Finds htab estr views (f.mr.getD m) (dec f.lr) rest search) :
    Finds htab estr views' m pc (f :: rest) search := by
  unfold Finds at finds ⊢
  cases found : search.found with
  | some _ =>
    rw [found] at finds
    have ⟨k, is, innermost⟩ := finds
    exact ⟨k + 1, is, innermost.cons shift passes⟩
  | none =>
    rw [found] at finds
    exact finds.cons shift passes

theorem finds_here {views : Nat → List Bool} {m pc : Nat} {rest : List Frame} {v : Bool}
    (view : v ∈ views 0) (takes : Takes estr v pc (htab m) h target)
    (first : v = true → false ∈ views 0 → Passes estr false pc (htab m)) :
    Finds htab estr views m pc (f :: rest) ⟨some (f, h, target), v⟩ :=
  ⟨0, rfl, ⟨m, pc, rfl, takes, first⟩, view, fun _ before => absurd before (Nat.not_lt_zero _)⟩

theorem look_finds (frames : List Frame) : ∀ top str m pc,
    Finds htab estr (seen top str) m pc frames (look htab estr top str m pc frames) := by
  induction frames with
  | nil => exact fun top str m pc j m' pc' is => absurd is (by simp [places])
  | cons _ _ ih =>
    intro top str m pc
    have here := @scan_spec estr str pc (htab m)
    have shift (i : Nat) : seen top str (i + 1) = seen false (str || !top) i := rfl
    unfold look
    cases found : scan estr str pc (htab m) with
    | some _ =>
      rw [found] at here
      apply finds_here ?_ here
      · intro isString inViews
        unfold seen at inViews
        rw [if_pos isString] at inViews
        simp at inViews
      unfold seen
      cases str with
      | true => simp
      | false =>
        cases top with
        | true => simp
        | false => simp
    | none =>
      rw [found] at here
      simp only
      cases str with
      | true =>
        simp only [Bool.not_true, Bool.false_and, Bool.false_eq_true, if_false]
        apply (ih false true _ _).cons shift
        intro v view
        rw [show v = true by simpa [seen] using view]
        exact here
      | false =>
        cases top with
        | true =>
          simp only [Bool.not_true, Bool.and_false, Bool.false_eq_true, if_false]
          apply (ih false false _ _).cons shift
          intro v view
          rw [show v = false by simpa [seen] using view]
          exact here
        | false =>
          simp only [Bool.not_false, Bool.and_true, if_true]
          have again := @scan_spec estr true pc (htab m)
          cases foundAgain : scan estr true pc (htab m) with
          | some _ =>
            rw [foundAgain] at again
            exact finds_here (by simp [seen]) again fun _ _ => here
          | none =>
            rw [foundAgain] at again
            apply (ih false true _ _).cons shift
            intro v _
            cases v with
            | true => exact again
            | false => exact here

end Looks

/-! ### Stacks -/

/-- Frames that lie one after another in the pieces of a stack, as `frame` and `extend` put them
there; the registers are those after the first. -/
inductive Stacked : Nat → Nat → Nat → List Frame → Prop where
  | base {f : Frame} {sx : Stkext} {ts ex : Nat} (type : f.t = .first sx)
      (address : f.addr = ex + OATOS) (inside : f.addr < ts) (size : 0 < sx.TR.size) :
      Stacked (f.addr + sx.TR.size) ts ex [f]
  | same {f g : Frame} {rest : List Frame} {t : Ty} {ts ex : Nat}
      (below : Stacked f.addr ts ex (g :: rest)) (type : f.t = .own t) (size : 0 < t.size)
      (inside : f.addr + t.size < ts) : Stacked (f.addr + t.size) ts ex (f :: g :: rest)
  | piece {f g : Frame} {rest : List Frame} {sx : Stkext} {ts ex : Nat}
      (below : Stacked sx.SP sx.TS sx.EX (g :: rest)) (type : f.t = .first sx)
      (address : f.addr = ex + OATOS) (inside : f.addr < ts) (size : 0 < sx.TR.size)
      (apart : ∀ g' ∈ g :: rest, g'.addr < ex ∨ ts ≤ g'.addr) :
      Stacked (f.addr + sx.TR.size) ts ex (f :: g :: rest)

section Stacks

variable {sp ts ex : Nat} {f g : Frame} {rest frames : List Frame}

theorem Stacked.head (stacked : Stacked sp ts ex (f :: rest)) :
    sp = f.addr + (FRTYPE f).size ∧ 0 < (FRTYPE f).size ∧ ex ≤ f.addr ∧ f.addr < ts := by
  generalize shape : f :: rest = frames at stacked
  induction stacked generalizing f rest with
  | base type _ inside size =>
    cases shape
    unfold FRTYPE
    rw [type]
    exact ⟨rfl, size, by omega, inside⟩
  | same _ type size _ ih =>
    cases shape
    have lower := ih rfl
    unfold FRTYPE
    rw [type]
    exact ⟨rfl, size, by omega, by omega⟩
  | piece _ type _ inside size _ _ =>
    cases shape
    unfold FRTYPE
    rw [type]
    exact ⟨rfl, size, by omega, inside⟩

theorem Stacked.below_top (stacked : Stacked sp ts ex frames) :
    ∀ g ∈ frames, ex ≤ g.addr → g.addr < ts → g.addr < sp := by
  induction stacked with
  | base _ _ _ _ =>
    intro g member low high
    rw [mem_singleton.1 member]
    omega
  | same _ _ _ _ ih =>
    intro g member low high
    rcases mem_cons.1 member with rfl | member
    · omega
    · have lower := ih g member low high
      omega
  | piece _ _ _ _ _ apart _ =>
    intro g member _ _
    rcases mem_cons.1 member with rfl | member
    · omega
    · have outside := apart g member
      omega

theorem Stacked.nodup (stacked : Stacked sp ts ex frames) : (frames.map Frame.addr).Nodup := by
  induction stacked with
  | base _ _ _ _ => exact nodup_singleton _
  | same below _ _ _ ih =>
    rw [map_cons, nodup_cons]
    refine ⟨?_, ih⟩
    intro member
    obtain ⟨g', inFrames, same⟩ := mem_map.1 member
    have lower := below.head
    have under := below.below_top g' inFrames (by omega) (by omega)
    omega
  | piece _ _ _ _ _ apart ih =>
    rw [map_cons, nodup_cons]
    refine ⟨?_, ih⟩
    intro member
    obtain ⟨g', inFrames, _⟩ := mem_map.1 member
    have outside := apart g' inFrames
    omega

end Stacks

/-- The stack of a process: its frames, and over them the one that is not called yet. -/
structure Laid (s : State) : Prop where
  some : s.frames ≠ []
  stacked : Stacked s.SP s.TS s.EX (s.above.toList ++ s.frames)

/-! ### Unwinding -/

def releases : Nat → List Frame → List Event
  | _, [] => []
  | m, f :: rest =>
    .frame f.addr :: freeptrs f (FRTYPE f) ++ (if f.mr.isSome then [.unlink m] else []) ++
      releases (f.mr.getD m) rest

def moduleUnder (m : Nat) (frames : List Frame) : Nat := frames.foldl (fun m f => f.mr.getD m) m

theorem places_under {f : Frame} {rest : List Frame} (front : List Frame) : ∀ m pc, ∃ pc',
    (places m pc (front ++ f :: rest))[front.length]? = some (moduleUnder m front, pc') := by
  induction front with
  | nil => exact fun m pc => ⟨pc, rfl⟩
  | cons _ _ ih => exact fun m pc => ih _ _

/-- All but the stack and the events is as it was. -/
structure Keeps (s t : State) : Prop where
  htab : t.htab = s.htab
  exval : t.exval = s.exval

section Unwinds

variable {s t : State} {f g : Frame} {rest : List Frame}

theorem freed_spec (f : Frame) (s : State) : Keeps s (freed f s) ∧
    (freed f s).frames = s.frames ∧ (freed f s).above = s.above ∧ (freed f s).M = s.M ∧
      (freed f s).trace = s.trace ++ (.frame f.addr :: freeptrs f (FRTYPE f)) := by
  unfold freed
  cases f.t with
  | own _ => exact ⟨⟨rfl, rfl⟩, rfl, rfl, rfl, rfl⟩
  | first _ => exact ⟨⟨rfl, rfl⟩, rfl, rfl, rfl, rfl⟩

theorem stacked_freed (stacked : Stacked sp ts ex (f :: g :: rest)) (top : s.SP = f.addr)
    (limit : s.TS = ts) (piece : s.EX = ex) :
    Stacked (freed f s).SP (freed f s).TS (freed f s).EX (g :: rest) := by
  unfold freed
  cases stacked with
  | same below type _ _ =>
    rw [type]
    show Stacked s.SP s.TS s.EX (g :: rest)
    rw [top, limit, piece]
    exact below
  | piece below type _ _ _ _ =>
    rw [type]
    exact below

/-- What is left when a frame that is not called has gone. -/
structure Cleared (s t : State) : Prop extends Keeps s t where
  frames : t.frames = s.frames
  above : t.above = none
  module : t.M = s.M
  stacked : Stacked t.SP t.TS t.EX s.frames
  trace : t.trace = s.trace ++
    s.above.elim [] fun u => .frame u.addr :: freeptrs u (FRTYPE u)

theorem cleared_freeframe {u : Frame} {fp : Nat} {setsp : Bool} (is : s.above = some u)
    (address : u.addr = fp)
    (stacked : Stacked (if setsp then fp else (freed u s).SP) (freed u s).TS (freed u s).EX
      s.frames) : Cleared s (freeframe s fp setsp) := by
  obtain ⟨keeps, frames, -, module, trace⟩ := freed_spec u s
  have events : s.trace ++ (.frame u.addr :: freeptrs u (FRTYPE u)) = s.trace ++
      s.above.elim [] fun u => .frame u.addr :: freeptrs u (FRTYPE u) := by
    rw [is]
    rfl
  unfold freeframe
  rw [is]
  simp only
  rw [if_pos address]
  cases setsp with
  | true =>
    rw [if_pos rfl]
    exact ⟨⟨keeps.htab, keeps.exval⟩, frames, rfl, module, stacked, trace.trans events⟩
  | false =>
    rw [if_neg nofun]
    exact ⟨⟨keeps.htab, keeps.exval⟩, frames, rfl, module, stacked, trace.trans events⟩

theorem Laid.freeuncalled (laid : Laid s) : Cleared s (Exception.freeuncalled s) := by
  have ⟨f, rest, frames⟩ := exists_cons_of_ne_nil laid.some
  have stacked := laid.stacked
  cases above : s.above with
  | none =>
    rw [above, frames] at stacked
    have top := stacked.head
    have here : Exception.freeuncalled s = s := by
      unfold Exception.freeuncalled
      rw [frames]
      simp only
      rw [if_neg (by omega), if_neg (by omega)]
    rw [here]
    refine ⟨⟨rfl, rfl⟩, rfl, above, rfl, ?_, ?_⟩
    · rw [frames]
      exact stacked
    · rw [above]
      exact (append_nil _).symm
  | some u =>
    rw [above, frames] at stacked
    generalize spIs : s.SP = sp at stacked
    generalize tsIs : s.TS = ts at stacked
    generalize exIs : s.EX = ex at stacked
    cases stacked with
    | same below type _ _ =>
      have top := below.head
      have here : Exception.freeuncalled s = freeframe s u.addr true := by
        unfold Exception.freeuncalled
        rw [frames]
        simp only
        rw [if_neg (by omega), if_pos (by omega), ← top.1]
      rw [here]
      apply cleared_freeframe above rfl
      rw [frames]
      unfold freed
      rw [type]
      show Stacked u.addr s.TS s.EX (f :: rest)
      rw [tsIs, exIs]
      exact below
    | piece below type _ _ _ apart =>
      have outside := apart f (mem_cons_self ..)
      have here : Exception.freeuncalled s = freeframe s (s.EX + OATOS) false := by
        unfold Exception.freeuncalled
        rw [frames]
        simp only
        rw [if_pos (by omega)]
      rw [here]
      apply cleared_freeframe above (by omega)
      rw [frames]
      unfold freed
      rw [type]
      exact below

/-- What is left when the frames in front have gone. -/
structure Unwound (s t : State) (front back : List Frame) : Prop extends Keeps s t where
  frames : t.frames = back
  above : t.above = s.above
  module : t.M = moduleUnder s.M front
  stacked : Stacked t.SP t.TS t.EX back
  trace : t.trace = s.trace ++ releases s.M front

theorem pop_spec (stacked : Stacked s.SP s.TS s.EX (f :: g :: rest)) :
    Unwound s (pop f (g :: rest) s) [f] (g :: rest) := by
  let lowered : State := { s with PC := f.lr, SP := f.addr, frames := g :: rest }
  have ⟨keeps, frames, above, module, trace⟩ := freed_spec f lowered
  have piece : Stacked (freed f lowered).SP (freed f lowered).TS (freed f lowered).EX (g :: rest) :=
    stacked_freed stacked rfl rfl rfl
  unfold pop
  cases crosses : f.mr with
  | none =>
    refine ⟨⟨keeps.htab, keeps.exval⟩, frames, above, ?_, piece, ?_⟩
    · unfold moduleUnder
      rw [foldl_cons, crosses]
      exact module
    unfold releases releases
    rw [crosses, trace]
    simp
    rfl
  | some _ =>
    refine ⟨⟨keeps.htab, keeps.exval⟩, frames, above, ?_, piece, ?_⟩
    · unfold moduleUnder
      rw [foldl_cons, crosses]
      rfl
    show (freed f lowered).trace ++ [.unlink (freed f lowered).M] = _
    unfold releases releases
    rw [crosses, trace, module]
    simp
    rfl

theorem unwound_unwind {f : Frame} {rest : List Frame} (front : List Frame) : ∀ s : State,
    s.frames = front ++ f :: rest → Stacked s.SP s.TS s.EX (front ++ f :: rest) →
      Unwound s (unwind f.addr (front ++ f :: rest) s) front (f :: rest) := by
  induction front with
  | nil =>
    intro s frames stacked
    have stops : unwind f.addr ([] ++ f :: rest) s = s := by
      rw [nil_append]
      unfold unwind
      exact if_pos rfl
    rw [stops]
    exact ⟨⟨rfl, rfl⟩, frames, rfl, rfl, stacked, (append_nil _).symm⟩
  | cons g front ih =>
    intro s _ stacked
    have distinct := stacked.nodup
    have goes : unwind f.addr (g :: front ++ f :: rest) s =
        unwind f.addr (front ++ f :: rest) (pop g (front ++ f :: rest) s) := by
      rw [cons_append]
      apply if_neg
      intro same
      rw [cons_append, map_cons, nodup_cons] at distinct
      apply distinct.1
      rw [same]
      exact mem_map_of_mem (by simp)
    rw [goes]
    obtain ⟨next, more, shape⟩ : ∃ next more, front ++ f :: rest = next :: more := by
      cases front with
      | nil => exact ⟨f, rest, rfl⟩
      | cons h _ => exact ⟨h, _, rfl⟩
    rw [cons_append, shape] at stacked
    have popped := pop_spec stacked
    rw [← shape] at popped
    have later := ih _ popped.frames popped.stacked
    refine ⟨⟨later.htab.trans popped.htab, later.exval.trans popped.exval⟩, later.frames,
      later.above.trans popped.above, ?_, later.stacked, ?_⟩
    · rw [later.module, popped.module]
      rfl
    · rw [later.trace, popped.trace, popped.module, append_assoc]
      congr 1
      simp [releases, moduleUnder]

end Unwinds

/-! ### The handler -/

/-- What the exception is where it is seen as `v`: as a string, a user-defined one is its name. -/
def carried (v : Bool) : Option Exval → Option Exval
  | some (.user r name) => if v then some (.string name) else some (.user r name)
  | exval => exval

/-- What becomes of a user-defined exception that is seen as a string. -/
def conversion (v : Bool) : Option Exval → List Event
  | some (.user r name) => if v then [.incref name, .destroy (.ref r)] else []
  | _ => []

def drops (exval : Option Exval) : List Event :=
  exval.elim [] fun ex => [.destroy (.ref (exref ex))]

def takesOver (f : Frame) (h : Handler) (exval : Option Exval) : List Event :=
  h.t.elim [] (freeptrs f) ++ destroys (reset f.vars h.t h.eoff) ++
    (exval.elim [] fun ex => [.incref (exref ex), .destroy (.ref (exref ex))])

/-- The process goes on in the frame number `k`, where the exception is seen as `v`. -/
structure Resumes (s : State) (estr : Str) (k : Nat) (v : Bool) (h : Handler) (target : Nat)
    (t : State) : Prop where
  laid : Laid t
  above : t.above = none
  pc : t.PC = target
  htab : t.htab = s.htab
  module : ∃ pc, (places s.M (dec s.PC) s.frames)[k]? = some (t.M, pc)
  exval : t.exval = none
  frames : ∃ f, s.frames[k]? = some f ∧
    t.frames = { f with vars := fun p =>
      if p = h.eoff then value estr (carried v s.exval) else reset f.vars h.t p } ::
        s.frames.drop (k + 1) ∧
    t.trace = s.trace ++ conversion v s.exval ++
      (s.above.elim [] fun u => .frame u.addr :: freeptrs u (FRTYPE u)) ++
      releases s.M (s.frames.take k) ++ takesOver f h (carried v s.exval)

/-- The process keeps its stack and its registers. -/
structure Stays (s t : State) : Prop where
  registers : t.PC = s.PC ∧ t.SP = s.SP ∧ t.TS = s.TS ∧ t.EX = s.EX ∧ t.M = s.M
  frames : t.frames = s.frames
  above : t.above = s.above
  htab : t.htab = s.htab
  exval : t.exval = none
  trace : ∃ v, t.trace = s.trace ++ conversion v s.exval ++ drops (carried v s.exval)

/-- What an exception comes to, with the views of it in the frames. -/
inductive Settles (views : Nat → List Bool) (s : State) (estr : Str) : Bool × State → Prop where
  | silent (empty : estr = []) : Settles views s estr (false, s)
  | taken {k : Nat} {v : Bool} {h : Handler} {target : Nat} {t : State}
      (innermost : Innermost s.htab estr views (places s.M (dec s.PC) s.frames) k v h target)
      (resumes : Resumes s estr k v h target t) (raised : estr ≠ []) :
      Settles views s estr (true, t)
  | lost {t : State} (unhandled : Unhandled s.htab estr views (places s.M (dec s.PC) s.frames))
      (stays : Stays s t) (raised : estr ≠ []) : Settles views s estr (false, t)

section Handlers

variable {s t : State} {estr : Str}

def searched (v : Bool) (s : State) : State := if v && !isString s.exval then convert s else s

theorem searched_eq (v : Bool) (s : State) : searched v s =
    { s with exval := carried v s.exval, trace := s.trace ++ conversion v s.exval } := by
  unfold searched convert
  cases is : s.exval with
  | none =>
    rw [if_neg (by simp [isString])]
    show s = { s with exval := none, trace := s.trace ++ [] }
    rw [append_nil, ← is]
  | some exval =>
    cases exval with
    | string r =>
      rw [if_neg (by simp [isString])]
      show s = { s with exval := some (.string r), trace := s.trace ++ [] }
      rw [append_nil, ← is]
    | user r name =>
      cases v with
      | true =>
        rw [if_pos (by simp [isString])]
        rfl
      | false =>
        rw [if_neg (by simp)]
        show s = { s with exval := some (.user r name), trace := s.trace ++ [] }
        rw [append_nil, ← is]

theorem Stacked.vars {rest : List Frame} (vars : Nat → Val)
    (stacked : Stacked sp ts ex (f :: rest)) :
    Stacked sp ts ex ({ f with vars := vars } :: rest) := by
  cases stacked with
  | base type address inside size =>
    exact Stacked.base (f := { f with vars := vars }) type address inside size
  | same below type size inside =>
    exact Stacked.same (f := { f with vars := vars }) below type size inside
  | piece below type address inside size apart =>
    exact Stacked.piece (f := { f with vars := vars }) below type address inside size apart

/-- The stack unwound down to the frame number `k`, which takes the exception. -/
theorem resumes_resume {k target : Nat} {v : Bool} {h : Handler} {f : Frame} (laid : Laid s)
    (is : s.frames[k]? = some f)
    (unwinds : t = unwind f.addr (searched v s).frames (freeuncalled (searched v s))) :
    t.frames = f :: s.frames.drop (k + 1) ∧
      Resumes s estr k v h target (resume t f (s.frames.drop (k + 1)) h target estr) := by
  have ⟨inside, at_⟩ := List.getElem?_eq_some_iff.1 is
  have split : s.frames = s.frames.take k ++ f :: s.frames.drop (k + 1) := by
    rw [← at_, ← drop_eq_getElem_cons inside, take_append_drop]
  have length : (s.frames.take k).length = k := length_take_of_le (Nat.le_of_lt inside)
  rw [searched_eq] at unwinds
  let before : State :=
    { s with exval := carried v s.exval, trace := s.trace ++ conversion v s.exval }
  have cleared : Cleared before (freeuncalled before) :=
    Laid.freeuncalled ⟨laid.some, laid.stacked⟩
  have unwound :
      Unwound (freeuncalled before) t (s.frames.take k) (f :: s.frames.drop (k + 1)) := by
    have whole : t = unwind f.addr (s.frames.take k ++ f :: s.frames.drop (k + 1))
        (freeuncalled before) :=
      unwinds.trans (congrArg (fun frames => unwind f.addr frames (freeuncalled before)) split)
    rw [whole]
    apply unwound_unwind
    · exact cleared.frames.trans split
    · rw [← split]
      exact cleared.stacked
  have exval : t.exval = carried v s.exval := unwound.exval.trans cleared.exval
  refine ⟨unwound.frames, ⟨nofun, ?_⟩, ?_, rfl, ?_, ?_, rfl, f, is, ?_, ?_⟩
  · show Stacked t.SP t.TS t.EX (t.above.toList ++ _)
    rw [unwound.above.trans cleared.above]
    exact unwound.stacked.vars _
  · exact unwound.above.trans cleared.above
  · exact unwound.htab.trans cleared.htab
  · have ⟨pc, place⟩ :=
      @places_under f (s.frames.drop (k + 1)) (s.frames.take k) s.M (dec s.PC)
    rw [← split, length] at place
    refine ⟨pc, ?_⟩
    rw [place]
    show _ = some (t.M, pc)
    rw [unwound.module, cleared.module]
  · rw [← exval]
    rfl
  · have events : t.trace = s.trace ++ conversion v s.exval ++
        (s.above.elim [] fun u => .frame u.addr :: freeptrs u (FRTYPE u)) ++
        releases s.M (s.frames.take k) := by
      rw [unwound.trace, cleared.trace, cleared.module]
    rw [← events, ← exval]
    rfl

theorem stays_emit (v : Bool) (s : State) :
    Stays s { emit (searched v s) (drops (searched v s).exval) with exval := none } := by
  rw [searched_eq]
  exact ⟨⟨rfl, rfl, rfl, rfl, rfl⟩, rfl, rfl, rfl, rfl, v, rfl⟩

theorem handler_settles (laid : Laid s) :
    Settles (seen true (isString s.exval)) s estr (handler s estr) := by
  by_cases raised : estr = []
  · unfold handler
    rw [if_pos raised]
    exact Settles.silent raised
  have finds := @look_finds s.htab estr s.frames true (isString s.exval) s.M (dec s.PC)
  unfold handler
  rw [if_neg raised]
  simp only
  generalize look s.htab estr true (isString s.exval) s.M (dec s.PC) s.frames = search at finds ⊢
  unfold Finds at finds
  have same : (if (search.str && !isString s.exval) = true then convert s else s) =
      searched search.str s := rfl
  rw [same]
  cases found : search.found with
  | none =>
    rw [found] at finds
    exact Settles.lost finds (stays_emit search.str s) raised
  | some triple =>
    rw [found] at finds
    have ⟨f, h, target⟩ := triple
    have ⟨k, is, innermost⟩ := finds
    have ⟨frames, resumes⟩ :=
      @resumes_resume s _ estr k target search.str h f laid is rfl
    simp only
    rw [frames]
    exact Settles.taken innermost resumes raised

end Handlers

/-! ### A declared exception in the immediate caller -/

/-- The views where a user-defined exception is itself only in the frame that raised it. -/
def seenOnce (str : Bool) : Nat → List Bool
  | 0 => [str]
  | _ + 1 => [true]

/-- A function that raises an exception and its caller, which declares it. -/
def declared : State where
  htab := fun m => if m = 0 then [⟨8, 12, 40, 1, none, [⟨[69], some 20⟩], none⟩] else []
  PC := 2
  SP := 196
  TS := 4096
  EX := 0
  M := 1
  frames := [⟨132, 11, some 0, .own ⟨64, []⟩, fun _ => .nil⟩,
    ⟨32, 0, none, .first ⟨⟨100, []⟩, 0, 0, 0⟩, fun _ => .nil⟩]
  above := none
  exval := some (.user 1 2)
  trace := []

theorem declared_laid : Laid declared := by
  let caller : Frame := ⟨32, 0, none, .first ⟨⟨100, []⟩, 0, 0, 0⟩, fun _ => .nil⟩
  let callee : Frame := ⟨132, 11, some 0, .own ⟨64, []⟩, fun _ => .nil⟩
  have base : Stacked 132 4096 0 [caller] :=
    @Stacked.base caller ⟨⟨100, []⟩, 0, 0, 0⟩ 4096 0 rfl rfl (by decide) (by decide)
  refine ⟨nofun, ?_⟩
  exact @Stacked.same callee caller [] ⟨64, []⟩ 4096 0 base rfl (by decide) (by decide)

theorem declared_passes (estr : Str) (pc : Nat) : Passes estr true pc (declared.htab 0) := by
  intro _ member _ guards
  rw [mem_singleton.1 member] at guards
  rcases guards.selects with ⟨i, e, is, accepts, -, -⟩ | ⟨-, dflt⟩
  · cases i with
    | zero =>
      have late := accepts.kind.1 rfl
      exact absurd late (by decide)
    | succ _ => exact absurd is (by simp)
  · cases dflt

theorem handler_settles_declared :
    Settles (seen true (isString declared.exval)) declared [69] (handler declared [69]) :=
  handler_settles declared_laid

theorem not_settles_seenOnce :
    ¬ ∀ s estr, Laid s → Settles (seenOnce (isString s.exval)) s estr (handler s estr) := by
  intro all
  have settles := all declared [69] declared_laid
  have taken : (handler declared [69]).1 = true := by decide
  have left : (handler declared [69]).2.frames.length = 1 := by decide
  generalize handler declared [69] = result at settles taken left
  cases settles with
  | silent _ => cases taken
  | lost _ _ _ => cases taken
  | @taken k v h target t innermost resumes raised =>
    obtain ⟨_, is, frames, -⟩ := resumes.frames
    have one : k = 1 := by
      have inside := (List.getElem?_eq_some_iff.1 is).1
      have count := congrArg List.length frames
      rw [List.length_cons, List.length_drop] at count
      have two : declared.frames.length = 2 := rfl
      have left : t.frames.length = 1 := left
      omega
    subst one
    obtain ⟨m, pc, place, ⟨front, back, table, guards, -⟩, -⟩ := innermost.place
    have view : v = true := List.mem_singleton.1 innermost.view
    subst view
    have caller : m = 0 := by
      have first : (places declared.M (dec declared.PC) declared.frames)[1]? = some (0, 10) := rfl
      rw [first] at place
      cases place
      rfl
    subst caller
    exact declared_passes [69] pc h (by rw [table]; simp) target guards

end Infernode.Exception
