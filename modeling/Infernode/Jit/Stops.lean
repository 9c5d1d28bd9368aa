import Infernode.Jit.Tables

/-!
Where a compilation stops.

Owns: what a compilation has done of its passes at each point at which it fails, and that it ends
there or, where it fails at none, with all of them done.
-/

namespace Infernode.Jit

open Program Runs List

/-! ### How far -/

/-- How many instructions the passes have done, and how many links have their pcs. -/
structure Cut where
  marked : Nat
  relocated : Nat
  linked : Nat

def Point.Late : Point → Prop
  | .before .one _ => True
  | .behind .one _ => True
  | .phase _ => True
  | .macros .one => True
  | .frame _ => True
  | .types => True
  | _ => False

def Point.Last : Point → Prop
  | .frame _ => True
  | .types => True
  | _ => False

namespace Compilation

variable (c : Compilation)

def cut (links : Nat) : Point → Cut
  | .nojit => ⟨0, 0, 0⟩
  | .memory => ⟨0, 0, 0⟩
  | .preamble => ⟨0, 0, 0⟩
  | .before .zero i => ⟨i, 0, 0⟩
  | .behind .zero i => ⟨i + 1, 0, 0⟩
  | .macros .zero => ⟨c.text.length, 0, 0⟩
  | .code => ⟨c.text.length, 0, 0⟩
  | .before .one i => ⟨c.text.length, i, 0⟩
  | .behind .one i => ⟨c.text.length, i + 1, 0⟩
  | .phase i => ⟨c.text.length, i + 1, 0⟩
  | .macros .one => ⟨c.text.length, c.text.length, 0⟩
  | .frame i => ⟨c.text.length, c.text.length, i + 1⟩
  | .types => ⟨c.text.length, c.text.length, links⟩

def Has (links : Nat) : Point → Prop
  | .before _ i => i < c.text.length
  | .behind _ i => i < c.text.length
  | .phase i => i < c.text.length
  | .frame i => i < links
  | _ => True

def withmarks (m : Module) (n : Nat) : Module := { m with data := marks (c.text.take n) m.data }

def linked (pc : Pc) : Pc := (c.linkpc pc).getD pc

def withlinks (m : Module) (n : Nat) : Module :=
  { m with links := (m.links.take n).map c.linked ++ m.links.drop n }

def Left (cut : Cut) (m t : Module) : Prop :=
  ∃ s, run (Inst.reloc c.address) (c.withmarks m cut.marked) (c.text.take cut.relocated) = some s ∧
    t = c.withlinks s cut.linked

/-! ### Checks -/

section Checks

variable {c} {point : Point} {e : Exn} {m : Module}

theorem check_of_ne (other : c.fails ≠ some point) : c.check point e m = .ok () m := by
  unfold check
  rw [if_neg other]
  rfl

theorem check_of_eq (here : c.fails = some point) : c.check point e m = .raised e m := by
  unfold check
  rw [if_pos here]
  rfl

variable {rest : Act Bool}

theorem orbad_of_ne (other : c.fails ≠ some point) :
    c.orbad point rest = rest := if_neg other

theorem orbad_of_eq (here : c.fails = some point) : c.orbad point rest m = .ok false m := by
  unfold orbad
  rw [if_pos here]
  rfl

end Checks

/-! ### Instructions and links -/

section Steps

variable {c} {i : Nat} {instr : Inst} {m : Module}

theorem withmarks_succ (is : c.text[i]? = some instr) :
    c.withmarks m (i + 1) = { c.withmarks m i with data := instr.mark (c.withmarks m i).data } := by
  unfold withmarks marks
  simp only
  rw [take_add_one, is, foldl_append]
  rfl

theorem first_of_ne (is : c.text[i]? = some instr) (before : c.fails ≠ some (.before .zero i))
    (behind : c.fails ≠ some (.behind .zero i)) :
    c.first i instr (c.withmarks m i) = .ok () (c.withmarks m (i + 1)) := by
  unfold first
  rw [Action.bind_of_ok (check_of_ne before), withmarks_succ is]
  exact check_of_ne behind

theorem second_of_ne {t : Module} (relocated : instr.reloc c.address m = some t)
    (before : c.fails ≠ some (.before .one i)) (behind : c.fails ≠ some (.behind .one i))
    (phase : c.fails ≠ some (.phase i)) : c.second i instr m = .ok () t := by
  unfold second
  rw [Action.bind_of_ok (check_of_ne before),
    Action.bind_of_ok (Action.attempt_of_some (by rw [relocated]; rfl)),
    Action.bind_of_ok (check_of_ne behind)]
  exact check_of_ne phase

variable {pc : Pc}

theorem withlinks_succ (is : m.links[i]? = some pc) :
    c.withlinks m (i + 1) =
      { c.withlinks m i with links := (c.withlinks m i).links.set i (c.linked pc) } := by
  have inside := (List.getElem?_eq_some_iff.1 is).1
  have rest : m.links.drop i = pc :: m.links.drop (i + 1) := by
    rw [drop_eq_getElem_cons inside, (List.getElem?_eq_some_iff.1 is).2]
  have length : ((m.links.take i).map c.linked).length = i := by
    rw [length_map, length_take_of_le (Nat.le_of_lt inside)]
  unfold withlinks
  simp only
  rw [rest, set_append_right _ _ (Nat.le_of_eq length), length, Nat.sub_self,
    set_cons_zero, take_add_one, is, map_append, append_assoc]
  rfl

/-- The links are pcs of instructions, or that of the data. -/
def Linkable (c : Compilation) (links : List Pc) : Prop :=
  ∀ pc ∈ links, ∃ after, c.linkpc pc = some after

theorem relink_of_ne (is : m.links[i]? = some pc) (linkable : c.Linkable m.links)
    (other : c.fails ≠ some (.frame i)) :
    c.relink i pc (c.withlinks m i) = .ok () (c.withlinks m (i + 1)) := by
  have ⟨after, linked⟩ := linkable pc (mem_of_getElem? is)
  have same : c.linked pc = after := by
    unfold Compilation.linked
    rw [linked]
    rfl
  unfold relink
  rw [Action.bind_of_ok (Action.attempt_of_some (by rw [linked]; rfl)), withlinks_succ is, same]
  exact check_of_ne other

end Steps

/-! ### Passes -/

variable {n : Nat}

section Passes

variable {c} {i : Nat} {m s : Module}

theorem first_all (before : ∀ i, c.fails ≠ some (.before .zero i))
    (behind : ∀ i, c.fails ≠ some (.behind .zero i)) :
    Action.each c.first 0 c.text m = .ok () (c.withmarks m c.text.length) := by
  have ⟨_, passed, same⟩ := @Action.each_keeps _ _ _ c.first
    (fun j s => s = c.withmarks m j) 0 m c.text (by
      intro j _ _ is holds
      rw [Nat.zero_add] at holds ⊢
      rw [holds]
      exact ⟨_, first_of_ne is (before j) (behind j), rfl⟩) rfl
  rw [passed, same, Nat.zero_add]

theorem first_stops (inside : i < c.text.length) (after : Bool)
    (here : c.fails = some (if after then .behind .zero i else .before .zero i)) :
    Action.each c.first 0 c.text m =
      .raised .exCompile (c.withmarks m (if after then i + 1 else i)) := by
  have is := getElem?_eq_getElem inside
  have ⟨t, raised, same⟩ := @Action.each_raises _ _ _ c.first
    (fun j s => s = c.withmarks m j) 0 m c.text i _ Exn.exCompile
    (fun t => t = c.withmarks m (if after then i + 1 else i)) is (by
      intro _ less _ s is' holds
      rw [Nat.zero_add] at holds ⊢
      rw [holds]
      refine ⟨_, first_of_ne is' ?_ ?_, rfl⟩
      · rw [here]
        cases after with
        | true => nofun
        | false =>
          intro same
          cases same
          exact Nat.lt_irrefl _ less
      · rw [here]
        cases after with
        | true =>
          intro same
          cases same
          exact Nat.lt_irrefl _ less
        | false => nofun) rfl (by
      intro _ holds
      rw [Nat.zero_add] at holds ⊢
      rw [holds]
      refine ⟨_, ?_, rfl⟩
      unfold first
      cases after with
      | true =>
        rw [Action.bind_of_ok (check_of_ne (by rw [here]; nofun)), if_pos rfl, withmarks_succ is]
        exact check_of_eq here
      | false => exact Action.bind_of_raised (check_of_eq here))
  rw [raised, same]

theorem second_all (defined : run (Inst.reloc c.address) m c.text = some s)
    (before : ∀ i, c.fails ≠ some (.before .one i)) (behind : ∀ i, c.fails ≠ some (.behind .one i))
    (phase : ∀ i, c.fails ≠ some (.phase i)) :
    Action.each c.second 0 c.text m = .ok () s := by
  have ⟨_, passed, reached⟩ := @Action.each_keeps _ _ _ c.second
    (fun j s => run (Inst.reloc c.address) m (c.text.take j) = some s) 0 m c.text (by
      intro j _ _ is holds
      rw [Nat.zero_add] at holds ⊢
      have inside := (List.getElem?_eq_some_iff.1 is).1
      have whole : c.text.take c.text.length = c.text := take_length
      rw [← whole] at defined
      have ⟨after, relocated, further⟩ := run_next defined is inside holds
      exact ⟨after, second_of_ne relocated (before j) (behind j) (phase j), further⟩) rfl
  rw [Nat.zero_add, take_length, defined] at reached
  cases reached
  exact passed

/-- The second pass fails before an instruction or behind it. -/
theorem second_stops {point : Point} (inside : i < c.text.length) (here : c.fails = some point)
    (kind : point = .before .one i ∧ n = i ∨ point = .behind .one i ∧ n = i + 1 ∨
      point = .phase i ∧ n = i + 1)
    (defined : run (Inst.reloc c.address) m (c.text.take n) = some s) :
    Action.each c.second 0 c.text m = .raised .exCompile s := by
  have is := getElem?_eq_getElem inside
  have enough : i ≤ n := by
    rcases kind with ⟨-, rfl⟩ | ⟨-, rfl⟩ | ⟨-, rfl⟩
    · exact Nat.le_refl _
    · exact Nat.le_succ _
    · exact Nat.le_succ _
  have ⟨t, raised, same⟩ := @Action.each_raises _ _ _ c.second
    (fun j s => run (Inst.reloc c.address) m (c.text.take j) = some s) 0 m c.text i _ Exn.exCompile
    (fun t => t = s) is (by
      intro j less _ s is' holds
      rw [Nat.zero_add] at holds ⊢
      have ⟨after, relocated, further⟩ :=
        run_next defined is' (Nat.lt_of_lt_of_le less enough) holds
      have other : c.fails ≠ some (.before .one j) ∧ c.fails ≠ some (.behind .one j) ∧
          c.fails ≠ some (.phase j) := by
        rw [here]
        rcases kind with ⟨rfl, -⟩ | ⟨rfl, -⟩ | ⟨rfl, -⟩
        · refine ⟨fun same => ?_, nofun, nofun⟩
          cases same
          exact Nat.lt_irrefl _ less
        · refine ⟨nofun, fun same => ?_, nofun⟩
          cases same
          exact Nat.lt_irrefl _ less
        · refine ⟨nofun, nofun, fun same => ?_⟩
          cases same
          exact Nat.lt_irrefl _ less
      exact ⟨after, second_of_ne relocated other.1 other.2.1 other.2.2, further⟩) rfl (by
      intro _ holds
      rw [Nat.zero_add] at holds ⊢
      refine ⟨s, ?_, rfl⟩
      unfold second
      rcases kind with ⟨rfl, rfl⟩ | ⟨rfl, rfl⟩ | ⟨rfl, rfl⟩
      · cases holds.symm.trans defined
        exact Action.bind_of_raised (check_of_eq here)
      · have ⟨after, relocated, further⟩ := run_next defined is (Nat.lt_succ_self _) holds
        cases further.symm.trans defined
        rw [Action.bind_of_ok (check_of_ne (by rw [here]; nofun)),
          Action.bind_of_ok (Action.attempt_of_some (by rw [relocated]; rfl))]
        exact Action.bind_of_raised (check_of_eq here)
      have ⟨_, relocated, further⟩ := run_next defined is (Nat.lt_succ_self _) holds
      cases further.symm.trans defined
      rw [Action.bind_of_ok (check_of_ne (by rw [here]; nofun)),
        Action.bind_of_ok (Action.attempt_of_some (by rw [relocated]; rfl)),
        Action.bind_of_ok (check_of_ne (by rw [here]; nofun))]
      exact check_of_eq here)
  rw [raised, same]

theorem relink_all (linkable : c.Linkable m.links) (other : ∀ i, c.fails ≠ some (.frame i)) :
    Action.each c.relink 0 m.links m = .ok () (c.withlinks m m.links.length) := by
  have ⟨_, passed, same⟩ := @Action.each_keeps _ _ _ c.relink
    (fun j s => s = c.withlinks m j) 0 m m.links (by
      intro j _ _ is holds
      rw [Nat.zero_add] at holds ⊢
      rw [holds]
      exact ⟨_, relink_of_ne is linkable (other j), rfl⟩) rfl
  rw [passed, same, Nat.zero_add]

theorem relink_stops (linkable : c.Linkable m.links) (inside : i < m.links.length)
    (here : c.fails = some (.frame i)) :
    Action.each c.relink 0 m.links m = .raised .exNomem (c.withlinks m (i + 1)) := by
  have is := getElem?_eq_getElem inside
  have ⟨t, raised, same⟩ := @Action.each_raises _ _ _ c.relink
    (fun j s => s = c.withlinks m j) 0 m m.links i _ Exn.exNomem
    (fun t => t = c.withlinks m (i + 1)) is (by
      intro _ less _ s is' holds
      rw [Nat.zero_add] at holds ⊢
      rw [holds]
      refine ⟨_, relink_of_ne is' linkable ?_, rfl⟩
      rw [here]
      intro same
      cases same
      exact Nat.lt_irrefl _ less) rfl (by
      intro _ holds
      rw [Nat.zero_add] at holds ⊢
      rw [holds]
      refine ⟨_, ?_, rfl⟩
      have ⟨after, linked⟩ := linkable _ (mem_of_getElem? is)
      have same : c.linked m.links[i] = after := by
        unfold Compilation.linked
        rw [linked]
        rfl
      unfold relink
      rw [Action.bind_of_ok (Action.attempt_of_some (by rw [linked]; rfl)), withlinks_succ is, same]
      exact check_of_eq here)
  rw [raised, same]

end Passes

/-! ### The compilation -/

section Whole

variable {c} {point : Point} {m s t : Module}

variable {look : Int → Option Int} {text : List Inst} {other : Point}

/-- The second pass leaves all but the data and the saved pcs. -/
theorem reloc_kept {instr : Inst} (relocated : instr.reloc look m = some t) :
    t = { m with data := t.data, saved := t.saved } := by
  cases instr with
  | case _ =>
    obtain ⟨data, -, rfl⟩ := Option.map_eq_some_iff.1 relocated
    rfl
  | casel _ =>
    obtain ⟨data, -, rfl⟩ := Option.map_eq_some_iff.1 relocated
    rfl
  | goto _ =>
    obtain ⟨_, -, rfl⟩ := Option.map_eq_some_iff.1 relocated
    rfl
  | movpc _ =>
    obtain ⟨_, -, rfl⟩ := Option.map_eq_some_iff.1 relocated
    rfl
  | other =>
    cases relocated
    rfl

theorem run_kept (reached : run (Inst.reloc look) m text = some t) :
    t = { m with data := t.data, saved := t.saved } := by
  have kept (s : Module) (instr : Inst) (after : Module)
      (same : s = { m with data := s.data, saved := s.saved }) (_ : True)
      (relocated : instr.reloc look s = some after) :
      after = { m with data := after.data, saved := after.saved } := by
    rw [reloc_kept relocated, same]
  exact run_keeps kept rfl (each_true m text) reached

theorem links_of_run (reached : run (Inst.reloc look) (c.withmarks m n) text = some t) :
    t.links = m.links := by
  rw [run_kept reached]
  rfl

theorem ne_of_late (late : ∀ point, c.fails = some point → point.Late) (early : ¬ other.Late) :
    c.fails ≠ some other := fun here => early (late other here)

theorem ne_of_last (last : ∀ point, c.fails = some point → point.Last) (early : ¬ other.Last) :
    c.fails ≠ some other := fun here => early (last other here)

/-- A compilation that does not fail before the second pass. -/
theorem compile_late (late : ∀ point, c.fails = some point → point.Late) :
    c.compile m = c.generate (c.withmarks m c.text.length) := by
  unfold compile
  rw [orbad_of_ne (ne_of_late late id), orbad_of_ne (ne_of_late late id),
    orbad_of_ne (ne_of_late late id),
    Action.bind_of_ok (first_all (fun j => ne_of_late late id) fun j => ne_of_late late id),
    Action.bind_of_ok (check_of_ne (ne_of_late late id)), orbad_of_ne (ne_of_late late id)]

theorem generate_last (last : ∀ point, c.fails = some point → point.Last)
    (defined : run (Inst.reloc c.address) m c.text = some s) : c.generate m = c.link s := by
  unfold generate
  rw [Action.bind_of_ok (second_all defined (fun j => ne_of_last last id)
      (fun j => ne_of_last last id) fun j => ne_of_last last id),
    Action.bind_of_ok (check_of_ne (ne_of_last last id))]

theorem link_get : c.link m = (Action.each c.relink 0 m.links >>= fun _ =>
    c.check .types .exNomem >>= fun _ =>
      .attempt fun m => (c.finish m).map fun m => (true, m)) m := rfl

theorem compile_returns (none : c.fails = none) (linkable : c.Linkable m.links)
    (defined : run (Inst.reloc c.address) (c.withmarks m c.text.length) c.text = some s)
    (finished : c.finish (c.withlinks s m.links.length) = some t) :
    c.compile m = .ok true t := by
  have never {p : Point → Prop} : ∀ point, c.fails = some point → p point := by
    intro _ here
    rw [none] at here
    cases here
  have links := links_of_run defined
  rw [compile_late never, generate_last never defined, link_get]
  rw [← links] at linkable finished
  rw [Action.bind_of_ok (relink_all linkable fun i => by rw [none]; nofun),
    Action.bind_of_ok (check_of_ne (by rw [none]; nofun))]
  exact Action.attempt_of_some (by rw [finished]; rfl)

theorem left_first (n : Nat) : c.Left ⟨n, 0, 0⟩ m (c.withmarks m n) := ⟨c.withmarks m n, rfl, rfl⟩

theorem late_of_eq (here : c.fails = some point) (late : point.Late) :
    ∀ point, c.fails = some point → point.Late := by
  intro _ here'
  cases here.symm.trans here'
  exact late

theorem last_of_eq (here : c.fails = some point) (last : point.Last) :
    ∀ point, c.fails = some point → point.Last := by
  intro _ here'
  cases here.symm.trans here'
  exact last

/-- A compilation that fails before the second pass. -/
theorem compile_early (here : c.fails = some point) (within : c.Has m.links.length point)
    (early : ¬ point.Late) :
    ∃ t, (c.compile m = .ok false t ∨ ∃ e, c.compile m = .raised e t) ∧
      c.Left (c.cut m.links.length point) m t := by
  have other {p : Point} (differs : p ≠ point) : c.fails ≠ some p := by
    rw [here]
    exact fun same => differs (Option.some.inj same).symm
  unfold compile
  cases point with
  | nojit =>
    refine ⟨m, Or.inl (orbad_of_eq here), left_first 0⟩
  | memory =>
    rw [orbad_of_ne (@other .nojit nofun)]
    exact ⟨m, Or.inl (orbad_of_eq here), left_first 0⟩
  | preamble =>
    rw [orbad_of_ne (@other .nojit nofun), orbad_of_ne (@other .memory nofun)]
    exact ⟨m, Or.inl (orbad_of_eq here), left_first 0⟩
  | before pass i =>
    cases pass with
    | one => exact absurd trivial early
    | zero =>
      rw [orbad_of_ne (@other .nojit nofun), orbad_of_ne (@other .memory nofun),
        orbad_of_ne (@other .preamble nofun)]
      refine ⟨_, Or.inr ⟨.exCompile, Action.bind_of_raised (first_stops within false here)⟩, ?_⟩
      exact left_first i
  | behind pass i =>
    cases pass with
    | one => exact absurd trivial early
    | zero =>
      rw [orbad_of_ne (@other .nojit nofun), orbad_of_ne (@other .memory nofun),
        orbad_of_ne (@other .preamble nofun)]
      refine ⟨_, Or.inr ⟨.exCompile, Action.bind_of_raised (first_stops within true here)⟩, ?_⟩
      exact left_first (i + 1)
  | macros pass =>
    cases pass with
    | one => exact absurd trivial early
    | zero =>
      rw [orbad_of_ne (@other .nojit nofun), orbad_of_ne (@other .memory nofun),
        orbad_of_ne (@other .preamble nofun),
        Action.bind_of_ok (first_all (fun i => @other (.before .zero i) nofun)
          fun i => @other (.behind .zero i) nofun)]
      exact ⟨_, Or.inr ⟨.exCompile, Action.bind_of_raised (check_of_eq here)⟩, left_first _⟩
  | code =>
    rw [orbad_of_ne (@other .nojit nofun), orbad_of_ne (@other .memory nofun),
          orbad_of_ne (@other .preamble nofun),
      Action.bind_of_ok (first_all (fun i => @other (.before .zero i) nofun)
            fun i => @other (.behind .zero i) nofun),
      Action.bind_of_ok (check_of_ne (@other (.macros .zero) nofun))]
    exact ⟨_, Or.inl (orbad_of_eq here), left_first _⟩
  | phase _ => exact absurd trivial early
  | frame _ => exact absurd trivial early
  | types => exact absurd trivial early

theorem compile_stops (here : c.fails = some point) (within : c.Has m.links.length point)
    (linkable : c.Linkable m.links) (defined : ∃ s, run (Inst.reloc c.address)
      (c.withmarks m (c.cut m.links.length point).marked)
        (c.text.take (c.cut m.links.length point).relocated) = some s) :
    ∃ t, (c.compile m = .ok false t ∨ ∃ e, c.compile m = .raised e t) ∧
      c.Left (c.cut m.links.length point) m t := by
  have ⟨s, defined⟩ := defined
  have other {p : Point} (differs : p ≠ point) : c.fails ≠ some p := by
    rw [here]
    exact fun same => differs (Option.some.inj same).symm
  have links := links_of_run defined
  cases point with
  | before pass _ =>
    cases pass with
    | zero => exact compile_early here within id
    | one =>
      rw [compile_late (late_of_eq here trivial)]
      have stops := second_stops within here (Or.inl ⟨rfl, rfl⟩) defined
      exact ⟨s, Or.inr ⟨_, Action.bind_of_raised stops⟩, s, defined, rfl⟩
  | behind pass _ =>
    cases pass with
    | zero => exact compile_early here within id
    | one =>
      rw [compile_late (late_of_eq here trivial)]
      have stops := second_stops within here (Or.inr (Or.inl ⟨rfl, rfl⟩)) defined
      exact ⟨s, Or.inr ⟨_, Action.bind_of_raised stops⟩, s, defined, rfl⟩
  | phase _ =>
    rw [compile_late (late_of_eq here trivial)]
    have stops := second_stops within here (Or.inr (Or.inr ⟨rfl, rfl⟩)) defined
    exact ⟨s, Or.inr ⟨_, Action.bind_of_raised stops⟩, s, defined, rfl⟩
  | macros pass =>
    cases pass with
    | zero => exact compile_early here within id
    | one =>
      rw [compile_late (late_of_eq here trivial)]
      have whole : run (Inst.reloc c.address) (c.withmarks m c.text.length) c.text = some s := by
        rw [← defined]
        exact congrArg _ take_length.symm
      unfold generate
      rw [Action.bind_of_ok (second_all whole (fun i => @other (.before .one i) nofun)
        (fun i => @other (.behind .one i) nofun) fun i => @other (.phase i) nofun)]
      exact ⟨s, Or.inr ⟨_, Action.bind_of_raised (check_of_eq here)⟩, s, defined, rfl⟩
  | frame _ =>
    have whole : run (Inst.reloc c.address) (c.withmarks m c.text.length) c.text = some s := by
      rw [← defined]
      exact congrArg _ take_length.symm
    rw [← links] at linkable within
    rw [compile_late (late_of_eq here trivial), generate_last (last_of_eq here trivial) whole,
      link_get]
    have stops := relink_stops linkable within here
    exact ⟨_, Or.inr ⟨_, Action.bind_of_raised stops⟩, s, defined, rfl⟩
  | types =>
    have whole : run (Inst.reloc c.address) (c.withmarks m c.text.length) c.text = some s := by
      rw [← defined]
      exact congrArg _ take_length.symm
    rw [compile_late (late_of_eq here trivial), generate_last (last_of_eq here trivial) whole,
      link_get]
    rw [← links] at linkable
    rw [Action.bind_of_ok (relink_all linkable fun i => @other (.frame i) nofun)]
    refine ⟨_, Or.inr ⟨_, Action.bind_of_raised (check_of_eq here)⟩, s, defined, ?_⟩
    rw [links]
    rfl
  | nojit => exact compile_early here within id
  | memory => exact compile_early here within id
  | preamble => exact compile_early here within id
  | code => exact compile_early here within id

end Whole

end Compilation

end Infernode.Jit
