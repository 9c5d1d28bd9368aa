/-!
Runs of a machine whose steps can be refused.

Owns: the state after a list of actions, the states a run passes through, and how what one
step keeps is kept by a run, with or without a condition on its steps.
-/

namespace Infernode.Runs

variable {State Action : Type}

def run (step : State → Action → Option State) : State → List Action → Option State
  | s, [] => some s
  | s, action :: rest => (step s action).bind fun after => run step after rest

/-- Every step of the run from `s` is taken under the condition. -/
def Each (step : State → Action → Option State) (condition : State → Action → Prop) (s : State)
    (actions : List Action) : Prop :=
  ∀ front action back middle, actions = front ++ action :: back →
    run step s front = some middle → condition middle action

/-- Every state that the run from `s` passes through has the property. -/
def Always (step : State → Action → Option State) (property : State → Prop) (s : State)
    (actions : List Action) : Prop :=
  ∀ front back middle, actions = front ++ back → run step s front = some middle → property middle

/-- Every step of the run from `s` leads from a state to one that it may lead to. -/
def Steps (step : State → Action → Option State) (relation : State → Action → State → Prop)
    (s : State) (actions : List Action) : Prop :=
  ∀ front action back middle after, actions = front ++ action :: back →
    run step s front = some middle → step middle action = some after →
      relation middle action after

variable {step : State → Action → Option State}

theorem run_cons {s : State} {action : Action} {rest : List Action} {final : State} :
    run step s (action :: rest) = some final ↔
      ∃ after, step s action = some after ∧ run step after rest = some final :=
  Option.bind_eq_some_iff

theorem run_append (s : State) (front back : List Action) :
    run step s (front ++ back) = (run step s front).bind fun middle => run step middle back := by
  induction front generalizing s with
  | nil => rfl
  | cons action _ ih =>
    simp only [List.cons_append, run]
    cases step s action with
    | none => rfl
    | some after => exact ih after

theorem run_append_eq_some {s final : State} {front back : List Action} :
    run step s (front ++ back) = some final ↔
      ∃ middle, run step s front = some middle ∧ run step middle back = some final := by
  rw [run_append]
  exact Option.bind_eq_some_iff

theorem run_next {s u t : State} {actions : List Action} {j n : Nat} {action : Action}
    (reached : run step s (actions.take n) = some t) (is : actions[j]? = some action) (before : j < n)
    (here : run step s (actions.take j) = some u) :
    ∃ v, step u action = some v ∧ run step s (actions.take (j + 1)) = some v := by
  have next : actions.take (j + 1) = actions.take j ++ [action] := by
    rw [List.take_add_one, is]
    rfl
  have parts : actions.take n = actions.take (j + 1) ++ (actions.take n).drop (j + 1) := by
    have split := List.take_append_drop (j + 1) (actions.take n)
    rw [List.take_take, Nat.min_eq_left before] at split
    exact split.symm
  rw [parts] at reached
  obtain ⟨v, first, -⟩ := run_append_eq_some.1 reached
  refine ⟨v, ?_, first⟩
  rw [next] at first
  have ⟨_, there, last⟩ := run_append_eq_some.1 first
  cases here.symm.trans there
  have ⟨_, stepped, same⟩ := run_cons.1 last
  cases same
  exact stepped

theorem run_eq_none {action : Action} (refused : ∀ s, step s action = none) {actions : List Action}
    (member : action ∈ actions) (s : State) : run step s actions = none := by
  obtain ⟨front, _, rfl⟩ := List.append_of_mem member
  rw [run_append]
  cases run step s front with
  | none => rfl
  | some _ =>
    rw [Option.bind_some, run, refused]
    rfl

theorem Each.head {condition : State → Action → Prop} {s : State} {action : Action}
    {rest : List Action} (each : Each step condition s (action :: rest)) : condition s action :=
  each [] action rest s rfl rfl

theorem Each.tail {condition : State → Action → Prop} {s after : State} {action : Action}
    {rest : List Action} (each : Each step condition s (action :: rest))
    (stepped : step s action = some after) : Each step condition after rest := by
  intro front next back middle split reached
  refine each (action :: front) next back middle (by rw [split]; rfl) ?_
  exact run_cons.2 ⟨after, stepped, reached⟩

theorem each_nil {condition : State → Action → Prop} (s : State) : Each step condition s [] := by
  intro _ _ _ _ split
  exact absurd split (by simp)

theorem Each.cons {condition : State → Action → Prop} {s after : State} {action : Action}
    {rest : List Action} (meets : condition s action) (stepped : step s action = some after)
    (each : Each step condition after rest) : Each step condition s (action :: rest) := by
  intro front next back middle split reached
  cases front with
  | nil =>
    rw [List.nil_append] at split
    cases split
    cases reached
    exact meets
  | cons _ front =>
    rw [List.cons_append] at split
    cases split
    have ⟨_, stepped', reached⟩ := run_cons.1 reached
    cases stepped.symm.trans stepped'
    exact each front next back middle rfl reached

/-- The condition holds on every part of a run at the part's start. -/
theorem Each.prefix {condition : State → Action → Prop} {s : State} {front back : List Action}
    (each : Each step condition s (front ++ back)) : Each step condition s front := by
  intro before action rest middle split reached
  exact each before action (rest ++ back) middle (by rw [split]; simp) reached

theorem run_keeps {invariant : State → Prop} {condition : State → Action → Prop}
    (kept : ∀ s action after, invariant s → condition s action → step s action = some after →
      invariant after)
    {s final : State} {actions : List Action} (initial : invariant s)
    (each : Each step condition s actions) (reached : run step s actions = some final) :
    invariant final := by
  induction actions generalizing s with
  | nil =>
    cases reached
    exact initial
  | cons action _ ih =>
    have ⟨after, stepped, reached⟩ := run_cons.1 reached
    exact ih (kept s action after initial each.head stepped)
      (each.tail stepped) reached

theorem run_total {invariant : State → Prop} {condition : State → Action → Prop}
    (taken : ∀ s action, invariant s → condition s action →
      ∃ after, step s action = some after ∧ invariant after)
    {s : State} {actions : List Action} (initial : invariant s)
    (each : Each step condition s actions) : ∃ final, run step s actions = some final := by
  induction actions generalizing s with
  | nil => exact ⟨s, rfl⟩
  | cons action _ ih =>
    have ⟨after, stepped, kept⟩ := taken s action initial each.head
    have ⟨final, reached⟩ := ih kept (each.tail stepped)
    exact ⟨final, run_cons.2 ⟨after, stepped, reached⟩⟩

theorem run_history {invariant : List Action → State → Prop} {actions : List Action}
    (taken : ∀ front action back s, actions = front ++ action :: back → invariant front s →
      ∃ after, step s action = some after ∧ invariant (front ++ [action]) after)
    {s : State} (initial : invariant [] s) :
    ∃ final, run step s actions = some final ∧ invariant actions final := by
  have onward (back : List Action) : ∀ front s, actions = front ++ back → invariant front s →
      ∃ final, run step s back = some final ∧ invariant actions final := by
    induction back with
    | nil =>
      intro front s split holds
      rw [List.append_nil] at split
      exact ⟨s, rfl, split ▸ holds⟩
    | cons action back ih =>
      intro front s split holds
      have ⟨after, stepped, kept⟩ := taken front action back s split holds
      have ⟨final, reached, last⟩ :=
        ih (front ++ [action]) after (by rw [split]; simp) kept
      exact ⟨final, run_cons.2 ⟨after, stepped, reached⟩, last⟩
  exact onward actions [] s rfl initial

theorem always_of_kept {invariant : State → Prop} {condition : State → Action → Prop}
    (kept : ∀ s action after, invariant s → condition s action → step s action = some after →
      invariant after)
    {s : State} {actions : List Action} (initial : invariant s)
    (each : Each step condition s actions) : Always step invariant s actions := by
  intro _ _ _ split reached
  subst split
  exact run_keeps kept initial each.prefix reached

theorem each_true (s : State) (actions : List Action) :
    Each step (fun _ _ => True) s actions := fun _ _ _ _ _ _ => trivial

theorem always_steps_iff_each {frame property : State → Prop}
    {relation : State → Action → State → Prop} {condition : State → Action → Prop}
    (total : ∀ s action, ∃ after, step s action = some after)
    (framed : ∀ s action after, frame s → step s action = some after → frame after)
    (exact : ∀ s action after, frame s → property s → step s action = some after →
      (property after ∧ relation s action after ↔ condition s action))
    {s : State} {actions : List Action} (start : frame s) (initial : property s) :
    Always step property s actions ∧ Steps step relation s actions ↔
      Each step condition s actions := by
  have frames (middle : State) (front : List Action) (reached : run step s front = some middle) :
      frame middle :=
    run_keeps (fun s action after holds _ stepped => framed s action after holds stepped) start
      (each_true s front) reached
  constructor
  · rintro ⟨always, steps⟩ front action back middle split reached
    have ⟨after, stepped⟩ := total middle action
    have before := always front (action :: back) middle split reached
    have later : property after := by
      apply always (front ++ [action]) back after (by rw [split]; simp)
      exact run_append_eq_some.2 ⟨middle, reached, run_cons.2 ⟨after, stepped, rfl⟩⟩
    exact (exact middle action after (frames middle front reached) before stepped).1
      ⟨later, steps front action back middle after split reached stepped⟩
  intro each
  have kept (s : State) (action : Action) (after : State) (holds : frame s ∧ property s)
      (meets : condition s action) (stepped : step s action = some after) :
      frame after ∧ property after :=
    ⟨framed s action after holds.1 stepped,
      ((exact s action after holds.1 holds.2 stepped).2 meets).1⟩
  have always := always_of_kept kept ⟨start, initial⟩ each
  refine ⟨fun front back middle split reached =>
    (always front back middle split reached).2, ?_⟩
  intro front action back middle after split reached stepped
  have holds := always front (action :: back) middle split reached
  exact ((exact middle action after holds.1 holds.2 stepped).2
    (each front action back middle split reached)).2

theorem always_iff_each {frame property : State → Prop} {condition : State → Action → Prop}
    (total : ∀ s action, ∃ after, step s action = some after)
    (framed : ∀ s action after, frame s → step s action = some after → frame after)
    (exact : ∀ s action after, frame s → property s → step s action = some after →
      (property after ↔ condition s action))
    {s : State} {actions : List Action} (start : frame s) (initial : property s) :
    Always step property s actions ↔ Each step condition s actions := by
  have both (s : State) (action : Action) (after : State) (holds : frame s) (before : property s)
      (stepped : step s action = some after) :
      property after ∧ (fun _ _ _ => True : State → Action → State → Prop) s action after ↔
        condition s action :=
    (and_iff_left trivial).trans (exact s action after holds before stepped)
  rw [← always_steps_iff_each total framed both start initial]
  exact (and_iff_left fun _ _ _ _ _ _ _ _ => trivial).symm

end Infernode.Runs
