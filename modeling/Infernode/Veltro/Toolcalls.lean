import Infernode.Program.Runs
import Infernode.Text.Decimal
import Mathlib.Algebra.BigOperators.Group.List.Basic
import Mathlib.Algebra.Order.BigOperators.Group.List

/-!
The workers that run the tools of `appl/veltro/tools9p.b`.

Owns: `asyncexec`, as the acts of a worker on what the workers share; the runs of any number of
workers; and the calls after which the reply, the result, the pid and the lock are where they
belong.

Does not own: the tools, the namespace and the environment of a worker, of which only the
outcomes are known.
-/

namespace Infernode.Toolcalls

open Text Runs List

/-! ### A worker -/

inductive Act where
  | gate
  | lock
  | store (result : Str)
  | reply (answer : Except Str Nat)
  | release
  | cleanup (pid : Nat)

structure Call where
  count : Nat
  tool : Str
  data : Str

/-- How the steps of a worker come out: the pid or a failed fork, the error of the environment,
whether `NODEVS` and the bind succeed, the error of the restriction, and the result of the tool,
which has none if it raises an exception. -/
structure Outcome where
  fork : Option Nat
  env : Option Str
  nodevs : Bool
  bind : Bool
  restrict : Option Str
  exec : Option Str

def istaskcreate (call : Call) : Bool :=
  call.tool == str "task" &&
    (call.data == str "create" || (decide (7 < call.data.length) && call.data.take 7 == str "create "))

def refuse (result message : Str) : List Act :=
  [.store (str "error: " ++ result), .reply (.error message)]

section Asyncexec

variable (mountpt : Str) (call : Call) (o : Outcome)

def lock : List Act := if istaskcreate call then [.lock] else []

def release : List Act := if istaskcreate call then [.release] else []

/-- The worker once it may hold the lock; an exception ends it where it is. -/
def work : List Act :=
  match o.fork with
  | none => refuse (str "cannot fork namespace") (str "cannot fork namespace") ++ release call
  | some mypid =>
    match o.env with
    | some enverr =>
      refuse enverr (str "cannot isolate tool environment") ++ .cleanup mypid :: release call
    | none =>
      if call.tool ≠ str "exec" ∧ o.nodevs = false then
        refuse (str "cannot disable device attachment")
          (str "cannot disable device attachment") ++ release call
      else if mountpt ≠ str "/tool" ∧ o.bind = false then
        refuse (str "cannot bind activity tool service")
          (str "cannot bind activity tool service") ++ release call
      else
        match if istaskcreate call then none else o.restrict with
        | some nserr =>
          refuse (str "namespace restriction failed: " ++ nserr)
            (str "namespace restriction failed") ++ .cleanup mypid :: release call
        | none =>
          match o.exec with
          | none => []
          | some result =>
            .store result :: .reply (.ok call.count) :: (release call ++ [.cleanup mypid])

def asyncexec : List Act :=
  .gate :: (lock call ++ work mountpt call o)

/-- The fork succeeds; and the environment fails, or `NODEVS` and the bind succeed where they are
made and the tool, where the restriction does not fail, raises no exception. -/
def Good : Prop :=
  (∃ mypid, o.fork = some mypid) ∧
    (o.env ≠ none ∨
      ((call.tool = str "exec" ∨ o.nodevs = true) ∧ (mountpt = str "/tool" ∨ o.bind = true) ∧
        ((istaskcreate call = false ∧ o.restrict ≠ none) ∨ o.exec ≠ none)))

end Asyncexec

def Act.isreply : Act → Bool
  | .reply _ => true
  | _ => false

def Act.islock : Act → Bool
  | .lock => true
  | _ => false

def Act.isrelease : Act → Bool
  | .release => true
  | _ => false

def Act.iscleanup : Act → Bool
  | .cleanup _ => true
  | _ => false

def storedfirst : List Act → Bool
  | [] => true
  | .store _ :: _ => true
  | .reply _ :: _ => false
  | _ :: acts => storedfirst acts

structure Fulfilled (acts : List Act) : Prop where
  replied : acts.countP Act.isreply = 1
  stored : storedfirst acts = true
  cleaned : acts.any Act.iscleanup = true
  unlocked : acts.countP Act.islock = acts.countP Act.isrelease

theorem fulfilled_answered {call : Call} {tail : List Act} (r : Str) (answer : Except Str Nat)
    (quiet : tail.countP Act.isreply = 0) (free : tail.countP Act.islock = 0)
    (released : tail.countP Act.isrelease = (release call).length) :
    Fulfilled (.gate :: (lock call ++ .store r :: .reply answer :: tail)) ↔
      tail.any Act.iscleanup = true := by
  have locks : (lock call).countP Act.isreply = 0 ∧ (lock call).countP Act.isrelease = 0 ∧
      (lock call).countP Act.islock = (release call).length ∧
      (lock call).any Act.iscleanup = false ∧
      storedfirst (lock call ++ .store r :: .reply answer :: tail) = true := by
    unfold lock release
    cases istaskcreate call with
    | true => exact ⟨rfl, rfl, rfl, rfl, rfl⟩
    | false => exact ⟨rfl, rfl, rfl, rfl, rfl⟩
  have ⟨replies, releases, taken, uncleaned, stored⟩ := locks
  constructor
  · intro fulfilled
    have cleaned := fulfilled.cleaned
    rw [any_cons, any_append, uncleaned] at cleaned
    exact cleaned
  intro cleaned
  refine ⟨?_, stored, ?_, ?_⟩
  · simp [countP_cons, Act.isreply, replies, quiet]
  · rw [any_cons, any_append, uncleaned]
    exact cleaned
  · simp [Act.islock, Act.isrelease, taken, free, releases, released]

theorem release_counts (call : Call) : (release call).countP Act.isreply = 0 ∧
    (release call).countP Act.islock = 0 ∧
    (release call).countP Act.isrelease = (release call).length ∧
    (release call).any Act.iscleanup = false := by
  unfold release
  cases istaskcreate call with
  | true => exact ⟨rfl, rfl, rfl, rfl⟩
  | false => exact ⟨rfl, rfl, rfl, rfl⟩

/-- A call that is refused without a pid for the clean-up. -/
theorem not_fulfilled_refuse (call : Call) (result message : Str) :
    ¬ Fulfilled (.gate :: (lock call ++ (refuse result message ++ release call))) := by
  have ⟨quiet, free, released, uncleaned⟩ := release_counts call
  have cleaned := fulfilled_answered (str "error: " ++ result) (.error message) quiet free released
  rw [uncleaned] at cleaned
  exact fun fulfilled => nomatch cleaned.1 fulfilled

theorem fulfilled_refuse (call : Call) (result message : Str) (mypid : Nat) :
    Fulfilled (.gate :: (lock call ++ (refuse result message ++ .cleanup mypid :: release call))) := by
  have ⟨quiet, free, released, _⟩ := release_counts call
  have answered := @fulfilled_answered call (.cleanup mypid :: release call)
    (str "error: " ++ result) (.error message) quiet free released
  exact answered.2 rfl

theorem fulfilled_result (call : Call) (result : Str) (answer : Except Str Nat) (mypid : Nat) :
    Fulfilled (.gate :: (lock call ++
      .store result :: .reply answer :: (release call ++ [.cleanup mypid]))) := by
  have ⟨quiet, free, released, uncleaned⟩ := release_counts call
  apply (fulfilled_answered result answer _ _ _).2
  · rw [any_append, uncleaned]
    rfl
  · rw [countP_append, quiet]
    rfl
  · rw [countP_append, free]
    rfl
  · rw [countP_append, released]
    rfl

/-- A call whose tool raises an exception is not answered. -/
theorem not_fulfilled_raised (call : Call) : ¬ Fulfilled (.gate :: (lock call ++ [])) := by
  intro fulfilled
  have replied := fulfilled.replied
  unfold lock at replied
  split at replied
  · exact nomatch replied
  · exact nomatch replied

/-- A call does what it owes for these outcomes, and for no others. -/
theorem fulfilled_iff (mountpt : Str) (call : Call) (o : Outcome) :
    Fulfilled (asyncexec mountpt call o) ↔ Good mountpt call o := by
  unfold asyncexec work Good
  cases forked : o.fork with
  | none => exact iff_of_false (not_fulfilled_refuse _ _ _) fun good => nomatch good.1
  | some mypid =>
    have isForked : ∃ pid, some mypid = some pid := ⟨mypid, rfl⟩
    cases isolated : o.env with
    | some enverr =>
      exact iff_of_true (fulfilled_refuse ..) ⟨isForked, .inl nofun⟩
    | none =>
      simp only [ne_eq, not_true_eq_false, false_or, isForked, true_and]
      by_cases nodevs : ¬ call.tool = str "exec" ∧ o.nodevs = false
      · rw [if_pos nodevs]
        refine iff_of_false (not_fulfilled_refuse _ _ _) fun good => ?_
        rcases good.1 with exec | yes
        · exact nodevs.1 exec
        · exact absurd (yes.symm.trans nodevs.2) nofun
      by_cases bind : ¬ mountpt = str "/tool" ∧ o.bind = false
      · rw [if_neg nodevs, if_pos bind]
        refine iff_of_false (not_fulfilled_refuse _ _ _) fun good => ?_
        rcases good.2.1 with tool | yes
        · exact bind.1 tool
        · exact absurd (yes.symm.trans bind.2) nofun
      rw [if_neg nodevs, if_neg bind]
      have device : call.tool = str "exec" ∨ o.nodevs = true :=
        (Classical.em (call.tool = str "exec")).imp_right fun other =>
          Bool.eq_true_of_not_eq_false fun failed => nodevs ⟨other, failed⟩
      have bound : mountpt = str "/tool" ∨ o.bind = true :=
        (Classical.em (mountpt = str "/tool")).imp_right fun other =>
          Bool.eq_true_of_not_eq_false fun failed => bind ⟨other, failed⟩
      cases restricted : (if istaskcreate call = true then none else o.restrict) with
      | some nserr =>
        refine iff_of_true (fulfilled_refuse _ _ _ _) ⟨device, bound, .inl ?_⟩
        split at restricted
        · exact nomatch restricted
        · rename_i plain
          exact ⟨Bool.eq_false_iff.2 plain, fun passed => nomatch restricted.symm.trans passed⟩
      | none =>
        cases executed : o.exec with
        | some result =>
          exact iff_of_true (fulfilled_result _ _ _ _) ⟨device, bound, .inr nofun⟩
        | none =>
          refine iff_of_false (not_fulfilled_raised call) fun good => ?_
          rcases good.2.2 with ⟨plain, refused⟩ | returned
          · rw [plain] at restricted
            exact refused restricted
          · exact returned rfl

/-! ### Any number of workers -/

structure Worker where
  call : Call
  outcome : Outcome
  done : List Act
  rest : List Act

/-- The workers, and what they share: the gate, the lock and the channel to the clean-up. -/
structure System where
  workers : List Worker
  gate : Bool
  locked : Bool
  cleaning : List Nat

def start : System := ⟨[], false, false, []⟩

/-- What an act does to what is shared, if it need not wait. -/
def Act.effect (s : System) : Act → Option System
  | .gate => if s.gate then some s else none
  | .lock => if s.locked then none else some { s with locked := true }
  | .store _ => some s
  | .reply _ => some s
  | .release => if s.locked then some { s with locked := false } else none
  | .cleanup pid =>
    if s.cleaning.length < 32 then some { s with cleaning := s.cleaning ++ [pid] } else none

inductive Step where
  | accept (call : Call) (o : Outcome)
  | opened
  | act (i : Nat)
  | drain

def perform (mountpt : Str) (s : System) : Step → Option System
  | .accept call o =>
    some { s with workers := s.workers ++ [⟨call, o, [], asyncexec mountpt call o⟩] }
  | .opened => some { s with gate := true }
  | .act i =>
    match s.workers[i]? with
    | some ⟨call, o, done, act :: rest⟩ =>
      (act.effect s).map fun s =>
        { s with workers := s.workers.set i ⟨call, o, done ++ [act], rest⟩ }
    | _ => none
  | .drain =>
    match s.cleaning with
    | [] => none
    | _ :: more => some { s with cleaning := more }

def Meets (mountpt : Str) (_ : System) : Step → Prop
  | .accept call o => Good mountpt call o
  | _ => True

def Step.own : Step → Prop
  | .act _ => True
  | .drain => True
  | _ => False

/-- The acts that are left, and the pids that are not yet drained. -/
def left (s : System) : Nat :=
  2 * (s.workers.map fun w => w.rest.length).sum + s.cleaning.length

def total (kind : Act → Bool) (s : System) : Nat :=
  (s.workers.map fun w => w.done.countP kind).sum

structure Inv (mountpt : Str) (s : System) : Prop where
  whole : ∀ w ∈ s.workers, asyncexec mountpt w.call w.outcome = w.done ++ w.rest ∧
    Good mountpt w.call w.outcome
  held : total Act.islock s = total Act.isrelease s + if s.locked then 1 else 0

theorem sum_set {α : Type} (f : α → Nat) {xs : List α} {i : Nat} {old : α} (new : α)
    (here : xs[i]? = some old) : ((xs.set i new).map f).sum + f old = (xs.map f).sum + f new := by
  induction xs generalizing i with
  | nil => exact nomatch here
  | cons _ _ ih =>
    cases i with
    | zero =>
      rw [getElem?_cons_zero] at here
      rw [set_cons_zero, map_cons, map_cons, sum_cons, sum_cons,
        Option.some.inj here]
      omega
    | succ _ =>
      have later := ih here
      rw [set_cons_succ, map_cons, map_cons, sum_cons, sum_cons]
      omega

variable {s : System} {act : Act}

theorem effect_eq {after : System} (done : act.effect s = some after) :
    after.workers = s.workers ∧ after.cleaning.length ≤ s.cleaning.length + 1 ∧
      ([act].countP Act.islock + if s.locked then 1 else 0) =
        [act].countP Act.isrelease + if after.locked then 1 else 0 := by
  cases act with
  | gate | lock | release | cleanup _ =>
    simp only [Act.effect] at done
    split at done
    · first
        | cases done; simp_all [Act.islock, Act.isrelease]
        | exact nomatch done
    · first
        | cases done; simp_all [Act.islock, Act.isrelease]
        | exact nomatch done
  | store _ | reply _ =>
    cases done
    exact ⟨rfl, Nat.le_succ _, rfl⟩

/-! ### Every run -/

def Act.isplain (call : Call) : Act → Bool
  | .gate => false
  | .lock => false
  | .release => istaskcreate call
  | _ => true

theorem work_plain (mountpt : Str) (call : Call) (o : Outcome) :
    ∀ act ∈ work mountpt call o, act.isplain call = true := by
  have released : ∀ act ∈ release call, act.isplain call = true := by
    unfold release
    intro act member
    split at member
    · rename_i task
      exact (mem_singleton.1 member) ▸ task
    · exact absurd member not_mem_nil
  have plain : ∀ acts : List Act, acts.all (Act.isplain call) = true →
      ∀ act ∈ acts ++ release call, act.isplain call = true := by
    intro acts every act member
    rcases mem_append.1 member with first | second
    · exact all_eq_true.1 every act first
    · exact released act second
  unfold work refuse
  split
  · exact plain [_, _] rfl
  split
  · exact plain [_, _, _] rfl
  split
  · exact plain [_, _] rfl
  split
  · exact plain [_, _] rfl
  split
  · exact plain [_, _, _] rfl
  split
  · exact nofun
  intro act member
  rcases mem_append.1 (show act ∈ [_, _] ++ _ ++ [_] from member) with first | last
  · exact plain [_, _] rfl act first
  · exact (mem_singleton.1 last) ▸ rfl

variable {mountpt : Str} {rest : List Act}

/-- A worker that has locked has released once at most, and what is left to it is plain; one that
has not locked has not released. -/
theorem phases {call : Call} {o : Outcome} {done : List Act}
    (whole : asyncexec mountpt call o = done ++ rest) (good : Good mountpt call o) :
    done.countP Act.isrelease ≤ done.countP Act.islock ∧
      (0 < done.countP Act.islock → ∀ act ∈ rest, act.isplain call = true) := by
  have plain := work_plain mountpt call o
  have even := ((fulfilled_iff mountpt call o).2 good).unlocked
  have locks : (work mountpt call o).countP Act.islock = 0 := by
    rw [countP_eq_zero]
    intro act member is
    have fits := plain act member
    cases act with
    | lock => exact nomatch fits
    | _ => exact nomatch is
  have parts := congrArg (List.countP Act.isrelease) whole
  have parts' := congrArg (List.countP Act.islock) whole
  rw [countP_append] at parts parts'
  have sum : (asyncexec mountpt call o).countP Act.islock = (lock call).length := by
    unfold asyncexec lock
    cases istaskcreate call with
    | true => simp [countP_cons, Act.islock, locks]
    | false => exact locks
  unfold lock at sum
  cases task : istaskcreate call with
  | false =>
    rw [task, if_neg nofun, length_nil] at sum
    exact ⟨by omega, fun locked => by omega⟩
  | true =>
    rw [task, if_pos rfl, length_singleton] at sum
    unfold asyncexec lock at whole
    rw [task, if_pos rfl] at whole
    match done, whole with
    | [], _ => exact ⟨Nat.le_refl _, fun locked => absurd locked (Nat.lt_irrefl _)⟩
    | [first], whole =>
      rw [← (List.cons.inj whole).1]
      exact ⟨Nat.le_refl _, fun locked => absurd locked (Nat.lt_irrefl _)⟩
    | first :: second :: done, whole =>
      have ⟨_, whole⟩ := List.cons.inj whole
      have ⟨isLock, behind⟩ := List.cons.inj whole
      have behind : work mountpt call o = done ++ rest := behind
      have locked : 0 < (first :: second :: done).countP Act.islock :=
        countP_pos_iff.2 ⟨second, mem_cons_of_mem _ mem_cons_self, isLock ▸ rfl⟩
      refine ⟨by omega, fun _ act member => plain act ?_⟩
      rw [behind]
      exact mem_append_right _ member

theorem inv_perform (mountpt : Str) (s : System) (step : Step) (after : System)
    (inv : Inv mountpt s) (meets : Meets mountpt s step)
    (performed : perform mountpt s step = some after) :
    Inv mountpt after ∧ (step.own → left after < left s) := by
  cases step with
  | accept call o =>
    cases performed
    refine ⟨⟨fun w member => ?_, ?_⟩, nofun⟩
    · rcases mem_append.1 member with earlier | new
      · exact inv.whole w earlier
      · rw [mem_singleton.1 new]
        exact ⟨rfl, meets⟩
    have held := inv.held
    unfold total at held ⊢
    simp only [map_append, sum_append, map_cons, map_nil]
    exact held
  | opened =>
    cases performed
    exact ⟨⟨inv.whole, inv.held⟩, nofun⟩
  | drain =>
    unfold perform at performed
    cases cleaning : s.cleaning with
    | nil =>
      simp only [cleaning] at performed
      exact nomatch performed
    | cons pid more =>
      simp only [cleaning] at performed
      rw [← Option.some.inj performed]
      refine ⟨⟨inv.whole, inv.held⟩, fun _ => ?_⟩
      unfold left
      rw [cleaning, length_cons]
      exact Nat.lt_succ_self _
  | act i =>
    simp only [perform] at performed
    split at performed
    · rename_i call o done act rest here
      have ⟨mid, effect, same⟩ := Option.map_eq_some_iff.1 performed
      have ⟨workers, cleaning, balance⟩ := effect_eq effect
      rw [← same, workers]
      have counted := fun kind : Act → Bool =>
        sum_set (fun w : Worker => w.done.countP kind) ⟨call, o, done ++ [act], rest⟩ here
      have remaining :=
        sum_set (fun w : Worker => w.rest.length) ⟨call, o, done ++ [act], rest⟩ here
      simp only [countP_append] at counted
      have locks := counted Act.islock
      have releases := counted Act.isrelease
      have held := inv.held
      refine ⟨⟨fun w member => ?_, ?_⟩, fun _ => ?_⟩
      · rcases mem_or_eq_of_mem_set member with earlier | new
        · exact inv.whole w earlier
        · have ⟨whole, good⟩ := inv.whole _ (mem_of_getElem? here)
          rw [new]
          exact ⟨by rw [whole, append_assoc]; rfl, good⟩
      · unfold total at held ⊢
        simp only
        omega
      · unfold left
        simp only [length_cons] at remaining ⊢
        omega
    · exact nomatch performed

theorem act_ready {w : Worker} (member : w ∈ s.workers) (next : w.rest = act :: rest)
    (ready : (act.effect s).isSome = true ∨ ∃ pid, act = .cleanup pid) :
    ∃ step after, step.own ∧ perform mountpt s step = some after := by
  have ⟨i, inside, here⟩ := getElem_of_mem member
  have found : s.workers[i]? = some w := by rw [getElem?_eq_getElem inside, here]
  have acts : ∀ mid, act.effect s = some mid → ∃ after, perform mountpt s (.act i) = some after := by
    intro mid effect
    have ⟨_, _, _, rest'⟩ := w
    have next : rest' = act :: rest := next
    rw [next] at found
    simp only [perform, found, effect]
    exact ⟨_, rfl⟩
  rcases ready with free | ⟨pid, cleanup⟩
  · have ⟨mid, effect⟩ := Option.isSome_iff_exists.1 free
    have ⟨after, performed⟩ := acts mid effect
    exact ⟨.act i, after, trivial, performed⟩
  cases cleaning : s.cleaning with
  | cons _ more =>
    refine ⟨.drain, { s with cleaning := more }, trivial, ?_⟩
    simp only [perform, cleaning]
  | nil =>
    have ⟨after, performed⟩ := acts { s with cleaning := [pid] } (by
      rw [cleanup, Act.effect, cleaning]
      rfl)
    exact ⟨.act i, after, trivial, performed⟩

/-- While an act is left, a step can be taken. -/
theorem Inv.ready (inv : Inv mountpt s) (gate : s.gate = true)
    (more : ∃ w ∈ s.workers, w.rest ≠ []) :
    ∃ step after, step.own ∧ perform mountpt s step = some after := by
  have held := inv.held
  unfold total at held
  cases locked : s.locked with
  | true =>
    -- the worker that holds the lock can go on
    rw [locked, if_pos rfl] at held
    have holder : ∃ w ∈ s.workers, w.done.countP Act.isrelease < w.done.countP Act.islock := by
      by_contra none_
      have few := sum_le_sum (l := s.workers) (f := fun w => w.done.countP Act.islock)
        (g := fun w => w.done.countP Act.isrelease)
        fun w member => Nat.le_of_not_lt fun less => none_ ⟨w, member, less⟩
      omega
    have ⟨w, member, less⟩ := holder
    have ⟨whole, good⟩ := inv.whole w member
    have even := ((fulfilled_iff mountpt w.call w.outcome).2 good).unlocked
    have plain := (phases whole good).2 (by omega)
    rw [whole, countP_append, countP_append] at even
    cases next : w.rest with
    | nil =>
      rw [next] at even
      simp only [countP_nil] at even
      omega
    | cons act _ =>
      have fits := plain act (next ▸ mem_cons_self)
      apply act_ready member next
      cases act with
      | gate => exact nomatch fits
      | lock => exact nomatch fits
      | store _ => exact .inl rfl
      | reply _ => exact .inl rfl
      | release => exact .inl (by rw [Act.effect, if_pos locked]; rfl)
      | cleanup pid => exact .inr ⟨pid, rfl⟩
  | false =>
    rw [locked, if_neg nofun] at held
    have ⟨w, member, some'⟩ := more
    cases next : w.rest with
    | nil => exact absurd next some'
    | cons act rest =>
      apply act_ready member next
      cases act with
      | gate => exact .inl (by rw [Act.effect, if_pos gate]; rfl)
      | lock => exact .inl (by rw [Act.effect, if_neg (by rw [locked]; nofun)]; rfl)
      | store _ => exact .inl rfl
      | reply _ => exact .inl rfl
      | cleanup pid => exact .inr ⟨pid, rfl⟩
      | release =>
        -- whoever is to release has locked
        have ⟨whole, good⟩ := inv.whole w member
        rw [next] at whole
        have behind : asyncexec mountpt w.call w.outcome = (w.done ++ [.release]) ++ rest := by
          rw [whole, append_assoc]
          rfl
        have less := (phases behind good).1
        simp only [countP_append] at less
        have one : [Act.release].countP Act.isrelease = 1 := rfl
        have zero : [Act.release].countP Act.islock = 0 := rfl
        have many := sum_lt_sum (l := s.workers)
          (fun w : Worker => w.done.countP Act.isrelease)
          (fun w : Worker => w.done.countP Act.islock)
          (fun w member => (phases (inv.whole w member).1 (inv.whole w member).2).1)
          ⟨w, member, by omega⟩
        omega

/-- A call does what it owes exactly for the good outcomes. In every run of calls with good
outcomes, each call that has ended has done so, the lock is free when all have, a step can be
taken until then, and there are only so many to take. -/
theorem calls_answered (mountpt : Str) :
    (∀ call o, Fulfilled (asyncexec mountpt call o) ↔ Good mountpt call o) ∧
    ∀ steps s, Each (perform mountpt) (Meets mountpt) start steps →
      run (perform mountpt) start steps = some s →
      (∀ w ∈ s.workers, w.rest = [] → Fulfilled w.done) ∧
      ((∀ w ∈ s.workers, w.rest = []) → s.locked = false) ∧
      (s.gate = true → (∃ w ∈ s.workers, w.rest ≠ []) →
        ∃ step after, step.own ∧ perform mountpt s step = some after) ∧
      ∀ step after, step.own → perform mountpt s step = some after → left after < left s := by
  refine ⟨fulfilled_iff mountpt, fun steps s each reached => ?_⟩
  have inv : Inv mountpt s := run_keeps
    (fun s step after inv meets performed => (inv_perform mountpt s step after inv meets performed).1)
    ⟨fun w member => absurd member not_mem_nil, rfl⟩ each reached
  have ended : ∀ w ∈ s.workers, w.rest = [] → Fulfilled w.done := by
    intro w member finished
    have ⟨whole, good⟩ := inv.whole w member
    rw [finished, append_nil] at whole
    exact whole ▸ (fulfilled_iff mountpt w.call w.outcome).2 good
  refine ⟨ended, fun all => ?_, inv.ready, fun step after own performed => ?_⟩
  · have held := inv.held
    have even : total Act.islock s = total Act.isrelease s :=
      congrArg List.sum (map_congr_left fun w member => (ended w member (all w member)).unlocked)
    cases locked : s.locked with
    | false => rfl
    | true =>
      rw [locked, if_pos rfl] at held
      omega
  · cases step with
    | act i => exact (inv_perform mountpt s (.act i) after inv trivial performed).2 trivial
    | drain => exact (inv_perform mountpt s .drain after inv trivial performed).2 trivial
    | accept _ _ => exact own.elim
    | opened => exact own.elim

/-- A call of `read`, and outcomes that are good. -/
def readcall : Call := ⟨4, str "read", str "notes"⟩

def readoutcome : Outcome := ⟨some 7, none, true, true, none, some (str "text")⟩

theorem calls_answered_read :
    ∃ s, run (perform (str "/tool")) start
        [.opened, .accept readcall readoutcome, .act 0, .act 0, .act 0, .act 0] = some s ∧
      s.locked = false ∧ ∀ w ∈ s.workers, Fulfilled w.done := by
  have good : Good (str "/tool") readcall readoutcome :=
    ⟨⟨7, rfl⟩, .inr ⟨.inr rfl, .inl rfl, .inr nofun⟩⟩
  have each : Each (perform (str "/tool")) (Meets (str "/tool")) start
      [.opened, .accept readcall readoutcome, .act 0, .act 0, .act 0, .act 0] :=
    Each.cons trivial rfl (Each.cons good rfl (Each.cons trivial rfl (Each.cons trivial rfl
      (Each.cons trivial rfl (Each.cons trivial rfl (each_nil _))))))
  have ⟨ended, free, _⟩ := (calls_answered (str "/tool")).2 _ _ each rfl
  refine ⟨_, rfl, free ?_, fun w member => ended w member ?_⟩
  · intro _ member
    rw [mem_singleton.1 member]
  · rw [mem_singleton.1 member]

/-- A `create` whose tool raises an exception: the worker ends without a reply, and the lock is held
for ever. A call whose `NODEVS` fails never reaches the clean-up. -/
theorem raised_call_unanswered :
    (∃ s, run (perform (str "/tool")) start
        [.opened, .accept ⟨6, str "task", str "create"⟩ ⟨some 7, none, true, true, none, none⟩,
          .act 0, .act 0] = some s ∧
      (∀ w ∈ s.workers, w.rest = [] ∧ ¬ Fulfilled w.done) ∧ s.locked = true) ∧
    ¬ Fulfilled (asyncexec (str "/tool") readcall { readoutcome with nodevs := false }) := by
  refine ⟨⟨_, rfl, ?_, rfl⟩, fun fulfilled => nomatch fulfilled.cleaned⟩
  intro _ member
  rw [mem_singleton.1 member]
  exact ⟨rfl, fun fulfilled => nomatch fulfilled.replied⟩

end Infernode.Toolcalls
