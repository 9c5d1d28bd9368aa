import Infernode.Emu.Exqlost

/-!
What one step does to the requests, wherever they are.

Owns: the requests seen without their links, and the effect of each step on them, on the work
lists, the connections and the log.
-/

namespace Infernode.Exportq

open Links Runs

def Exq.pending (c : Exq) : List Request :=
  match c.stage with
  | .flushing fq => fq :: c.flush
  | _ => c.flush

/-- A reply to the request may still be sent. -/
def Exq.unreplied (c : Exq) : Prop :=
  c.stage = .queued ∨ c.stage = .running ∨ ∃ type, c.stage = .replying type

/-- The message that `exportproc` has in hand. -/
def Proc.held : Proc → List Request
  | .read q => [q]
  | .searching fq => [fq]
  | .answering fq => [fq]
  | _ => []

inductive Effect (s t : State) : Prop
  | receive (q : Request) (reading : s.proc q.export = .reading) (fresh : q.id = s.received)
      (received : t.received = s.received + 1) (core : ∀ a, t.core a = s.core a)
      (work : t.work = s.work) (proc : t.proc = Function.update s.proc q.export (.read q))
      (log : t.log = .received q :: s.log)
  | hangup (e : Nat) (reading : s.proc e = .reading) (received : t.received = s.received)
      (core : ∀ a, t.core a = s.core a) (work : t.work = s.work)
      (proc : t.proc = Function.update s.proc e .closing) (log : t.log = s.log)
  | refuse (e : Nat) (q : Request) (read : s.proc e = .read q) (other : q.fcall.type ≠ Tflush)
      (received : t.received = s.received) (core : ∀ a, t.core a = s.core a)
      (work : t.work = s.work) (proc : t.proc = Function.update s.proc e .reading)
      (log : t.log = .sent q.id Rerror :: s.log)
  | accept (e : Nat) (q : Request) (a : Addr) (read : s.proc e = .read q)
      (other : q.fcall.type ≠ Tflush) (unused : s.core a = none)
      (received : t.received = s.received)
      (core : ∀ b, t.core b = if b = a then some ⟨q, none, [], false, .queued⟩ else s.core b)
      (work : t.work = s.work) (proc : t.proc = Function.update s.proc e .reading)
      (log : t.log = .accepted q :: s.log)
  | discard (e : Nat) (fq : Request) (a : Addr) (c : Exq) (read : s.proc e = .read fq)
      (flush : fq.fcall.type = Tflush) (cell : s.core a = some c) (queued : c.stage = .queued)
      (names : Names fq c.request) (received : t.received = s.received)
      (core : ∀ b, t.core b = if b = a then none else s.core b) (work : t.work = s.work)
      (proc : t.proc = Function.update s.proc e (.answering fq))
      (log : t.log = .discarded c.request.id :: s.log)
  | unfound (e : Nat) (fq : Request) (read : s.proc e = .read fq)
      (flush : fq.fcall.type = Tflush)
      (unnamed : ∀ a c, s.core a = some c → c.stage = .queued → ¬ Names fq c.request)
      (received : t.received = s.received) (core : ∀ b, t.core b = s.core b)
      (work : t.work = s.work) (proc : t.proc = Function.update s.proc e (.searching fq))
      (log : t.log = s.log)
  | join (e : Nat) (fq : Request) (a : Addr) (c : Exq) (search : s.proc e = .searching fq)
      (first : (s.work e).find? (named s fq) = some a) (cell : s.core a = some c)
      (unfinished : c.stage ≠ .finished) (received : t.received = s.received)
      (core : ∀ b, t.core b =
        if b = a then some { c with flush := c.flush ++ [fq] } else s.core b)
      (work : t.work = s.work) (proc : t.proc = Function.update s.proc e .reading)
      (log : t.log = s.log)
  | late (e : Nat) (fq : Request) (search : s.proc e = .searching fq)
      (done : ∀ a c, (s.work e).find? (named s fq) = some a → s.core a = some c →
        c.stage = .finished)
      (received : t.received = s.received) (core : ∀ b, t.core b = s.core b)
      (work : t.work = s.work) (proc : t.proc = Function.update s.proc e (.answering fq))
      (log : t.log = s.log)
  | answer (e : Nat) (fq : Request) (answering : s.proc e = .answering fq)
      (received : t.received = s.received) (core : ∀ b, t.core b = s.core b)
      (work : t.work = s.work) (proc : t.proc = Function.update s.proc e .reading)
      (log : t.log = .sent fq.id Rflush :: s.log)
  | sweep (e : Nat) (ids : List Nat) (closing : s.proc e = .closing)
      (received : t.received = s.received)
      (gone : ∀ a c, s.core a = some c → c.stage = .queued → c.request.export = e →
        t.core a = none)
      (kept : ∀ a, (∀ c, s.core a = some c → c.stage = .queued → c.request.export ≠ e) →
        t.core a = s.core a)
      (work : t.work = s.work) (proc : t.proc = Function.update s.proc e .abandoning)
      (log : t.log = ids.map Event.abandoned ++ s.log)
  | shut (e : Nat) (abandoning : s.proc e = .abandoning) (received : t.received = s.received)
      (core : ∀ a, t.core a =
        if a ∈ s.work e then (s.core a).map fun c => { c with shut := true } else s.core a)
      (work : t.work = Function.update s.work e [])
      (proc : t.proc = Function.update s.proc e .closed) (log : t.log = s.log)
  | dispatch (a : Addr) (c : Exq) (cell : s.core a = some c) (queued : c.stage = .queued)
      (longest : ∃ rest, waiting s.log = c.request :: rest)
      (received : t.received = s.received)
      (core : ∀ b, t.core b = if b = a then some { c with stage := .running } else s.core b)
      (work : t.work = Function.update s.work c.request.export (a :: s.work c.request.export))
      (proc : t.proc = s.proc) (log : t.log = .dispatched c.request.id :: s.log)
  | slave (a : Addr) (c d : Exq) (cell : s.core a = some c) (started : c.stage ≠ .queued)
      (request : d.request = c.request) (still : d.shut = c.shut) (left : d.stage ≠ .queued)
      (pending : d.pending = c.pending) (unreplied : d.unreplied → c.unreplied)
      (dropped : c.unreplied → ¬ d.unreplied → c.shut = true ∨ c.pending ≠ [])
      (finished : d.stage = .finished → d.flush = [] ∨ d.shut = true)
      (received : t.received = s.received)
      (core : ∀ b, t.core b = if b = a then some d else s.core b) (work : t.work = s.work)
      (proc : t.proc = s.proc) (log : t.log = s.log)
  | reply (a : Addr) (c : Exq) (type : Nat) (cell : s.core a = some c)
      (replying : c.stage = .replying type) (received : t.received = s.received)
      (core : ∀ b, t.core b = if b = a then some { c with stage := .relocking } else s.core b)
      (work : t.work = s.work) (proc : t.proc = s.proc)
      (log : t.log = .sent c.request.id type :: s.log)
  | replyFlush (a : Addr) (c : Exq) (fq : Request) (cell : s.core a = some c)
      (flushing : c.stage = .flushing fq) (received : t.received = s.received)
      (core : ∀ b, t.core b = if b = a then some { c with stage := .relocking } else s.core b)
      (work : t.work = s.work) (proc : t.proc = s.proc)
      (log : t.log = .sent fq.id Rflush :: s.log)
  | finish (a : Addr) (c : Exq) (cell : s.core a = some c) (finished : c.stage = .finished)
      (received : t.received = s.received)
      (core : ∀ b, t.core b = if b = a then none else s.core b)
      (work : t.work =
        Function.update s.work c.request.export ((s.work c.request.export).erase a))
      (proc : t.proc = s.proc) (log : t.log = s.log)

/-! ### Requests without their links -/

variable {s t : State} {a : Addr} {c : Exq} {cells : List Addr} {e : Nat}

theorem State.core_eq_some (found : s.mem a = some c) :
    s.core a = some { c with next := none } := by
  simp [State.core, found]

theorem State.core_eq_none : s.core a = none ↔ s.mem a = none := by
  simp [State.core]

theorem State.mem_of_core (cell : s.core a = some c) :
    ∃ d, s.mem a = some d ∧ c = { d with next := none } := by
  have ⟨d, found, same⟩ := Option.map_eq_some_iff.1 cell
  exact ⟨d, found, same.symm⟩

theorem State.core_modify (s : State) (a : Addr) (change : Exq → Exq)
    (links : ∀ c, { change c with next := none } = change { c with next := none }) (b : Addr) :
    (s.modify a change).core b = if b = a then (s.core a).map change else s.core b := by
  by_cases here : b = a
  · subst here
    simp only [State.core, State.modify, Function.update_self, Option.map_map, if_pos]
    congr 1
    funext c
    exact links c
  · simp [State.core, State.modify, here]

theorem State.core_free (s : State) (a b : Addr) :
    (s.free a).core b = if b = a then none else s.core b := by
  by_cases here : b = a
  · subst here
    simp [State.core, State.free]
  · simp [State.core, State.free, here]

theorem named_iff {fq : Request} :
    named s fq a = true ↔ ∃ c, s.core a = some c ∧ Names fq c.request := by
  unfold named
  cases found : s.mem a with
  | none => simp [State.core, found]
  | some _ => simp [State.core, found, Names]

theorem Strung.mem_of_core (strung : Strung s cells) (cell : s.core a = some c)
    (queued : c.stage = .queued) : a ∈ cells := by
  obtain ⟨d, found, rfl⟩ := State.mem_of_core cell
  rw [strung.queued a]
  have stage : d.stage = .queued := queued
  simp [State.entry, found, stage]

theorem State.core_of_entry {q : Request} {next : Option Addr}
    (entry : s.entry a = some (q, next)) :
    ∃ c, s.core a = some c ∧ c.stage = .queued ∧ c.request = q := by
  have ⟨_, found, queued, same, _⟩ := State.entry_eq_some.1 entry
  exact ⟨_, State.core_eq_some found, queued, same⟩

theorem Exq.settle_link (c : Exq) :
    { c.settle with next := none } = Exq.settle { c with next := none } := by
  unfold Exq.settle
  cases flush : c.flush with
  | nil => rfl
  | cons _ _ => cases shut : c.shut <;> rfl

theorem Exq.completed_link (c : Exq) (failed : Bool) :
    { c.completed failed with next := none } = Exq.completed { c with next := none } failed := by
  unfold Exq.completed
  by_cases shut : c.shut = true
  · rw [if_pos shut, if_pos shut]
  rw [if_neg shut, if_neg shut]
  by_cases answers : c.flush = [] ∨ !failed
  · rw [if_pos answers, if_pos answers]
  · rw [if_neg answers, if_neg answers]
    exact c.settle_link

/-! ### What the slave does next -/

theorem Exq.settle_spec (c : Exq) (relocking : c.pending = c.flush) :
    c.settle.request = c.request ∧ c.settle.shut = c.shut ∧ c.settle.stage ≠ .queued ∧
      c.settle.pending = c.pending ∧ ¬ c.settle.unreplied ∧
      (c.settle.stage = .finished → c.settle.flush = [] ∨ c.settle.shut = true) := by
  rw [relocking]
  unfold Exq.settle
  cases flush : c.flush with
  | nil => simp [Exq.pending, Exq.unreplied]
  | cons _ _ =>
    cases shut : c.shut <;> simp [Exq.pending, Exq.unreplied]

theorem Exq.completed_spec (c : Exq) (failed : Bool) (running : c.stage = .running) :
    (c.completed failed).request = c.request ∧ (c.completed failed).shut = c.shut ∧
      (c.completed failed).stage ≠ .queued ∧ (c.completed failed).pending = c.pending ∧
      (¬ (c.completed failed).unreplied → c.shut = true ∨ c.pending ≠ []) ∧
      ((c.completed failed).stage = .finished →
        (c.completed failed).flush = [] ∨ (c.completed failed).shut = true) := by
  have pending : c.pending = c.flush := by simp [Exq.pending, running]
  unfold Exq.completed
  by_cases shut : c.shut = true
  · rw [if_pos shut]
    simp [Exq.pending, running, shut]
  rw [if_neg shut]
  by_cases answers : c.flush = [] ∨ !failed
  · rw [if_pos answers]
    simp [Exq.pending, running, Exq.unreplied]
  rw [if_neg answers]
  have ⟨request, still, left, kept, _, finished⟩ := c.settle_spec pending
  rw [not_or] at answers
  exact ⟨request, still, left, kept, fun _ => Or.inr (pending ▸ answers.1), finished⟩

/-! ### Each step has its effect -/

theorem serve_effect (sound : Sound s cells) (stepped : serve s e a = some t) : Effect s t := by
  unfold serve at stepped
  split at stepped
  · rename_i q reading
    have own := sound.numbered.read_export e q reading
    split_ifs at stepped with refusal flush unused
    · cases stepped
      refine .refuse e q reading ?_ rfl (fun _ => rfl) rfl rfl rfl
      intro flush
      simp [refused, flush, Tflush, Topen, Tcreate, Twrite, Tremove, Twstat] at refusal
    · cases stepped
      rcases flushQueued_eq sound.strung sound.numbered.few q with
        ⟨result, rejected⟩ | ⟨front, b, back, r, next, split, entry, names, _, result⟩
      · rw [result, own]
        refine .unfound e q reading flush ?_ rfl (fun _ => rfl) rfl rfl rfl
        intro b c cell queued names
        have accepted := named_iff.2 ⟨c, cell, names⟩
        rw [rejected b (sound.strung.mem_of_core cell queued)] at accepted
        cases accepted
      rw [result, own]
      obtain ⟨c, cell, queued, same⟩ := State.core_of_entry entry
      subst same
      refine .discard e q b c reading flush cell queued names ?_ ?_ ?_ ?_ ?_
      · simp [State.setProc, State.emit]
      · intro other
        exact State.core_unlink s (endSlot none front) b other
      · simp [State.setProc, State.emit]
      · simp [State.setProc, State.emit]
      · simp [State.setProc, State.emit]
    · cases stepped
      refine .accept e q a reading flush (State.core_eq_none.2 unused) ?_ ?_ ?_ ?_ ?_
      · simp [State.setProc, State.emit, enqueue, State.alloc]
      · intro b
        have kept : (((enqueue s a q).emit (.accepted q)).setProc e .reading).core b =
            (s.alloc a ⟨q, none, [], false, .queued⟩).core b := by
          set fresh := s.alloc a ⟨q, none, [], false, .queued⟩
          set slot := if fresh.head = none then none else fresh.tail
          have second := State.core_setLink (fresh.setLink slot (some a)) (some a) none b
          exact second.trans (State.core_setLink fresh slot (some a) b)
        rw [kept]
        by_cases here : b = a
        · subst here
          simp [State.core, State.alloc]
        · simp [State.core, State.alloc, here]
      · simp [State.setProc, State.emit, enqueue, State.alloc]
      · simp [State.setProc, State.emit, enqueue, State.alloc]
      · simp [State.setProc, State.emit, enqueue, State.alloc]
  · cases stepped

theorem searchWork_effect (stepped : searchWork s e = some t) : Effect s t := by
  unfold searchWork at stepped
  split at stepped
  · rename_i fq search
    split at stepped
    · rename_i nothing
      cases stepped
      refine .late e fq search ?_ rfl (fun _ => rfl) rfl rfl rfl
      intro a c found
      rw [nothing] at found
      cases found
    rename_i a first
    split at stepped
    · cases stepped
    rename_i c found
    split_ifs at stepped with finished
    · cases stepped
      refine .late e fq search ?_ rfl (fun _ => rfl) rfl rfl rfl
      intro a' c' first' cell
      rw [first] at first'
      cases first'
      rw [State.core_eq_some found] at cell
      cases cell
      exact finished
    cases stepped
    refine .join e fq a { c with next := none } search first (State.core_eq_some found)
      finished rfl ?_ rfl rfl rfl
    intro b
    have core := State.core_modify s a (fun c => { c with flush := c.flush ++ [fq] })
      (fun _ => rfl) b
    rw [State.core_eq_some found] at core
    exact core
  · cases stepped

theorem shutQueued_effect (sound : Sound s cells) (stepped : shutQueued s e = some t) :
    Effect s t := by
  unfold shutQueued at stepped
  split at stepped
  · rename_i closing
    cases stepped
    obtain ⟨swept, _⟩ := unqueue_eq e [] cells (s.received + 1) sound.strung
      sound.numbered.waiting_distinct (by simp) (by
        rw [sound.strung.length_eq]
        exact Nat.lt_succ_of_le sound.numbered.few)
    obtain ⟨ids, log⟩ := swept.log
    refine .sweep e ids closing swept.received ?_ ?_ swept.work ?_ log
    · intro a c cell queued ours
      obtain ⟨d, found, rfl⟩ := State.mem_of_core cell
      have drops : (s.entry a).any (fun entry => entry.1.export = e) = true := by
        have stage : d.stage = .queued := queued
        simpa [State.entry, found, stage] using ours
      exact (swept.core a).trans (if_pos drops)
    · intro a foreign
      refine (swept.core a).trans (if_neg ?_)
      intro drops
      cases entry : s.entry a with
      | none => simp [entry] at drops
      | some pair =>
        obtain ⟨c, cell, queued, same⟩ := State.core_of_entry entry
        refine foreign c cell queued ?_
        rw [same]
        simpa [entry] using drops
    · show Function.update (unqueue e (s.received + 1) none s).proc e Proc.abandoning = _
      have proc : (unqueue e (s.received + 1) none s).proc = s.proc := swept.proc
      rw [proc]
  · cases stepped

theorem core_foldl_shut (cells : List Addr) (s : State) (b : Addr) :
    (cells.foldl (fun s a => s.modify a fun c => { c with shut := true }) s).core b =
      if b ∈ cells then (s.core b).map fun c => { c with shut := true } else s.core b := by
  induction cells generalizing s with
  | nil => simp
  | cons a rest ih =>
    rw [List.foldl_cons, ih, State.core_modify s a _ (fun _ => rfl)]
    by_cases here : b = a
    · subst here
      by_cases again : b ∈ rest <;> simp [again, Function.comp_def]
    · simp [here]

theorem foldl_shut_fields (cells : List Addr) (s : State) :
    let t := cells.foldl (fun s a => s.modify a fun c => { c with shut := true }) s
    t.received = s.received ∧ t.work = s.work ∧ t.proc = s.proc := by
  induction cells generalizing s with
  | nil => exact ⟨rfl, rfl, rfl⟩
  | cons _ _ ih => exact ih _

theorem shutWork_effect (stepped : shutWork s e = some t) : Effect s t := by
  unfold shutWork at stepped
  split at stepped
  · rename_i abandoning
    cases stepped
    have ⟨received, work, proc⟩ := foldl_shut_fields (s.work e) s
    refine .shut e abandoning received (core_foldl_shut (s.work e) s) ?_ ?_ ?_
    · simp [State.setWork, State.setProc, work]
    · simp [State.setWork, State.setProc, proc]
    · simp [State.setWork, State.setProc]
  · cases stepped

theorem dispatch_effect (sound : Sound s cells) (stepped : dispatch s = some t) : Effect s t := by
  have ⟨q, rest, waits, _, _⟩ := dispatch_waiting sound stepped
  have ⟨a, _, _, next, split, entry, _, c, found, same, shape⟩ := dispatch_sound sound stepped
  subst same
  have ⟨_, found', queued, _⟩ := State.entry_eq_some.1 entry
  rw [found] at found'
  cases found'
  have head : q = c.request := by
    have requests := sound.strung.requests
    rw [split, waits, List.map_cons, List.map_cons, found] at requests
    injection requests with first _
    cases first
    rfl
  subst head
  refine .dispatch a { c with next := none } (State.core_eq_some found) queued ⟨rest, waits⟩
    ?_ ?_ ?_ ?_ ?_
  · rw [shape]
    rfl
  · intro b
    have core := State.core_modify { s with head := c.next } a
      (fun c => { c with stage := .running }) (fun _ => rfl) b
    have here : State.core { s with head := c.next } a = some { c with next := none } :=
      State.core_eq_some found
    rw [here] at core
    rw [shape]
    exact core
  · rw [shape]
    rfl
  · rw [shape]
    rfl
  · rw [shape]
    rfl

theorem complete_effect {failed : Bool} (stepped : complete s a failed = some t) : Effect s t := by
  unfold complete at stepped
  split at stepped
  · rename_i c found
    split_ifs at stepped with running
    cases stepped
    have ⟨request, still, left, pending, dropped, finished⟩ :=
      Exq.completed_spec { c with next := none } failed running
    refine .slave a { c with next := none } (Exq.completed { c with next := none } failed)
      (State.core_eq_some found) (by simp [running]) request still left pending
      (fun _ => Or.inr (Or.inl running)) (fun _ => dropped) finished rfl ?_ rfl rfl rfl
    intro b
    have core := State.core_modify s a (Exq.completed · failed)
      (fun c => c.completed_link failed) b
    rw [State.core_eq_some found] at core
    exact core
  · cases stepped

theorem relock_effect (stepped : relock s a = some t) : Effect s t := by
  unfold relock at stepped
  split at stepped
  · rename_i c found
    split_ifs at stepped with relocking
    cases stepped
    have ⟨request, still, left, pending, replied, finished⟩ :=
      Exq.settle_spec { c with next := none } (by simp [Exq.pending, relocking])
    refine .slave a { c with next := none } (Exq.settle { c with next := none })
      (State.core_eq_some found) (by simp [relocking]) request still left pending
      (fun unreplied => absurd unreplied replied) ?_ finished rfl ?_ rfl rfl rfl
    · intro unreplied
      simp [Exq.unreplied, relocking] at unreplied
    intro b
    have core := State.core_modify s a Exq.settle Exq.settle_link b
    rw [State.core_eq_some found] at core
    exact core
  · cases stepped

private theorem core_relocking (s : State) (found : s.mem a = some c) (b : Addr) :
    (s.modify a fun c => { c with stage := .relocking }).core b =
      if b = a then some { c with next := none, stage := .relocking } else s.core b := by
  have core := State.core_modify s a (fun c => { c with stage := .relocking }) (fun _ => rfl) b
  rw [State.core_eq_some found] at core
  exact core

theorem step_effect {action : Action} (sound : Sound s cells) (stepped : step s action = some t) :
    Effect s t := by
  cases action with
  | receive e f =>
    simp only [step, receive] at stepped
    split at stepped
    · rename_i reading
      split_ifs at stepped
      · cases stepped
        exact .receive ⟨s.received, e, f⟩ reading rfl rfl (fun _ => rfl) rfl rfl rfl
      · cases stepped
        exact .hangup e reading rfl (fun _ => rfl) rfl rfl rfl
    · cases stepped
  | hangup e =>
    simp only [step, hangup] at stepped
    split at stepped
    · rename_i reading
      cases stepped
      exact .hangup e reading rfl (fun _ => rfl) rfl rfl rfl
    · cases stepped
  | serve e a => exact serve_effect sound stepped
  | searchWork e => exact searchWork_effect stepped
  | answer e =>
    simp only [step, answer] at stepped
    split at stepped
    · rename_i fq answering
      cases stepped
      exact .answer e fq answering rfl (fun _ => rfl) rfl rfl rfl
    · cases stepped
  | shutQueued e => exact shutQueued_effect sound stepped
  | shutWork e => exact shutWork_effect stepped
  | dispatch => exact dispatch_effect sound stepped
  | complete a failed => exact complete_effect stepped
  | reply a =>
    simp only [step, reply] at stepped
    split at stepped
    · rename_i c found
      split at stepped
      · rename_i type replying
        cases stepped
        have core := core_relocking s found
        exact .reply a { c with next := none } type (State.core_eq_some found) replying rfl
          core rfl rfl rfl
      · cases stepped
    · cases stepped
  | relock a => exact relock_effect stepped
  | replyFlush a =>
    simp only [step, replyFlush] at stepped
    split at stepped
    · rename_i c found
      split at stepped
      · rename_i fq flushing
        cases stepped
        have core := core_relocking s found
        exact .replyFlush a { c with next := none } fq (State.core_eq_some found) flushing rfl
          core rfl rfl rfl
      · cases stepped
    · cases stepped
  | finish a =>
    simp only [step, finish] at stepped
    split at stepped
    · rename_i c found
      split_ifs at stepped with finished
      cases stepped
      exact .finish a { c with next := none } (State.core_eq_some found) finished rfl
        (State.core_free _ a) rfl rfl rfl
    · cases stepped

end Infernode.Exportq
