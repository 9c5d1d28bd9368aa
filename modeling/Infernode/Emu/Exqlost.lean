import Infernode.Emu.Exqorder

/-!
Requests handed over.

Owns: how the waiting requests move up at each step, the property that no request is lost in
a run, and when a run has it.
-/

namespace Infernode.Exportq

open Links Runs List

/-! ### Moving up -/

theorem unqueue_log (e fuel : Nat) (last : Option Addr) (s : State) :
    ∃ ids : List Nat, (unqueue e fuel last s).log = ids.map Event.abandoned ++ s.log := by
  induction fuel generalizing last s with
  | zero => exact ⟨[], rfl⟩
  | succ fuel ih =>
    rw [unqueue]
    split
    · exact ⟨[], rfl⟩
    split
    · exact ⟨[], rfl⟩
    rename_i c _
    split
    · obtain ⟨ids, shape⟩ := ih last
        ((s.unlink last _).emit (.abandoned c.request.id))
      exact ⟨ids ++ [c.request.id], by rw [shape]; simp [State.emit]⟩
    · exact ih _ s

variable {s t : State} {actions : List Action} {cells : List Addr}

@[simp] theorem foldl_shut_log (cells : List Addr) (s : State) :
    (cells.foldl (fun s a => s.modify a fun c => { c with shut := true }) s).log = s.log := by
  induction cells generalizing s with
  | nil => rfl
  | cons _ _ ih => exact ih _

/-- The log only grows, and only a dispatch is logged as one. -/
theorem step_log {action : Action} (stepped : step s action = some t) :
    ∃ events, t.log = events ++ s.log ∧ ∀ id, .dispatched id ∈ events → action = .dispatch := by
  cases action with
  | receive _ _ =>
    simp only [step, receive] at stepped
    split at stepped
    · split_ifs at stepped
      · cases stepped
        exact ⟨[_], rfl, by simp⟩
      · cases stepped
        exact ⟨[], rfl, by simp⟩
    · cases stepped
  | hangup _ =>
    simp only [step, hangup] at stepped
    split at stepped
    · cases stepped
      exact ⟨[], rfl, by simp⟩
    · cases stepped
  | serve _ _ =>
    simp only [step, serve] at stepped
    split at stepped
    · split_ifs at stepped
      · cases stepped
        exact ⟨[_], rfl, by simp⟩
      · cases stepped
        unfold flushQueued
        split
        · exact ⟨[.discarded _], by simp [State.setProc, State.emit]; rfl, by simp⟩
        · exact ⟨[], rfl, by simp⟩
      · cases stepped
        exact ⟨[.accepted _], by simp [State.setProc, State.emit, enqueue, State.alloc]; rfl,
          by simp⟩
    · cases stepped
  | searchWork _ =>
    simp only [step, searchWork] at stepped
    split at stepped
    · split at stepped
      · cases stepped
        exact ⟨[], rfl, by simp⟩
      · split at stepped
        · cases stepped
        · split_ifs at stepped <;> cases stepped <;> exact ⟨[], rfl, by simp⟩
    · cases stepped
  | answer _ =>
    simp only [step, answer] at stepped
    split at stepped
    · cases stepped
      exact ⟨[_], rfl, by simp⟩
    · cases stepped
  | shutQueued e =>
    simp only [step, shutQueued] at stepped
    split at stepped
    · cases stepped
      obtain ⟨ids, shape⟩ := unqueue_log e (s.received + 1) none s
      exact ⟨ids.map Event.abandoned, shape, by simp⟩
    · cases stepped
  | shutWork _ =>
    simp only [step, shutWork] at stepped
    split at stepped
    · cases stepped
      exact ⟨[], by simp [State.setProc, State.setWork], by simp⟩
    · cases stepped
  | dispatch =>
    simp only [step, dispatch] at stepped
    split at stepped
    · cases stepped
    split at stepped
    · cases stepped
    · cases stepped
      exact ⟨[_], rfl, fun _ _ => rfl⟩
  | complete _ _ =>
    simp only [step, complete] at stepped
    split at stepped
    · split_ifs at stepped
      cases stepped
      exact ⟨[], rfl, by simp⟩
    · cases stepped
  | reply _ =>
    simp only [step, reply] at stepped
    split at stepped
    · split at stepped
      · cases stepped
        exact ⟨[_], rfl, by simp⟩
      · cases stepped
    · cases stepped
  | relock _ =>
    simp only [step, relock] at stepped
    split at stepped
    · split_ifs at stepped
      cases stepped
      exact ⟨[], rfl, by simp⟩
    · cases stepped
  | replyFlush _ =>
    simp only [step, replyFlush] at stepped
    split at stepped
    · split at stepped
      · cases stepped
        exact ⟨[_], rfl, by simp⟩
      · cases stepped
    · cases stepped
  | finish _ =>
    simp only [step, finish] at stepped
    split at stepped
    · split_ifs at stepped
      cases stepped
      exact ⟨[], rfl, by simp⟩
    · cases stepped

theorem step_log_suffix {action : Action} (stepped : step s action = some t) : s.log <:+ t.log := by
  have ⟨events, shape, _⟩ := step_log stepped
  exact ⟨events, shape.symm⟩

theorem run_log_suffix (reached : run step s actions = some t) : s.log <:+ t.log := by
  have kept : ∀ (u : State) (action : Action) (after : State), s.log <:+ u.log → True →
      step u action = some after → s.log <:+ after.log :=
    fun u action after kept _ stepped => kept.trans (step_log_suffix stepped)
  exact run_keeps kept (suffix_refl _) (each_true s actions) reached

/-- The request was dispatched, flushed or shut down. -/
def Gone (log : List Event) (id : Nat) : Prop :=
  .dispatched id ∈ log ∨ .discarded id ∈ log ∨ .abandoned id ∈ log

theorem Gone.mono {log later : List Event} {id : Nat} (gone : Gone log id) (grows : log <:+ later) :
    Gone later id :=
  gone.imp (fun member => grows.subset member)
    (Or.imp (fun member => grows.subset member) fun member => grows.subset member)

/-- Without a dispatch, waiting requests keep their places, or leave as flushed or shut down. -/
theorem waiting_of_events {events : List Event} (log : List Event)
    (undispatched : ∀ id, .dispatched id ∉ events) :
    ∃ keep new, waiting (events ++ log) = (waiting log).filter keep ++ new ∧
      ∀ q, keep q = false → Gone (events ++ log) q.id := by
  induction events with
  | nil => exact ⟨fun _ => true, [], by simp, by simp⟩
  | cons event rest ih =>
    obtain ⟨keep, new, waits, dropped⟩ :=
      ih fun id member => undispatched id (mem_cons_of_mem _ member)
    have grows : rest ++ log <:+ event :: (rest ++ log) := suffix_cons _ _
    have still : ∀ q, keep q = false → Gone (event :: (rest ++ log)) q.id :=
      fun q drop => (dropped q drop).mono grows
    have filtered : ∀ id, Gone (event :: (rest ++ log)) id →
        waiting (event :: (rest ++ log)) = (waiting (rest ++ log)).filter (·.id ≠ id) →
        ∃ keep new, waiting (event :: (rest ++ log)) = (waiting log).filter keep ++ new ∧
          ∀ q, keep q = false → Gone (event :: (rest ++ log)) q.id := by
      intro id gone shape
      refine ⟨fun q => keep q && decide (q.id ≠ id), new.filter (·.id ≠ id), ?_, ?_⟩
      · rw [shape, waits, filter_append, filter_filter]
        congr 2
        funext q
        exact Bool.and_comm _ _
      intro q drop
      rw [Bool.and_eq_false_iff] at drop
      rcases drop with before | here
      · exact still q before
      · have same : q.id = id := by simpa using here
        rw [same]
        exact gone
    cases event with
    | accepted q =>
      refine ⟨keep, new ++ [q], ?_, still⟩
      show waiting (rest ++ log) ++ [q] = _
      rw [waits, append_assoc]
    | dispatched id => exact absurd mem_cons_self (undispatched id)
    | discarded id => exact filtered id (Or.inr (Or.inl mem_cons_self)) rfl
    | abandoned id => exact filtered id (Or.inr (Or.inr mem_cons_self)) rfl
    | received _ => exact ⟨keep, new, waits, still⟩
    | sent _ _ => exact ⟨keep, new, waits, still⟩

/-! ### Runs that lose nothing -/

/-- The requests of the run are waiting in order in every state, a slave can take one whenever
one waits, none is handed over twice, and one with `n` others ahead of it is gone from the
queue after `n + 1` dispatches, handed over unless a flush or a shutdown took it. -/
structure Lossless (s : State) (actions : List Action) : Prop where
  in_order : Always step InOrder s actions
  ready : Always step (fun middle => waiting middle.log ≠ [] → (dispatch middle).isSome) s actions
  once : Always step (fun middle => (handed middle.log).Nodup) s actions
  served : ∀ front back rest middle final ahead q behind, actions = front ++ back ++ rest →
    run step s front = some middle → run step middle back = some final →
    waiting middle.log = ahead ++ q :: behind → ahead.length < back.count .dispatch →
    Gone final.log q.id

theorem Sound.ready (sound : Sound s cells) (waits : waiting s.log ≠ []) : (dispatch s).isSome := by
  cases cells with
  | nil =>
    have lengths := sound.strung.length_eq
    exact absurd (length_eq_zero_iff.1 lengths.symm) waits
  | cons a _ =>
    have head : s.head = some a := (chained_cons.1 sound.strung.chained).1
    have ⟨_, _, entry⟩ := sound.strung.entry_of_mem (a := a) (by simp)
    have ⟨_, found, _⟩ := State.entry_eq_some.1 entry
    simp [dispatch, head, found]

theorem dispatch_waiting (sound : Sound s cells) (stepped : dispatch s = some t) :
    ∃ q rest, waiting s.log = q :: rest ∧ waiting t.log = rest ∧ .dispatched q.id ∈ t.log := by
  have ⟨a, rest, q, _, split, entry, _, _, _, _, shape⟩ := dispatch_sound sound stepped
  have strung : Strung s ([] ++ a :: rest) := by
    rw [nil_append, ← split]
    exact sound.strung
  have ⟨before, behind, waits, front_eq, _⟩ := strung.split entry
  have empty : before = [] := map_eq_nil_iff.1 front_eq.symm
  subst empty
  refine ⟨q, behind, waits, ?_, ?_⟩
  · have distinct := sound.numbered.waiting_distinct
    rw [waits] at distinct
    have left := filter_split distinct
    rw [← waits] at left
    rw [shape]
    exact left
  · rw [shape]
    exact mem_cons_self

theorem served_of_sound {final : State} (sound : Sound s cells)
    (each : Each step (fun s action => ¬ Orphans s action) s actions)
    (reached : run step s actions = some final) {ahead behind : List Request} {q : Request}
    (waits : waiting s.log = ahead ++ q :: behind)
    (turns : ahead.length < actions.count .dispatch) :
    Gone final.log q.id := by
  induction actions generalizing s cells ahead behind with
  | nil => simp at turns
  | cons action _ ih =>
    have ⟨after, stepped, reached'⟩ := run_cons.1 reached
    have ⟨_, sound'⟩ := (step_sound sound stepped).1 each.head
    by_cases turn : action = .dispatch
    · subst turn
      have ⟨_, _, waits₁, waits₂, dispatched⟩ := dispatch_waiting sound stepped
      rw [waits₁] at waits
      cases ahead with
      | nil =>
        cases waits
        have gone : Gone after.log q.id := Or.inl dispatched
        exact gone.mono (run_log_suffix reached')
      | cons _ _ =>
        cases waits
        refine ih sound' (each.tail stepped) reached' waits₂ ?_
        rw [count_cons_self, length_cons] at turns
        omega
    · have ⟨_, grows, only⟩ := step_log stepped
      have ⟨keep, _, waits', dropped⟩ :=
        waiting_of_events s.log fun id member => turn (only id member)
      rw [← grows] at waits' dropped
      cases kept : keep q with
      | false => exact (dropped q kept).mono (run_log_suffix reached')
      | true =>
        rw [waits, filter_append, filter_cons_of_pos kept, append_assoc,
          cons_append] at waits'
        refine ih sound' (each.tail stepped) reached' waits' ?_
        rw [count_cons_of_ne turn] at turns
        exact Nat.lt_of_le_of_lt (length_filter_le _ _) turns

theorem each_of_inOrder {final : State} (sound : Sound s cells)
    (reached : run step s actions = some final) (inOrder : Always step InOrder s actions) :
    Each step (fun s action => ¬ Orphans s action) s actions := by
  induction actions generalizing s cells with
  | nil =>
    intro front action back middle split
    simp at split
  | cons action rest ih =>
    have ⟨after, stepped, reached⟩ := run_cons.1 reached
    have first : ¬ Orphans s action := by
      intro orphans
      refine (step_sound sound stepped).2 orphans ?_
      exact inOrder [action] rest after rfl (run_cons.2 ⟨after, stepped, rfl⟩)
    have ⟨_, sound'⟩ := (step_sound sound stepped).1 first
    have later := ih sound' reached fun front back middle split reached' =>
      inOrder (action :: front) back middle (by rw [split]; rfl)
        (run_cons.2 ⟨after, stepped, reached'⟩)
    intro front next back middle split reached'
    cases front with
    | nil =>
      cases split
      cases reached'
      exact first
    | cons _ front =>
      cases split
      have ⟨_, stepped', reached'⟩ := run_cons.1 reached'
      rw [stepped] at stepped'
      cases stepped'
      exact later front next back middle rfl reached'

theorem sound_of_each (sound : Sound s cells)
    (each : Each step (fun s action => ¬ Orphans s action) s actions) :
    Always step (fun middle => ∃ cells, Sound middle cells) s actions := by
  have kept : ∀ (s : State) (action : Action) (after : State), (∃ cells, Sound s cells) →
      ¬ Orphans s action → step s action = some after → ∃ cells, Sound after cells := by
    rintro s action after ⟨cells, sound⟩ keeps stepped
    exact (step_sound sound stepped).1 keeps
  exact always_of_kept kept ⟨cells, sound⟩ each

/-- A run loses no request exactly when none of its steps takes the last of several requests
out of the queue without emptying it. -/
theorem lossless_iff (readonly : Nat → Bool) (actions : List Action) (final : State)
    (reached : run step (start readonly) actions = some final) :
    Lossless (start readonly) actions ↔
      Each step (fun s action => ¬ Orphans s action) (start readonly) actions := by
  have initial := sound_start readonly
  constructor
  · exact fun lossless => each_of_inOrder initial reached lossless.in_order
  intro each
  have sound := sound_of_each initial each
  constructor
  · intro front back middle split reached'
    have ⟨cells, sound⟩ := sound front back middle split reached'
    exact sound.inOrder
  · intro front back middle split reached'
    have ⟨cells, sound⟩ := sound front back middle split reached'
    exact sound.ready
  · intro front back middle split reached'
    have ⟨cells, sound⟩ := sound front back middle split reached'
    exact sound.numbered.handed_distinct
  intro front back rest middle _ _ _ _ split reached₁ reached₂ waits turns
  subst split
  have ⟨_, sound⟩ := sound front (back ++ rest) middle (by simp) reached₁
  refine served_of_sound sound ?_ reached₂ waits turns
  intro before action after state split reached₃
  subst split
  refine each (front ++ before) action (after ++ rest) state (by simp) ?_
  exact run_append_eq_some.2 ⟨middle, reached₁, reached₃⟩

/-- A `Tread` of the export with the tag, and a `Tflush` that names a tag. -/
private def sampleRead (tag : Nat) : Fcall := ⟨116, tag, 0, 0⟩
private def sampleFlush (tag oldtag : Nat) : Fcall := ⟨Tflush, tag, oldtag, 0⟩

/-- Two requests wait, the second is flushed, and a third arrives. -/
def sampleRun : List Action :=
  [.receive 0 (sampleRead 1), .serve 0 10, .receive 0 (sampleRead 2), .serve 0 20,
    .receive 0 (sampleFlush 3 2), .serve 0 30, .answer 0, .receive 0 (sampleRead 4), .serve 0 30]

def readwrite (_ : Nat) : Bool := false

/-- The third request is waiting, and is not on the list from the head. -/
theorem flush_loses_request :
    ∃ final, run step (start readwrite) sampleRun = some final ∧
      (waiting final.log).map Request.id = [0, 3] ∧ final.link none = some 10 ∧
      final.link (some 10) = none ∧ ¬ Lossless (start readwrite) sampleRun := by
  have result : ∃ final, run step (start readwrite) sampleRun = some final ∧
      (waiting final.log).map Request.id = [0, 3] ∧ final.link none = some 10 ∧
      final.link (some 10) = none := by
    refine ⟨_, rfl, ?_, ?_, ?_⟩ <;> decide +kernel
  have ⟨final, reached, waits, head, next⟩ := result
  refine ⟨final, reached, waits, head, next, fun lossless => ?_⟩
  have ⟨_, queued⟩ := lossless.in_order sampleRun [] final (by simp) reached
  have chained : Chained final.link none [10] :=
    chained_cons.2 ⟨head, chained_nil.2 next⟩
  have same := chained.unique queued.chained
  have lengths := congrArg List.length queued.requests
  have two := congrArg List.length waits
  rw [← same] at lengths
  simp at lengths two
  omega

theorem lossless_iff_sample :
    ∃ final, run step (start readwrite) (sampleRun.take 5) = some final ∧
      (Lossless (start readwrite) (sampleRun.take 5) ↔
        Each step (fun s action => ¬ Orphans s action) (start readwrite) (sampleRun.take 5)) :=
  ⟨_, rfl, lossless_iff readwrite (sampleRun.take 5) _ rfl⟩

end Infernode.Exportq
