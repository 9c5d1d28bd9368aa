import Infernode.Emu.Exflush

/-!
The flush protocol over whole runs.

Owns: that an export with nothing left to do has answered every message, the protocol as a
property of a state, the runs in which every state has it, and the run that breaks it.
-/

namespace Infernode.Exportq

open Links Runs List

/-! ### An export with nothing left to do -/

def Concerns (e : Nat) (s : State) : Action → Prop
  | .serve e' _ => e' = e
  | .searchWork e' => e' = e
  | .answer e' => e' = e
  | .dispatch => ∃ q ∈ waiting s.log, q.export = e
  | .complete a _ => ∃ c, s.mem a = some c ∧ c.request.export = e
  | .reply a => ∃ c, s.mem a = some c ∧ c.request.export = e
  | .relock a => ∃ c, s.mem a = some c ∧ c.request.export = e
  | .replyFlush a => ∃ c, s.mem a = some c ∧ c.request.export = e
  | .finish a => ∃ c, s.mem a = some c ∧ c.request.export = e
  | _ => False

/-- No step that works on a message of the export can be taken. -/
def Quiet (e : Nat) (s : State) : Prop := ∀ action, Concerns e s action → step s action = none

variable {s : State} {e : Nat} {log : List Event} {b : Addr}

/-- There is always an address for another request. -/
theorem Situated.exists_unused (situated : Situated s) : ∃ a, s.mem a = none := by
  by_contra full
  push Not at full
  have cells : ∀ a, ∃ c, s.core a = some c := by
    intro a
    have ⟨_, found⟩ := Option.ne_none_iff_exists'.1 (full a)
    exact ⟨_, State.core_eq_some found⟩
  choose cell found using cells
  have placed := situated.placed
  have maps : ∀ a ∈ Finset.range (s.received + 1),
      (cell a).request.id ∈ Finset.range s.received := by
    intro a _
    rw [Finset.mem_range]
    exact placed.below _ (placed.cell_received a (cell a) (found a)).1
  have ⟨a, _, b, _, different, same⟩ :=
    Finset.exists_ne_map_eq_of_card_lt_of_maps_to (by simp) maps
  refine different (placed.cell_unique a b _ _ (found a) (found b) ?_)
  exact placed.unique _ _ (placed.cell_received a _ (found a)).1
    (placed.cell_received b _ (found b)).1 same

/-- When nothing is left to do for the export, it has no message in hand and no request. -/
theorem Quiet.idle {cells : List Addr} (quiet : Quiet e s) (busy : Busy s) (sound : Sound s cells) :
    s.held e = [] ∧ ∀ a c, s.core a = some c → c.request.export ≠ e := by
  constructor
  · obtain ⟨a, unused⟩ := busy.situated.exists_unused
    cases here : s.proc e with
    | reading | closing | abandoning | closed => simp [State.held, here, Proc.held]
    | read q =>
      have stuck := quiet (.serve e a) rfl
      simp only [step, serve, here] at stuck
      split_ifs at stuck
    | searching fq =>
      have stuck := quiet (.searchWork e) rfl
      simp only [step, searchWork, here] at stuck
      split at stuck
      · cases stuck
      rename_i b first
      obtain ⟨v, seen, _⟩ := (busy.worked.mem_iff e b).1 (mem_of_find?_eq_some first)
      obtain ⟨c, cell, _⟩ := State.core_of_view seen
      obtain ⟨d, found, _⟩ := State.mem_of_core cell
      simp only [found] at stuck
      split_ifs at stuck
    | answering fq =>
      have stuck := quiet (.answer e) rfl
      simp [step, answer, here] at stuck
  · intro a c cell ours
    obtain ⟨d, found, rfl⟩ := State.mem_of_core cell
    have concerned : ∃ c, s.mem a = some c ∧ c.request.export = e := ⟨d, found, ours⟩
    cases stage : d.stage with
    | queued =>
      have waits := sound.strung.waiting_of_core cell stage
      have stuck := quiet .dispatch ⟨d.request, waits, ours⟩
      have ready := sound.ready (ne_nil_of_mem waits)
      have none_ : dispatch s = none := stuck
      rw [none_] at ready
      cases ready
    | running =>
      have stuck := quiet (.complete a false) concerned
      simp [step, complete, found, stage] at stuck
    | replying type =>
      have stuck := quiet (.reply a) concerned
      simp [step, reply, found, stage] at stuck
    | relocking =>
      have stuck := quiet (.relock a) concerned
      simp [step, relock, found, stage] at stuck
    | flushing fq =>
      have stuck := quiet (.replyFlush a) concerned
      simp [step, replyFlush, found, stage] at stuck
    | finished =>
      have stuck := quiet (.finish a) concerned
      simp [step, finish, found, stage] at stuck

/-! ### The protocol -/

/-- What the client of the export can rely on. A message is replied to at most once, and, when
nothing is left to do and the export is not shutting down, exactly once unless it is a request
that was flushed; a flush is answered with `Rflush`; and no reply to a request is sent after
the answer to a flush for it, nor to a flush when the client flushes no unanswered flush. -/
structure FlushProtocol (e : Nat) (s : State) : Prop where
  at_most_once : ∀ q, .received q ∈ s.log → q.export = e → (replies s.log).count q.id ≤ 1
  exactly_once : Quiet e s → ¬ Shutting (s.proc e) → ∀ q, .received q ∈ s.log → q.export = e →
    (replies s.log).count q.id = 1 ∨ q.fcall.type ≠ Tflush ∧ ∃ f, Targets s.log f q
  rflush : ∀ q type, .received q ∈ s.log → q.export = e → q.fcall.type = Tflush →
    .sent q.id type ∈ s.log → type = Rflush
  none_after : NoneAfter e (fun q => q.fcall.type ≠ Tflush) s.log
  none_after_flush : FlushesKept e s.log → NoneAfter e (fun _ => True) s.log

structure Kept (e : Nat) (s : State) : Prop where
  sound : ∃ cells, Sound s cells
  busy : Busy s
  tagged : Tagged e s
  accounted : Accounted e s
  typed : Typed s.log
  none_after : NoneAfter e (fun q => q.fcall.type ≠ Tflush) s.log
  none_after_flush : FlushesKept e s.log → NoneAfter e (fun _ => True) s.log

theorem Kept.protocol (kept : Kept e s) : FlushProtocol e s where
  at_most_once q _ _ := nodup_iff_count_le_one.1 kept.busy.situated.placed.sent_once q.id
  exactly_once quiet open_ q known ours := by
    have ⟨_, sound⟩ := kept.sound
    have ⟨idle, none_⟩ := quiet.idle kept.busy sound
    rcases kept.accounted q known ours open_ with sent | inHand | ⟨a, c, cell, place⟩ | flushed
    · left
      have most := nodup_iff_count_le_one.1 kept.busy.situated.placed.sent_once q.id
      have least := count_pos_iff.2 sent
      omega
    · rw [idle] at inHand
      cases inHand
    · exfalso
      refine none_ a c cell ?_
      rcases place with ⟨rfl, _⟩ | inPending
      · exact ours
      · rw [← (kept.busy.situated.placed.pending_received a c q cell inPending).2.1]
        exact ours
    · exact Or.inr flushed
  rflush q type known _ flush sent := kept.typed q type known flush sent
  none_after := kept.none_after
  none_after_flush := kept.none_after_flush

theorem kept_start (e : Nat) (readonly : Nat → Bool) : Kept e (start readonly) where
  sound := ⟨[], sound_start readonly⟩
  busy := busy_start readonly
  tagged := tagged_start e readonly
  accounted := accounted_start e readonly
  typed := by
    intro q type known
    cases known
  none_after := by
    intro newer older f q type split
    simp [start] at split
  none_after_flush := by
    intro _ _ _ _ _ _ split
    simp [start] at split

variable {events : List Event} {a : Addr} {t : State}

theorem tagsKept_suffix (tags : TagsKept e (events ++ log)) : TagsKept e log := by
  induction events with
  | nil => exact tags
  | cons event _ ih =>
    cases event with
    | received _ => exact ih tags.2
    | accepted | dispatched | discarded | abandoned | sent => exact ih tags

theorem flushesKept_suffix (flushes : FlushesKept e (events ++ log)) : FlushesKept e log := by
  induction events with
  | nil => exact flushes
  | cons event _ ih =>
    cases event with
    | received _ => exact ih flushes.2
    | accepted | dispatched | discarded | abandoned | sent => exact ih flushes

theorem FlushesKept.answered (flushes : FlushesKept e log) {f q : Request} (ours : f.export = e)
    (targets : Targets log f q) (flush : q.fcall.type = Tflush) : Sent log q := by
  induction log with
  | nil =>
    have ⟨_, older, split, _⟩ := targets
    simp at split
  | cons event _ ih =>
    rcases targets_cons.1 targets with ⟨rfl, isFlush, last⟩ | before
    · rw [ours] at last
      exact flushes.1 ours isFlush q last flush
    cases event with
    | received _ => exact ih flushes.2 before
    | sent _ _ => exact mem_cons_of_mem _ (ih flushes before)
    | accepted | dispatched | discarded | abandoned => exact ih flushes before

theorem Kept.step {e : Nat} {s t : State} {action : Action} (kept : Kept e s)
    (keeps : ¬ Orphans s action) (stepped : step s action = some t) (tags : TagsKept e t.log) :
    Kept e t := by
  have ⟨_, sound⟩ := kept.sound
  have effect := step_effect sound stepped
  have ⟨_, grows, _⟩ := step_log stepped
  exact {
    sound := (step_sound sound stepped).1 keeps
    busy := effect.busy kept.busy sound
    tagged := effect.tagged kept.busy kept.tagged tags
    accounted := effect.accounted kept.busy kept.tagged kept.accounted
    typed := effect.typed kept.busy kept.typed
    none_after := effect.noneAfter kept.busy kept.tagged (fun _ _ _ _ other => Or.inl other)
      kept.none_after
    none_after_flush := by
      intro flushes
      rw [grows] at flushes
      have before := flushesKept_suffix flushes
      refine effect.noneAfter kept.busy kept.tagged ?_ (kept.none_after_flush before)
      intro _ q ours targets _
      by_cases flush : q.fcall.type = Tflush
      · exact Or.inr (before.answered ours targets flush)
      · exact Or.inl flush }

/-- In every run that never takes the last of several requests out of the queue, an export
whose client reuses tags by the rule keeps the flush protocol. -/
theorem run_flush_protocol (readonly : Nat → Bool) (e : Nat) (actions : List Action)
    (final : State) (reached : run step (start readonly) actions = some final)
    (keeps : Each step (fun s action => ¬ Orphans s action) (start readonly) actions)
    (tags : TagsKept e final.log) : FlushProtocol e final := by
  have kept : ∀ (s : State) (action : Action) (after : State),
      (TagsKept e s.log → Kept e s) → ¬ Orphans s action → step s action = some after →
      (TagsKept e after.log → Kept e after) := by
    intro s _ _ before keeps stepped tags
    have ⟨_, grows, _⟩ := step_log stepped
    have earlier : TagsKept e s.log := tagsKept_suffix (grows ▸ tags)
    exact (before earlier).step keeps stepped tags
  exact (run_keeps kept (fun _ => kept_start e readonly) keeps reached tags).protocol

/-! ### Addresses in use -/

theorem State.modify_unused (unused : s.mem b = none) (a : Addr) (change : Exq → Exq) :
    (s.modify a change).mem b = none := by
  by_cases same : b = a
  · subst same
    simp [State.modify, unused]
  · simp [State.modify, same, unused]

theorem State.setLink_unused (unused : s.mem b = none) (slot value : Option Addr) :
    (s.setLink slot value).mem b = none := by
  cases slot with
  | none => exact unused
  | some a => exact State.modify_unused unused a _

theorem State.free_unused (unused : s.mem b = none) (a : Addr) : (s.free a).mem b = none := by
  by_cases same : b = a
  · subst same
    simp [State.free]
  · simp [State.free, same, unused]

theorem enqueue_unused (unused : s.mem b = none) (apart : b ≠ a) (q : Request) :
    (enqueue s a q).mem b = none := by
  set fresh := s.alloc a ⟨q, none, [], false, .queued⟩ with fresh_eq
  set slot := if fresh.head = none then none else fresh.tail
  have kept : fresh.mem b = none := by simp [fresh_eq, State.alloc, apart, unused]
  have second := State.setLink_unused kept slot (some a)
  exact State.setLink_unused second (some a) none

theorem unqueue_unused (unused : s.mem b = none) (e fuel : Nat) (last : Option Addr) :
    (unqueue e fuel last s).mem b = none := by
  induction fuel generalizing last s with
  | zero => exact unused
  | succ _ ih =>
    rw [unqueue]
    split
    · exact unused
    split
    · exact unused
    split
    · apply ih
      exact State.free_unused (State.setLink_unused unused _ _) _
    · exact ih unused _

/-- Only a message that arrives takes an address into use. -/
theorem step_unused {action : Action} (stepped : step s action = some t) (unused : s.mem b = none)
    (other : ∀ e, action ≠ .serve e b) : t.mem b = none := by
  cases action with
  | receive e f =>
    simp only [step, receive] at stepped
    split at stepped
    · split_ifs at stepped <;> cases stepped <;> exact unused
    · cases stepped
  | hangup e =>
    simp only [step, hangup] at stepped
    split at stepped
    · cases stepped
      exact unused
    · cases stepped
  | serve e a =>
    have apart : b ≠ a := fun same => other e (by rw [same])
    simp only [step, serve] at stepped
    split at stepped
    · split_ifs at stepped
      · cases stepped
        exact unused
      · cases stepped
        unfold flushQueued
        split
        · exact State.free_unused (State.setLink_unused unused _ _) _
        · exact unused
      · cases stepped
        exact enqueue_unused unused apart _
    · cases stepped
  | searchWork e =>
    simp only [step, searchWork] at stepped
    split at stepped
    · split at stepped
      · cases stepped
        exact unused
      split at stepped
      · cases stepped
      split_ifs at stepped
      · cases stepped
        exact unused
      · cases stepped
        exact State.modify_unused unused _ _
    · cases stepped
  | answer e =>
    simp only [step, answer] at stepped
    split at stepped
    · cases stepped
      exact unused
    · cases stepped
  | shutQueued e =>
    simp only [step, shutQueued] at stepped
    split at stepped
    · cases stepped
      exact unqueue_unused unused e _ none
    · cases stepped
  | shutWork e =>
    simp only [step, shutWork] at stepped
    split at stepped
    · cases stepped
      have kept : ∀ (cells : List Addr) (s : State), s.mem b = none →
          (cells.foldl (fun s a => s.modify a fun c => { c with shut := true }) s).mem b =
            none := by
        intro cells
        induction cells with
        | nil => exact fun _ unused => unused
        | cons a rest ih =>
          exact fun s unused => ih _ (State.modify_unused unused a _)
      exact kept (s.work e) s unused
    · cases stepped
  | dispatch =>
    simp only [step, dispatch] at stepped
    split at stepped
    · cases stepped
    split at stepped
    · cases stepped
    rename_i c _
    cases stepped
    have moved : State.mem { s with head := c.next } b = none := unused
    exact State.modify_unused moved _ _
  | complete a failed =>
    simp only [step, complete] at stepped
    split at stepped
    · split_ifs at stepped
      cases stepped
      exact State.modify_unused unused a _
    · cases stepped
  | reply a =>
    simp only [step, reply] at stepped
    split at stepped
    · split at stepped
      · cases stepped
        exact State.modify_unused unused a _
      · cases stepped
    · cases stepped
  | relock a =>
    simp only [step, relock] at stepped
    split at stepped
    · split_ifs at stepped
      cases stepped
      exact State.modify_unused unused a _
    · cases stepped
  | replyFlush a =>
    simp only [step, replyFlush] at stepped
    split at stepped
    · split at stepped
      · cases stepped
        exact State.modify_unused unused a _
      · cases stepped
    · cases stepped
  | finish a =>
    simp only [step, finish] at stepped
    split at stepped
    · split_ifs at stepped
      cases stepped
      exact State.free_unused unused a
    · cases stepped

theorem run_unused {actions : List Action} (reached : run step s actions = some t)
    (unused : s.mem b = none) (other : ∀ e, .serve e b ∉ actions) : t.mem b = none := by
  induction actions generalizing s with
  | nil =>
    cases reached
    exact unused
  | cons _ _ ih =>
    obtain ⟨_, stepped, reached⟩ := run_cons.1 reached
    refine ih reached (step_unused stepped unused ?_) ?_
    · intro e same
      exact other e (by rw [same]; exact mem_cons_self)
    · exact fun e member => other e (mem_cons_of_mem _ member)

/-! ### The lost request -/

/-- The run that loses a request, and then a slave does all that is left. -/
def lostRun : List Action :=
  sampleRun ++ [.dispatch, .complete 10 false, .reply 10, .relock 10, .finish 10]

/-- The lost request is never answered, though its client reused no tag and flushed another. -/
theorem lost_request_unanswered :
    ∃ final, run step (start readwrite) lostRun = some final ∧ TagsKept 0 final.log ∧
      Quiet 0 final ∧ final.proc 0 = .reading ∧ .received ⟨3, 0, ⟨116, 4, 0, 0⟩⟩ ∈ final.log ∧
      (replies final.log).count 3 = 0 ∧ ¬ FlushProtocol 0 final := by
  have result : ∃ final, run step (start readwrite) lostRun = some final ∧
      final.head = none ∧ final.proc 0 = .reading ∧ final.mem 10 = none ∧ final.mem 20 = none ∧
      final.mem 30 = some ⟨⟨3, 0, ⟨116, 4, 0, 0⟩⟩, none, [], false, .queued⟩ ∧
      final.log = [.sent 0 117, .dispatched 0, .accepted ⟨3, 0, ⟨116, 4, 0, 0⟩⟩,
        .received ⟨3, 0, ⟨116, 4, 0, 0⟩⟩, .sent 2 Rflush, .discarded 1,
        .received ⟨2, 0, ⟨Tflush, 3, 2, 0⟩⟩, .accepted ⟨1, 0, ⟨116, 2, 0, 0⟩⟩,
        .received ⟨1, 0, ⟨116, 2, 0, 0⟩⟩, .accepted ⟨0, 0, ⟨116, 1, 0, 0⟩⟩,
        .received ⟨0, 0, ⟨116, 1, 0, 0⟩⟩] := by
    refine ⟨_, rfl, ?_, ?_, ?_, ?_, ?_, ?_⟩ <;> decide +kernel
  obtain ⟨final, reached, head, proc, ten, twenty, thirty, log⟩ := result
  have elsewhere : ∀ a c, final.mem a = some c → c.stage = .queued := by
    intro a c found
    by_cases here : a = 30
    · rw [here, thirty] at found
      cases found
      rfl
    have unused : final.mem a = none := by
      by_cases first : a = 10
      · rw [first, ten]
      by_cases second : a = 20
      · rw [second, twenty]
      · refine run_unused reached rfl fun e member => ?_
        simp [lostRun, sampleRun, here, first, second] at member
    rw [unused] at found
    cases found
  have quiet : Quiet 0 final := by
    intro action concerned
    cases action with
    | serve _ _ => cases concerned; simp [step, serve, proc]
    | searchWork _ => cases concerned; simp [step, searchWork, proc]
    | answer _ => cases concerned; simp [step, answer, proc]
    | dispatch => simp [step, dispatch, head]
    | complete a _ =>
      obtain ⟨c, found, _⟩ := concerned
      simp [step, complete, found, elsewhere a c found]
    | reply a =>
      obtain ⟨c, found, _⟩ := concerned
      simp [step, reply, found, elsewhere a c found]
    | relock a =>
      obtain ⟨c, found, _⟩ := concerned
      simp [step, relock, found, elsewhere a c found]
    | replyFlush a =>
      obtain ⟨c, found, _⟩ := concerned
      simp [step, replyFlush, found, elsewhere a c found]
    | finish a =>
      obtain ⟨c, found, _⟩ := concerned
      simp [step, finish, found, elsewhere a c found]
    | receive | hangup | shutQueued | shutWork => exact concerned.elim
  have known : .received ⟨3, 0, ⟨116, 4, 0, 0⟩⟩ ∈ final.log := by
    rw [log]
    decide
  have unanswered : (replies final.log).count 3 = 0 := by
    rw [log]
    decide
  refine ⟨final, reached, ?_, quiet, proc, known, unanswered, fun protocol => ?_⟩
  · rw [log]
    refine ⟨fun _ q last => ?_, fun _ q last => ?_, fun _ q last => ?_, fun _ q last => ?_,
      trivial⟩ <;> cases last
  rcases protocol.exactly_once quiet (by simp [Shutting, proc]) _ known rfl with once | flushed
  · rw [unanswered] at once
    cases once
  obtain ⟨_, _, targets⟩ := flushed
  have ordered : Ordered final.log := by
    rw [log]
    simp [Ordered]
  have earlier := targets.earlier ordered
  obtain ⟨flushKnown, flush, _⟩ := targets.spec
  rw [log] at flushKnown
  simp only [List.mem_cons, Event.received.injEq, reduceCtorEq, List.not_mem_nil, false_or,
    or_false] at flushKnown
  rcases flushKnown with rfl | rfl | rfl | rfl
  · cases flush
  · simp at earlier
  · cases flush
  · cases flush

def flushedRun : List Action :=
  [.receive 0 ⟨116, 1, 0, 0⟩, .serve 0 10, .receive 0 ⟨Tflush, 3, 1, 0⟩, .serve 0 0, .answer 0]

/-- A flush orphans nothing when at most one request waits. -/
theorem not_orphans_serve (few : (waiting s.log).length ≤ 1) : ¬ Orphans s (.serve e a) := by
  rintro ⟨_, earlier, last, _, _, waits, others, _⟩
  rw [waits, length_append, length_singleton] at few
  exact others (length_eq_zero_iff.1 (by omega))

theorem run_flush_protocol_flushed :
    ∃ final, run step (start readwrite) flushedRun = some final ∧ FlushProtocol 0 final := by
  refine ⟨_, rfl, run_flush_protocol readwrite 0 flushedRun _ rfl ?_ ?_⟩
  · refine Each.cons (fun never => never) rfl ?_
    refine Each.cons (not_orphans_serve (by decide +kernel)) rfl ?_
    refine Each.cons (fun never => never) rfl ?_
    refine Each.cons (not_orphans_serve (by decide +kernel)) rfl ?_
    exact Each.cons (fun never => never) rfl (each_nil _)
  refine ⟨fun _ q last => ?_, fun _ q last => ?_, trivial⟩
  · have none_ : latest [.accepted ⟨0, 0, ⟨116, 1, 0, 0⟩⟩, .received ⟨0, 0, ⟨116, 1, 0, 0⟩⟩] 0 3 =
        none := by decide +kernel
    exact absurd (none_.symm.trans last) (by simp)
  · cases last

end Infernode.Exportq
