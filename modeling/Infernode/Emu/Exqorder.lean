import Infernode.Emu.Exqlist
import Mathlib.Data.Finset.Card
import Mathlib.Data.Finset.Range

/-!
Waiting requests over the runs of the queue.

Owns: the steps that leave the queue alone, the numbers of the requests, the step that loses
the tail of the queue, and that without such a step every request is handed over in order.
-/

namespace Infernode.Exportq

open Links Runs List Function

/-- The requests that were handed to a slave. -/
def handed : List Event → List Nat
  | [] => []
  | .dispatched id :: older => id :: handed older
  | _ :: older => handed older

structure Numbered (s : State) : Prop where
  waiting_below : ∀ q ∈ waiting s.log, q.id < s.received
  waiting_distinct : ((waiting s.log).map Request.id).Nodup
  handed_below : ∀ id ∈ handed s.log, id < s.received
  handed_distinct : (handed s.log).Nodup
  handed_left : ∀ id ∈ handed s.log, ∀ q ∈ waiting s.log, q.id ≠ id
  read_below : ∀ e q, s.proc e = .read q → q.id < s.received
  read_new : ∀ e q, s.proc e = .read q →
    (∀ w ∈ waiting s.log, w.id ≠ q.id) ∧ q.id ∉ handed s.log
  read_distinct : ∀ e q e' q', s.proc e = .read q → s.proc e' = .read q' → q.id = q'.id → e = e'
  read_export : ∀ e q, s.proc e = .read q → q.export = e

/-! ### Steps beside the queue -/

variable {s t : State} {a : Addr} {e : Nat} {cells : List Addr}

variable {change : Exq → Exq} {p : Proc} {action : Action} {q : Request} {part : List Addr}

theorem State.entry_modify (same : ∀ c, s.mem a = some c → (change c).request = c.request ∧
      (change c).next = c.next ∧ ((change c).stage = .queued ↔ c.stage = .queued)) (b : Addr) :
    (s.modify a change).entry b = s.entry b := by
  by_cases here : b = a
  · subst here
    cases found : s.mem b with
    | none => simp [State.modify, State.entry, found]
    | some c =>
      obtain ⟨request, next, stage⟩ := same c found
      simp [State.modify, State.entry, found, request, next, stage]
  · simp [State.modify, State.entry, here]

/-- A step that has nothing to do with the queue. -/
structure Untouched (s t : State) : Prop where
  head : t.head = s.head
  tail : t.tail = s.tail
  entries : ∀ a, t.entry a = s.entry a
  waits : waiting t.log = waiting s.log
  handed : handed t.log = handed s.log
  received : t.received = s.received
  reads : ∀ e q, t.proc e = .read q → s.proc e = .read q

theorem Exq.settle_stage (c : Exq) : c.settle.stage ≠ .queued := by
  unfold Exq.settle
  split
  · split <;> simp
  · simp

theorem Exq.settle_request (c : Exq) : c.settle.request = c.request ∧ c.settle.next = c.next := by
  unfold Exq.settle
  split
  · split <;> exact ⟨rfl, rfl⟩
  · exact ⟨rfl, rfl⟩

theorem Exq.completed_stage (c : Exq) (failed : Bool) : (c.completed failed).stage ≠ .queued := by
  unfold Exq.completed
  split
  · simp
  · split
    · simp
    · exact c.settle_stage

theorem Exq.completed_request (c : Exq) (failed : Bool) :
    (c.completed failed).request = c.request ∧ (c.completed failed).next = c.next := by
  unfold Exq.completed
  split
  · exact ⟨rfl, rfl⟩
  · split
    · exact ⟨rfl, rfl⟩
    · exact c.settle_request

private theorem reads_setProc (other : ∀ q, p ≠ .read q) (e' : Nat) (q : Request)
    (reads : (s.setProc e p).proc e' = .read q) : s.proc e' = .read q := by
  by_cases same : e' = e
  · subst same
    simp only [State.setProc, update_self] at reads
    exact absurd reads (other q)
  · simpa [State.setProc, same] using reads

/-- Changing where `exportproc` is does not touch the queue. -/
theorem Untouched.setProc (s : State) (e : Nat) (other : ∀ q, p ≠ .read q) :
    Untouched s (s.setProc e p) :=
  ⟨rfl, rfl, fun _ => rfl, rfl, rfl, rfl, reads_setProc other⟩

theorem Untouched.emit_sent (s : State) (id type : Nat) : Untouched s (s.emit (.sent id type)) :=
  ⟨rfl, rfl, fun _ => rfl, rfl, rfl, rfl, fun _ _ reads => reads⟩

theorem Untouched.setWork (s : State) (e : Nat) (work : List Addr) :
    Untouched s (s.setWork e work) :=
  ⟨rfl, rfl, fun _ => rfl, rfl, rfl, rfl, fun _ _ reads => reads⟩

theorem Untouched.modify (same : ∀ c, s.mem a = some c → (change c).request = c.request ∧
      (change c).next = c.next ∧ ((change c).stage = .queued ↔ c.stage = .queued)) :
    Untouched s (s.modify a change) :=
  ⟨rfl, rfl, State.entry_modify same, rfl, rfl, rfl, fun _ _ reads => reads⟩

theorem Untouched.free (absent : s.entry a = none) : Untouched s (s.free a) := by
  refine ⟨rfl, rfl, ?_, rfl, rfl, rfl, fun _ _ reads => reads⟩
  intro b
  by_cases here : b = a
  · subst here
    rw [absent]
    simp [State.free, State.entry]
  · simp [State.free, State.entry, here]

theorem Untouched.trans {u : State} (first : Untouched s t) (second : Untouched t u) :
    Untouched s u where
  head := second.head.trans first.head
  tail := second.tail.trans first.tail
  entries a := (second.entries a).trans (first.entries a)
  waits := second.waits.trans first.waits
  handed := second.handed.trans first.handed
  received := second.received.trans first.received
  reads e q reads := first.reads e q (second.reads e q reads)

theorem Untouched.refl (s : State) : Untouched s s :=
  ⟨rfl, rfl, fun _ => rfl, rfl, rfl, rfl, fun _ _ reads => reads⟩

/-- The slaves that shut down are told so one after the other. -/
theorem Untouched.foldl_shut (s : State) (cells : List Addr) :
    Untouched s (cells.foldl (fun s a => s.modify a fun c => { c with shut := true }) s) := by
  induction cells generalizing s with
  | nil => exact Untouched.refl s
  | cons a _ ih =>
    have first : Untouched s (s.modify a fun c => { c with shut := true }) :=
      Untouched.modify fun c _ => ⟨rfl, rfl, Iff.rfl⟩
    exact first.trans (ih _)

def Action.onQueue : Action → Bool
  | .receive _ _ => true
  | .serve _ _ => true
  | .shutQueued _ => true
  | .dispatch => true
  | _ => false

theorem step_untouched (stepped : step s action = some t) (beside : action.onQueue = false) :
    Untouched s t := by
  cases action with
  | receive => cases beside
  | serve => cases beside
  | shutQueued => cases beside
  | dispatch => cases beside
  | hangup e =>
    simp only [step, hangup] at stepped
    split at stepped
    · cases stepped
      exact Untouched.setProc s e (by simp)
    · cases stepped
  | searchWork e =>
    simp only [step, searchWork] at stepped
    split at stepped
    · split at stepped
      · cases stepped
        exact Untouched.setProc s e (by simp)
      split at stepped
      · cases stepped
      split_ifs at stepped
      · cases stepped
        exact Untouched.setProc s e (by simp)
      · cases stepped
        refine Untouched.trans (Untouched.modify ?_) (Untouched.setProc _ e (by simp))
        exact fun c _ => ⟨rfl, rfl, Iff.rfl⟩
    · cases stepped
  | answer e =>
    simp only [step, answer] at stepped
    split at stepped
    · cases stepped
      exact (Untouched.emit_sent s _ _).trans (Untouched.setProc _ e (by simp))
    · cases stepped
  | shutWork e =>
    simp only [step, shutWork] at stepped
    split at stepped
    · cases stepped
      exact ((Untouched.foldl_shut s _).trans (Untouched.setWork _ e [])).trans
        (Untouched.setProc _ e (by simp))
    · cases stepped
  | complete a failed =>
    simp only [step, complete] at stepped
    split at stepped
    · split_ifs at stepped with running
      cases stepped
      rename_i c found
      apply Untouched.modify
      intro c' found'
      rw [found] at found'
      cases found'
      refine ⟨(c.completed_request failed).1, (c.completed_request failed).2, ?_⟩
      simp [c.completed_stage failed, running]
    · cases stepped
  | reply a =>
    simp only [step, reply] at stepped
    split at stepped
    · rename_i c found
      split at stepped
      · rename_i type replying
        cases stepped
        refine Untouched.trans (Untouched.modify ?_) (Untouched.emit_sent _ _ _)
        intro c' found'
        rw [found] at found'
        cases found'
        simp [replying]
      · cases stepped
    · cases stepped
  | relock a =>
    simp only [step, relock] at stepped
    split at stepped
    · split_ifs at stepped with relocking
      cases stepped
      rename_i c found
      apply Untouched.modify
      intro c' found'
      rw [found] at found'
      cases found'
      refine ⟨c.settle_request.1, c.settle_request.2, ?_⟩
      simp [c.settle_stage, relocking]
    · cases stepped
  | replyFlush a =>
    simp only [step, replyFlush] at stepped
    split at stepped
    · rename_i c found
      split at stepped
      · rename_i fq flushing
        cases stepped
        refine Untouched.trans (Untouched.modify ?_) (Untouched.emit_sent _ _ _)
        intro c' found'
        rw [found] at found'
        cases found'
        simp [flushing]
      · cases stepped
    · cases stepped
  | finish a =>
    simp only [step, finish] at stepped
    split at stepped
    · split_ifs at stepped with finished
      cases stepped
      rename_i c found
      refine Untouched.trans (Untouched.setWork s _ _) (Untouched.free ?_)
      simp [State.setWork, State.entry, found, finished]
    · cases stepped

/-! ### Numbers -/

theorem Numbered.few (numbered : Numbered s) : (waiting s.log).length ≤ s.received := by
  have below : ((waiting s.log).map Request.id).toFinset ⊆ Finset.range s.received := by
    intro _ member
    have ⟨q, here, same⟩ := mem_map.1 (mem_toFinset.1 member)
    rw [Finset.mem_range, ← same]
    exact numbered.waiting_below q here
  have card := Finset.card_le_card below
  rw [toFinset_card_of_nodup numbered.waiting_distinct, length_map,
    Finset.card_range] at card
  exact card

/-- Requests that leave the queue without a slave, and messages that are done with, leave the
numbers in order. -/
theorem Numbered.shrink (numbered : Numbered s) (waits : (waiting t.log).Sublist (waiting s.log))
    (hands : handed t.log = handed s.log) (received : t.received = s.received)
    (reads : ∀ e q, t.proc e = .read q → s.proc e = .read q) : Numbered t where
  waiting_below q member := by
    rw [received]
    exact numbered.waiting_below q (waits.subset member)
  waiting_distinct := numbered.waiting_distinct.sublist (waits.map _)
  handed_below id member := by
    rw [received]
    exact numbered.handed_below id (hands ▸ member)
  handed_distinct := by
    rw [hands]
    exact numbered.handed_distinct
  handed_left id member q here := numbered.handed_left id (hands ▸ member) q (waits.subset here)
  read_below e q reading := by
    rw [received]
    exact numbered.read_below e q (reads e q reading)
  read_new e q reading := by
    rw [hands]
    exact ⟨fun w here => (numbered.read_new e q (reads e q reading)).1 w (waits.subset here),
      (numbered.read_new e q (reads e q reading)).2⟩
  read_distinct e q e' q' reading reading' :=
    numbered.read_distinct e q e' q' (reads e q reading) (reads e' q' reading')
  read_export e q reading := numbered.read_export e q (reads e q reading)

theorem Numbered.untouched (numbered : Numbered s) (untouched : Untouched s t) : Numbered t :=
  numbered.shrink (untouched.waits ▸ List.Sublist.refl _) untouched.handed untouched.received
    untouched.reads

theorem Numbered.receive (numbered : Numbered s) (e : Nat) (f : Fcall) :
    Numbered (({ s with received := s.received + 1 }.setProc e
      (.read ⟨s.received, e, f⟩)).emit (.received ⟨s.received, e, f⟩)) := by
  have reads : ∀ e' q, Function.update s.proc e (.read ⟨s.received, e, f⟩) e' = .read q →
      e' = e ∧ q = ⟨s.received, e, f⟩ ∨ e' ≠ e ∧ s.proc e' = .read q := by
    intro e' q reading
    by_cases same : e' = e
    · subst same
      rw [update_self] at reading
      cases reading
      exact Or.inl ⟨rfl, rfl⟩
    · rw [update_of_ne same] at reading
      exact Or.inr ⟨same, reading⟩
  constructor
  · intro q member
    exact Nat.lt_succ_of_lt (numbered.waiting_below q member)
  · exact numbered.waiting_distinct
  · intro id member
    exact Nat.lt_succ_of_lt (numbered.handed_below id member)
  · exact numbered.handed_distinct
  · exact numbered.handed_left
  · intro e' q reading
    rcases reads e' q reading with ⟨_, rfl⟩ | ⟨_, reading⟩
    · exact Nat.lt_succ_self _
    · exact Nat.lt_succ_of_lt (numbered.read_below e' q reading)
  · intro e' q reading
    rcases reads e' q reading with ⟨_, rfl⟩ | ⟨_, reading⟩
    · refine ⟨fun w here same => ?_, fun member => ?_⟩
      · have below := numbered.waiting_below w here
        rw [same] at below
        exact Nat.lt_irrefl _ below
      · exact Nat.lt_irrefl _ (numbered.handed_below _ member)
    · exact numbered.read_new e' q reading
  · intro e₁ q₁ e₂ q₂ reading₁ reading₂ same
    rcases reads e₁ q₁ reading₁ with ⟨here₁, new₁⟩ | ⟨_, old₁⟩ <;>
      rcases reads e₂ q₂ reading₂ with ⟨here₂, new₂⟩ | ⟨_, old₂⟩
    · rw [here₁, here₂]
    · have below := numbered.read_below e₂ q₂ old₂
      rw [← same, new₁] at below
      exact absurd below (Nat.lt_irrefl _)
    · have below := numbered.read_below e₁ q₁ old₁
      rw [same, new₂] at below
      exact absurd below (Nat.lt_irrefl _)
    · exact numbered.read_distinct e₁ q₁ e₂ q₂ old₁ old₂ same
  · intro e' q reading
    rcases reads e' q reading with ⟨here, new⟩ | ⟨_, old⟩
    · rw [new, here]
    · exact numbered.read_export e' q old

theorem Numbered.accept (numbered : Numbered s) (reading : s.proc e = .read q)
    (waits : waiting t.log = waiting s.log ++ [q]) (hands : handed t.log = handed s.log)
    (received : t.received = s.received) (proc : t.proc = Function.update s.proc e .reading) :
    Numbered t := by
  have reads : ∀ e' q', t.proc e' = .read q' → e' ≠ e ∧ s.proc e' = .read q' := by
    intro e' q' reading'
    rw [proc] at reading'
    by_cases same : e' = e
    · subst same
      rw [update_self] at reading'
      cases reading'
    · rw [update_of_ne same] at reading'
      exact ⟨same, reading'⟩
  have new := numbered.read_new e q reading
  constructor
  · intro w member
    rw [waits, mem_append, mem_singleton] at member
    rw [received]
    rcases member with old | rfl
    · exact numbered.waiting_below w old
    · exact numbered.read_below e w reading
  · rw [waits, map_append, nodup_append]
    refine ⟨numbered.waiting_distinct, nodup_singleton _, ?_⟩
    intro id old _ last
    have ⟨w, here, same⟩ := mem_map.1 old
    rw [map_singleton, mem_singleton] at last
    rw [← same, last]
    exact new.1 w here
  · rw [hands, received]
    exact numbered.handed_below
  · rw [hands]
    exact numbered.handed_distinct
  · intro id member w here
    rw [hands] at member
    rw [waits, mem_append, mem_singleton] at here
    rcases here with old | rfl
    · exact numbered.handed_left id member w old
    · intro same
      exact new.2 (same ▸ member)
  · intro e' q' reading'
    rw [received]
    exact numbered.read_below e' q' (reads e' q' reading').2
  · intro e' q' reading'
    have ⟨other, old⟩ := reads e' q' reading'
    rw [hands]
    refine ⟨fun w here => ?_, (numbered.read_new e' q' old).2⟩
    rw [waits, mem_append, mem_singleton] at here
    rcases here with before | rfl
    · exact (numbered.read_new e' q' old).1 w before
    · intro same
      exact other (numbered.read_distinct e' q' e w old reading same.symm)
  · intro e₁ q₁ e₂ q₂ reading₁ reading₂
    exact numbered.read_distinct e₁ q₁ e₂ q₂ (reads e₁ q₁ reading₁).2 (reads e₂ q₂ reading₂).2
  · intro e' q' reading'
    exact numbered.read_export e' q' (reads e' q' reading').2

theorem Numbered.hand (numbered : Numbered s) (member : q ∈ waiting s.log)
    (waits : waiting t.log = (waiting s.log).filter (·.id ≠ q.id))
    (hands : handed t.log = q.id :: handed s.log) (received : t.received = s.received)
    (proc : t.proc = s.proc) : Numbered t := by
  have left : ∀ w ∈ waiting t.log, w ∈ waiting s.log ∧ w.id ≠ q.id := by
    intro w here
    rw [waits, mem_filter] at here
    exact ⟨here.1, by simpa using here.2⟩
  constructor
  · intro w here
    rw [received]
    exact numbered.waiting_below w (left w here).1
  · rw [waits]
    exact numbered.waiting_distinct.sublist (filter_sublist.map _)
  · intro id here
    rw [hands, mem_cons] at here
    rw [received]
    rcases here with rfl | old
    · exact numbered.waiting_below q member
    · exact numbered.handed_below id old
  · rw [hands, nodup_cons]
    exact ⟨fun again => numbered.handed_left q.id again q member rfl, numbered.handed_distinct⟩
  · intro id here w waits_
    rw [hands, mem_cons] at here
    rcases here with rfl | old
    · exact (left w waits_).2
    · exact numbered.handed_left id old w (left w waits_).1
  · rw [received, proc]
    exact numbered.read_below
  · intro e q' reading
    rw [proc] at reading
    have new := numbered.read_new e q' reading
    refine ⟨fun w here => new.1 w (left w here).1, ?_⟩
    rw [hands, mem_cons, not_or]
    exact ⟨(new.1 q member).symm, new.2⟩
  · rw [proc]
    exact numbered.read_distinct
  · rw [proc]
    exact numbered.read_export

/-! ### The tail -/

/-- The step takes the last request out of the queue and leaves others in it. -/
def Orphans (s : State) : Action → Prop
  | .serve e _ => ∃ fq earlier last, s.proc e = .read fq ∧ fq.fcall.type = Tflush ∧
      waiting s.log = earlier ++ [last] ∧ earlier ≠ [] ∧ Names fq last ∧
      ∀ q ∈ earlier, ¬ Names fq q
  | .shutQueued e => ∃ earlier last, s.proc e = .closing ∧ waiting s.log = earlier ++ [last] ∧
      last.export = e ∧ ∃ q ∈ earlier, q.export ≠ e
  | _ => False

structure Sound (s : State) (cells : List Addr) : Prop where
  strung : Strung s cells
  tailed : Tailed s cells
  numbered : Numbered s

theorem Sound.inOrder (sound : Sound s cells) : InOrder s :=
  ⟨cells, sound.strung.chained, sound.strung.requests, sound.tailed⟩

theorem Strung.not_inOrder (strung : Strung s cells) (astray : ¬ Tailed s cells) : ¬ InOrder s := by
  rintro ⟨others, queued⟩
  have same := strung.chained.unique queued.chained
  subst same
  exact astray queued.tail

theorem Sound.untouched (sound : Sound s cells) (untouched : Untouched s t) : Sound t cells where
  strung := sound.strung.frame untouched.head untouched.entries untouched.waits
  tailed nonempty := untouched.tail.trans (sound.tailed nonempty)
  numbered := sound.numbered.untouched untouched

theorem sound_start (readonly : Nat → Bool) : Sound (start readonly) [] where
  strung := ⟨chained_nil.2 rfl, rfl, fun a => by simp [State.entry, start]⟩
  tailed nonempty := absurd rfl nonempty
  numbered := by constructor <;> simp [start, waiting, handed]

theorem Strung.entry_of_request {before : List Request} (strung : Strung s cells)
    (sub : ∀ b ∈ part, b ∈ cells)
    (same : part.map (fun b => (s.mem b).map Exq.request) = before.map some) {w : Request}
    (member : w ∈ before) : ∃ b ∈ part, ∃ next, s.entry b = some (w, next) := by
  have inMap : some w ∈ before.map some := mem_map_of_mem member
  rw [← same] at inMap
  have ⟨b, here, request⟩ := mem_map.1 inMap
  have ⟨_, next, entry⟩ := strung.entry_of_mem (sub b here)
  rw [State.request_of_entry entry] at request
  cases request
  exact ⟨b, here, next, entry⟩

private theorem nil_of_map_eq {before : List Request}
    (same : part.map (fun b => (s.mem b).map Exq.request) = before.map some) :
    part = [] ↔ before = [] := by
  have lengths := congrArg List.length same
  rw [length_map, length_map] at lengths
  rw [← length_eq_zero_iff, ← length_eq_zero_iff, lengths]

/-- `exflushed` on the queue keeps the tail unless it unlinks the last of several. -/
theorem flushQueued_sound (sound : Sound s cells) {fq : Request} (reading : s.proc e = .read fq)
    (flush : fq.fcall.type = Tflush) (a : Addr) :
    (¬ Orphans s (.serve e a) → ∃ cells', Sound (flushQueued s fq) cells') ∧
      (Orphans s (.serve e a) → ¬ InOrder (flushQueued s fq)) := by
  have orphans_iff : Orphans s (.serve e a) ↔ ∃ earlier last,
      waiting s.log = earlier ++ [last] ∧ earlier ≠ [] ∧ Names fq last ∧
        ∀ q ∈ earlier, ¬ Names fq q := by
    constructor
    · rintro ⟨fq', earlier, last, reading', _, rest⟩
      rw [reading] at reading'
      cases reading'
      exact ⟨earlier, last, rest⟩
    · rintro ⟨earlier, last, rest⟩
      exact ⟨fq, earlier, last, reading, flush, rest⟩
  rcases flushQueued_eq sound.strung sound.numbered.few fq with
    ⟨result, rejected⟩ | ⟨front, b, back, q, next, split, entry, names, rejected, result⟩
  · refine ⟨fun _ => ⟨cells, ?_⟩, fun orphans => ?_⟩
    · rw [result]
      exact sound.untouched (Untouched.setProc s fq.export (by simp))
    obtain ⟨earlier, last, waits, _, names, _⟩ := orphans_iff.1 orphans
    obtain ⟨b, here, _, entry⟩ := sound.strung.entry_of_request (fun _ here => here)
      sound.strung.requests (w := last) (by rw [waits]; simp)
    have accepted := (named_of_entry entry).2 names
    rw [rejected b here] at accepted
    cases accepted
  · subst split
    obtain ⟨before, behind, waits, front_eq, back_eq⟩ := sound.strung.split entry
    have waits' : waiting (.discarded q.id :: s.log) =
        (waiting s.log).filter (·.id ≠ q.id) := rfl
    have strung : Strung (flushQueued s fq) (front ++ back) := by
      rw [result]
      have unlinked := sound.strung.unlink sound.numbered.waiting_distinct entry waits'
      exact unlinked.frame rfl (fun _ => rfl) rfl
    have tail : (flushQueued s fq).tail = s.tail := by
      rw [result]
      simp [State.setProc, State.emit]
    have unnamed : ∀ w ∈ before, ¬ Names fq w := by
      intro _ member named
      obtain ⟨c, here, _, entry'⟩ := sound.strung.entry_of_request
        (fun c here => mem_append_left _ here) front_eq member
      have accepted := (named_of_entry entry').2 named
      rw [rejected c here] at accepted
      cases accepted
    have numbered : Numbered (flushQueued s fq) := by
      rw [result]
      refine sound.numbered.shrink ?_ ?_ ?_ ?_
      · simp only [State.setProc, State.emit, State.unlink_log, waits']
        exact filter_sublist
      · simp [State.setProc, State.emit, handed]
      · simp [State.setProc, State.emit]
      · intro e' q' reading'
        have other : ∀ q, Proc.answering fq ≠ .read q := by simp
        simpa [State.emit] using reads_setProc other e' q' reading'
    refine ⟨fun keeps => ?_, fun orphans => ?_⟩
    · refine ⟨front ++ back, strung, sound.tailed.remove tail ?_, numbered⟩
      by_contra last
      rw [not_or, not_not] at last
      obtain ⟨rfl, others⟩ := last
      have none_ : behind = [] := (nil_of_map_eq back_eq).1 rfl
      subst none_
      exact keeps (orphans_iff.2 ⟨before, q, waits,
        fun empty => others ((nil_of_map_eq front_eq).2 empty), names, unnamed⟩)
    obtain ⟨_, _, waits_, nonempty, _, unnamed_⟩ := orphans_iff.1 orphans
    rw [waits] at waits_
    have none_ : behind = [] := by
      rcases eq_nil_or_concat' behind with empty | ⟨middle, final, ending⟩
      · exact empty
      subst ending
      rw [← cons_append, ← append_assoc] at waits_
      have same := (append_inj' waits_ rfl).1
      exact absurd names (unnamed_ q (by rw [← same]; simp))
    subst none_
    have same := (append_inj' waits_ rfl).1
    have empty : back = [] := (nil_of_map_eq back_eq).2 rfl
    subst empty
    have others : front ≠ [] := by
      intro empty
      rw [(nil_of_map_eq front_eq).1 empty] at same
      exact nonempty same.symm
    apply strung.not_inOrder
    rw [append_nil]
    refine not_tailed_of_last sound.tailed tail others ?_
    have nodup := sound.strung.chained.nodup
    rw [nodup_append] at nodup
    exact fun member => nodup.2.2 b member b (by simp) rfl

/-- `exshutdown` on the queue keeps the tail unless it unlinks the last of several and leaves
others. -/
theorem shutQueued_sound (sound : Sound s cells) (stepped : shutQueued s e = some t) :
    (¬ Orphans s (.shutQueued e) → ∃ cells', Sound t cells') ∧
      (Orphans s (.shutQueued e) → ¬ InOrder t) := by
  unfold shutQueued at stepped
  split at stepped
  · rename_i closing
    cases stepped
    have ⟨swept, strung⟩ := unqueue_eq e [] cells (s.received + 1) sound.strung
      sound.numbered.waiting_distinct (by simp) (by
        rw [sound.strung.length_eq]
        exact Nat.lt_succ_of_le sound.numbered.few)
    simp only [nil_append] at strung
    set left := cells.filter fun a => !(s.entry a).any fun entry => entry.1.export = e with left_eq
    set t := (unqueue e (s.received + 1) none s).setProc e .abandoning with t_eq
    have strung' : Strung t left := strung.frame rfl (fun _ => rfl) rfl
    have tail : t.tail = s.tail := swept.tail
    have numbered : Numbered t := by
      refine sound.numbered.shrink ?_ ?_ swept.received ?_
      · have waits : waiting t.log = (waiting s.log).filter (·.export ≠ e) := swept.waits
        rw [waits]
        exact filter_sublist
      · have ⟨ids, events⟩ := swept.log
        have log : t.log = ids.map Event.abandoned ++ s.log := events
        rw [log]
        clear events log
        induction ids with
        | nil => rfl
        | cons id rest ih => exact ih
      · intro e' q reading
        have other : ∀ q, Proc.abandoning ≠ .read q := by simp
        have reading := reads_setProc other e' q reading
        have proc : (unqueue e (s.received + 1) none s).proc = s.proc := swept.proc
        rwa [proc] at reading
    -- the last cell decides
    rcases eq_nil_or_concat' cells with empty | ⟨front, last, ending⟩
    · subst empty
      refine ⟨fun _ => ⟨left, strung', fun nonempty => absurd rfl nonempty, numbered⟩, ?_⟩
      rintro ⟨earlier, final, _, waits, _⟩
      have lengths := sound.strung.length_eq
      rw [waits] at lengths
      simp at lengths
    subst ending
    have ⟨q, next, entry⟩ := sound.strung.entry_of_mem (a := last) (by simp)
    have ⟨before, behind, waits, front_eq, back_eq⟩ := sound.strung.split entry
    have none_ : behind = [] := (nil_of_map_eq back_eq).1 rfl
    subst none_
    have nodup := sound.strung.chained.nodup
    rw [nodup_append] at nodup
    have absent : last ∉ front := fun member => nodup.2.2 last member last (by simp) rfl
    by_cases ours : q.export = e
    · have shape : left = front.filter
          fun a => !(s.entry a).any fun entry => entry.1.export = e := by
        rw [left_eq, filter_append, filter_cons_of_neg (by simp [entry, ours])]
        simp
      have nonempty_iff : left ≠ [] ↔ ∃ w ∈ before, w.export ≠ e := by
        constructor
        · intro nonempty
          have ⟨b, member⟩ := exists_mem_of_ne_nil _ nonempty
          rw [shape, mem_filter] at member
          have ⟨w, next', entry'⟩ := sound.strung.entry_of_mem
            (mem_append_left _ member.1)
          have request : (some w : Option Request) ∈ before.map some := by
            rw [← front_eq, mem_map]
            exact ⟨b, member.1, State.request_of_entry entry'⟩
          have ⟨w', here, same⟩ := mem_map.1 request
          cases same
          refine ⟨w, here, ?_⟩
          have kept := member.2
          rw [entry'] at kept
          simpa using kept
        · rintro ⟨w, here, foreign⟩ empty
          have ⟨b, member, next', entry'⟩ := sound.strung.entry_of_request
            (fun c here => mem_append_left _ here) front_eq here
          have kept : b ∈ left := by
            rw [shape, mem_filter]
            exact ⟨member, by simp [entry', foreign]⟩
          rw [empty] at kept
          cases kept
      constructor
      · intro keeps
        refine ⟨left, strung', ?_, numbered⟩
        intro nonempty
        have ⟨w, here, foreign⟩ := nonempty_iff.1 nonempty
        exact absurd ⟨before, q, closing, waits, ours, w, here, foreign⟩ keeps
      rintro ⟨earlier, final, _, waits', _, w, here, foreign⟩
      rw [waits] at waits'
      have same := (append_inj' waits' rfl).1
      rw [← same] at here
      apply strung'.not_inOrder
      intro tailed
      have ends := tailed (nonempty_iff.2 ⟨w, here, foreign⟩)
      rw [tail, sound.tailed (by simp), getLast?_concat, shape] at ends
      exact absent (mem_filter.1 (mem_of_getLast? ends.symm)).1
    · have shape : left = front.filter
          (fun a => !(s.entry a).any fun entry => entry.1.export = e) ++ [last] := by
        rw [left_eq, filter_append, filter_cons_of_pos (by simp [entry, ours])]
        simp
      constructor
      · intro _
        refine ⟨left, strung', ?_, numbered⟩
        intro _
        rw [tail, sound.tailed (by simp), getLast?_concat, shape, getLast?_concat]
      rintro ⟨earlier, final, _, waits', ours', _⟩
      rw [waits] at waits'
      have same := (append_inj' waits' rfl).2
      cases same
      exact absurd ours' ours
  · cases stepped

theorem dispatch_sound (sound : Sound s cells) (stepped : dispatch s = some t) :
    ∃ a rest q next, cells = a :: rest ∧ s.entry a = some (q, next) ∧ Sound t rest ∧
      ∃ c, s.mem a = some c ∧ c.request = q ∧
        t = (({ s with head := c.next }.modify a fun c => { c with stage := .running }).setWork
          q.export (a :: s.work q.export)).emit (.dispatched q.id) := by
  unfold dispatch at stepped
  cases cells with
  | nil =>
    have empty : s.head = none := chained_nil.1 sound.strung.chained
    rw [empty] at stepped
    cases stepped
  | cons a rest =>
    have head : s.head = some a := (chained_cons.1 sound.strung.chained).1
    obtain ⟨q, _, entry⟩ := sound.strung.entry_of_mem (a := a) (by simp)
    obtain ⟨c, found, _, rfl, rfl⟩ := State.entry_eq_some.1 entry
    rw [head] at stepped
    simp only [found] at stepped
    cases stepped
    have strung : Strung s ([] ++ a :: rest) := sound.strung
    have tailed : Tailed s ([] ++ a :: rest) := sound.tailed
    refine ⟨a, rest, c.request, c.next, rfl, entry, ⟨?_, ?_, ?_⟩, c, found, rfl, rfl⟩
    · refine strung.remove sound.numbered.waiting_distinct entry ?_ ?_ ?_ ?_ rfl
      · intro slot other
        cases slot with
        | none => simp [State.link, State.emit, State.setWork, State.modify, endSlot]
        | some b =>
          have different : b ≠ a := fun same => other (congrArg some same)
          simp [State.link, State.emit, State.setWork, State.modify, endSlot, different]
      · intro b other
        simp [State.emit, State.setWork, State.modify, other]
      · simp [State.entry, State.emit, State.setWork, State.modify, found]
      · intro _ other
        simp [State.entry, State.emit, State.setWork, State.modify, other]
    · exact tailed.remove rfl (Or.inr rfl)
    · obtain ⟨_, _, waits, _⟩ := strung.split entry
      exact sound.numbered.hand (q := c.request) (by rw [waits]; simp) rfl rfl rfl rfl

theorem serve_sound (sound : Sound s cells) (stepped : serve s e a = some t) :
    (¬ Orphans s (.serve e a) → ∃ cells', Sound t cells') ∧
      (Orphans s (.serve e a) → ¬ InOrder t) := by
  unfold serve at stepped
  split at stepped
  · rename_i q reading
    have noFlush : q.fcall.type ≠ Tflush → ¬ Orphans s (.serve e a) := by
      rintro other ⟨fq, _, _, reading', flush, _⟩
      rw [reading] at reading'
      cases reading'
      exact other flush
    split_ifs at stepped with refusal flush unused
    · cases stepped
      have kept : Sound ((s.emit (.sent q.id Rerror)).setProc e .reading) cells :=
        sound.untouched ((Untouched.emit_sent s _ _).trans (Untouched.setProc _ e (by simp)))
      have other : q.fcall.type ≠ Tflush := by
        intro flush
        simp [refused, flush, Tflush, Topen, Tcreate, Twrite, Tremove, Twstat] at refusal
      exact ⟨fun _ => ⟨cells, kept⟩, fun orphans => absurd orphans (noFlush other)⟩
    · cases stepped
      exact flushQueued_sound sound reading flush a
    cases stepped
    have ⟨strung, tailed⟩ := sound.strung.enqueue sound.tailed unused q
    refine ⟨fun _ => ⟨cells ++ [a], strung.frame rfl (fun _ => rfl) rfl, tailed, ?_⟩,
      fun orphans => absurd orphans (noFlush flush)⟩
    have fields : (enqueue s a q).log = s.log ∧ (enqueue s a q).received = s.received ∧
        (enqueue s a q).proc = s.proc := by
      simp [enqueue, State.alloc]
    refine sound.numbered.accept reading ?_ ?_ ?_ ?_
    · simp [State.setProc, State.emit, waiting, fields.1]
    · simp [State.setProc, State.emit, handed, fields.1]
    · exact fields.2.1
    · simp [State.setProc, State.emit, fields.2.2]
  · cases stepped

theorem receive_sound (sound : Sound s cells) {f : Fcall} (stepped : receive s e f = some t) :
    Sound t cells := by
  unfold receive at stepped
  split at stepped
  · split_ifs at stepped
    · cases stepped
      exact ⟨sound.strung.frame rfl (fun _ => rfl) rfl, sound.tailed, sound.numbered.receive e f⟩
    · cases stepped
      exact sound.untouched (Untouched.setProc s e (by simp))
  · cases stepped

/-- One step keeps the queue in order, unless it takes the last of several requests. -/
theorem step_sound (sound : Sound s cells) (stepped : step s action = some t) :
    (¬ Orphans s action → ∃ cells', Sound t cells') ∧ (Orphans s action → ¬ InOrder t) := by
  cases action with
  | receive _ _ => exact ⟨fun _ => ⟨cells, receive_sound sound stepped⟩, fun never => never.elim⟩
  | serve _ _ => exact serve_sound sound stepped
  | shutQueued _ => exact shutQueued_sound sound stepped
  | dispatch =>
    have ⟨_, rest, _, _, _, _, kept, _⟩ := dispatch_sound sound stepped
    exact ⟨fun _ => ⟨rest, kept⟩, fun never => never.elim⟩
  | hangup | searchWork | answer | shutWork | complete | reply | relock | replyFlush | finish =>
    have kept := sound.untouched (step_untouched stepped rfl)
    exact ⟨fun _ => ⟨cells, kept⟩, fun never => never.elim⟩

end Infernode.Exportq
