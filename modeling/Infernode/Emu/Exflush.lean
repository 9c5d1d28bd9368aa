import Infernode.Emu.Exqtags

/-!
The flush protocol of an export.

Owns: that under the tag rule every step keeps the tags, accounts for every message, and sends
no reply to a request after the answer to a flush for it, and the protocol over whole runs.
-/

namespace Infernode.Exportq

open Links Runs List Function

/-! ### Each step keeps the tags -/

variable {log : List Event} {q : Request} {type : Nat}

/-- An answer to a message other than a flush answers no flush. -/
private theorem sent_other {f : Request}
    (unique : ∀ q w, .received q ∈ log → .received w ∈ log → q.id = w.id → q = w)
    (known : .received q ∈ log) (other : q.fcall.type ≠ Tflush) {r : Request}
    (targets : Targets log f r) (sent : Sent (.sent q.id type :: log) f) : Sent log f := by
  have ⟨fKnown, flush, _⟩ := targets.spec
  rcases mem_cons.1 sent with same | before
  · have equal := unique f q fKnown known same
    exact absurd (equal ▸ flush) other
  · exact before

variable {a : Addr} {c : Exq} {e' : Nat} {p : Proc} {kind : Request → Prop}

section Tags

variable {e : Nat} {s t : State}

/-- The cells of `t` are cells of `s`, with fewer flushes to answer. -/
private def Fewer (s t : State) : Prop :=
  ∀ a d, t.core a = some d → ∃ c, s.core a = some c ∧ d.request = c.request ∧
    d.pending.Sublist c.pending ∧ (d.unreplied → c.unreplied) ∧
    (d.stage = .queued → c.stage = .queued)

private theorem Fewer.of_kept (kept : ∀ a d, t.core a = some d → s.core a = some d) :
    Fewer s t :=
  fun a d cell => ⟨d, kept a d cell, rfl, List.Sublist.refl _, id, id⟩

private theorem Fewer.of_core (core : ∀ a, t.core a = s.core a) : Fewer s t :=
  .of_kept fun a _ cell => (core a).symm.trans cell

private theorem Fewer.of_rewrite {d : Exq} (cell : s.core a = some c)
    (core : ∀ b, t.core b = if b = a then some d else s.core b) (request : d.request = c.request)
    (pending : d.pending.Sublist c.pending) (unreplied : d.unreplied → c.unreplied)
    (queued : d.stage = .queued → c.stage = .queued) : Fewer s t := by
  intro b d' here
  rw [core] at here
  by_cases same : b = a
  · rw [if_pos same] at here
    cases here
    exact ⟨c, same ▸ cell, request, pending, unreplied, queued⟩
  · rw [if_neg same] at here
    exact ⟨d', here, rfl, List.Sublist.refl _, id, id⟩

private theorem Tagged.served (tagged : Tagged e s) (proc : t.proc = Function.update s.proc e' p)
    (cells : Fewer s t) (messages : SameMessages s.log t.log)
    (sends : ∀ f a d, t.core a = some d → d.request.export = e → d.unreplied →
      Targets s.log f d.request → Sent t.log f → Sent s.log f)
    (answers : ∀ f, p = .answering f → e = e' →
      ∀ a d, t.core a = some d → Targets s.log f d.request → ¬ d.unreplied)
    (searches : ∀ f, p = .searching f → e = e' → ∀ a d, t.core a = some d →
      d.stage = .queued → d.request.export = e → d.request.fcall.tag ≠ f.fcall.oldtag) :
    Tagged e t := by
  have before : ∀ r, t.proc e = r → e = e' ∧ p = r ∨ s.proc e = r := by
    intro _ here
    rw [proc] at here
    by_cases equal : e = e'
    · rw [equal, update_self] at here
      exact Or.inl ⟨equal, here⟩
    · rw [update_of_ne equal] at here
      exact Or.inr here
  refine tagged.shrink cells messages sends (fun f here => ?_) (fun f here => ?_)
  · rcases before _ here with ⟨equal, is⟩ | still
    · exact Or.inr (answers f is equal)
    · exact Or.inl still
  · rcases before _ here with ⟨equal, is⟩ | still
    · exact Or.inr (searches f is equal)
    · exact Or.inl still

private theorem Tagged.worked (tagged : Tagged e s) (proc : t.proc = s.proc) (cells : Fewer s t)
    (messages : SameMessages s.log t.log)
    (sends : ∀ f a d, t.core a = some d → d.request.export = e → d.unreplied →
      Targets s.log f d.request → Sent t.log f → Sent s.log f) : Tagged e t := by
  refine tagged.shrink cells messages sends ?_ ?_
  · rw [proc]
    exact fun f here => Or.inl here
  · rw [proc]
    exact fun f here => Or.inl here

theorem Effect.tagged (effect : Effect s t) (busy : Busy s) (tagged : Tagged e s)
    (tags : TagsKept e t.log) : Tagged e t := by
  have placed := busy.situated.placed
  have removed : ∀ a, (∀ b, t.core b = if b = a then none else s.core b) →
      ∀ b d, t.core b = some d → b ≠ a ∧ s.core b = some d := by
    intro a core b d cell
    rw [core] at cell
    by_cases here : b = a
    · rw [if_pos here] at cell
      cases cell
    · rw [if_neg here] at cell
      exact ⟨here, cell⟩
  have unsent : replies t.log = replies s.log → ∀ (f : Request) (a : Addr) (d : Exq),
      t.core a = some d → d.request.export = e → d.unreplied → Targets s.log f d.request →
      Sent t.log f → Sent s.log f := by
    intro equal f a d _ _ _ _ sent
    rwa [Sent, equal] at sent
  cases effect with
  | receive _ reading fresh _ core _ proc log =>
    refine tagged.receive busy reading fresh core proc log fun ours => ?_
    rw [log] at tags
    exact tags.1 ours
  | hangup _ _ _ core _ proc log =>
    exact tagged.served proc (.of_core core) (log ▸ SameMessages.refl _) (unsent (by rw [log]))
      (by simp) (by simp)
  | refuse e' q read other _ core _ proc log =>
    have member : q ∈ s.held e' := by simp [State.held, read, Proc.held]
    refine tagged.served proc (.of_core core) (log ▸ SameMessages.cons (by simp)) ?_ (by simp) (by simp)
    intro f a d _ _ _ targets sent
    rw [log] at sent
    exact sent_other placed.unique (placed.held_received e' q member).1 other targets sent
  | accept _ _ _ read _ _ _ core _ proc log =>
    exact tagged.accept busy read core proc log
  | discard e' fq a c read flush cell queued names _ core _ proc log =>
    have member : fq ∈ s.held e' := by simp [State.held, read, Proc.held]
    obtain ⟨known, own⟩ := placed.held_received e' fq member
    have rest := removed a core
    refine tagged.served proc (.of_kept fun b d here => (rest b d here).2)
      (log ▸ SameMessages.cons (by simp)) (unsent (by rw [log]; rfl)) ?_ (by simp)
    intro f is equal b d cell' targets unreplied
    cases is
    have ours : c.request.export = e := (names.1.trans own).trans equal.symm
    have last := tagged.cell_latest a c cell ours (Or.inl queued)
    rw [names.2, ← ours, names.1] at last
    have newest : ∀ w, .received w ∈ s.log → w.export = fq.export → w.id ≤ fq.id :=
      fun w known' ours' => busy.worked.newest e' fq w member known' (ours'.trans own)
    have equal' := (targets_newest tagged.ordered placed.unique known flush newest last
      (fun same => (placed.cell_received a c cell).2 (same ▸ flush)) _).1 targets
    obtain ⟨apart, old⟩ := rest b d cell'
    exact apart (placed.cell_unique b a d c old cell equal')
  | unfound e' fq read _ unnamed _ core _ proc log =>
    have member : fq ∈ s.held e' := by simp [State.held, read, Proc.held]
    obtain ⟨known, own⟩ := placed.held_received e' fq member
    refine tagged.served proc (.of_core core) (log ▸ SameMessages.refl _) (unsent (by rw [log]))
      (by simp) ?_
    intro f is equal a d cell queued ours tag
    cases is
    rw [core] at cell
    exact unnamed a d cell queued ⟨(ours.trans equal).trans own.symm, tag⟩
  | join _ _ _ _ search first cell _ _ core _ proc log =>
    exact tagged.join busy search first cell core proc log
  | late _ _ search done _ core _ proc log =>
    refine tagged.served proc (.of_core core) (log ▸ SameMessages.refl _) (unsent (by rw [log]))
      ?_ (by simp)
    intro f is equal b d cell targets unreplied
    cases is
    rw [core] at cell
    subst equal
    have finished := done b d (tagged.searched busy search cell unreplied targets) cell
    simp [Exq.unreplied, finished] at unreplied
  | answer e' fq answering _ core _ proc log =>
    have member : fq ∈ s.held e' := by simp [State.held, answering, Proc.held]
    obtain ⟨known, own⟩ := placed.held_received e' fq member
    refine tagged.served proc (.of_core core) (log ▸ SameMessages.cons (by simp)) ?_ (by simp) (by simp)
    intro f a d cell ours unreplied targets sent
    rw [log] at sent
    rcases mem_cons.1 sent with equal | before
    · have same := placed.unique f fq targets.spec.1 known equal
      subst same
      rw [core] at cell
      have here : e' = e := by
        obtain ⟨_, _, _, ours', _⟩ := targets.spec
        rw [← own, ← ours', ours]
      subst here
      exact absurd unreplied (tagged.answering f a d answering cell targets)
    · exact before
  | sweep e' ids _ _ gone kept _ proc log =>
    refine tagged.served proc (.of_kept fun a d cell => ?_)
      (log ▸ SameMessages.abandoned s.log ids) (unsent (by rw [log, replies_abandoned])) (by simp)
      (by simp)
    by_cases ours : ∃ c, s.core a = some c ∧ c.stage = .queued ∧ c.request.export = e'
    · obtain ⟨c, old, queued, mine⟩ := ours
      rw [gone a c old queued mine] at cell
      cases cell
    · rw [kept a fun c old queued mine => ours ⟨c, old, queued, mine⟩] at cell
      exact cell
  | shut e' _ _ core _ proc log =>
    refine tagged.served proc (fun a d cell => ?_) (log ▸ SameMessages.refl _)
      (unsent (by rw [log])) (by simp) (by simp)
    rw [core] at cell
    by_cases inWork : a ∈ s.work e'
    · rw [if_pos inWork, Option.map_eq_some_iff] at cell
      obtain ⟨c, old, is⟩ := cell
      cases is
      exact ⟨c, old, rfl, List.Sublist.refl _, id, id⟩
    · rw [if_neg inWork] at cell
      exact ⟨d, cell, rfl, List.Sublist.refl _, id, id⟩
  | dispatch _ _ cell queued _ _ core _ proc log =>
    refine tagged.worked proc (.of_rewrite cell core rfl ?_ ?_ ?_)
      (log ▸ SameMessages.cons (by simp)) (unsent (by rw [log]; rfl))
    · simp [Exq.pending, queued]
    · exact fun _ => Or.inl queued
    · exact fun _ => queued
  | slave a c d cell started request kept left pending unreplied dropped finished received core
      work proc log =>
      exact tagged.worked proc (.of_rewrite cell core request (pending ▸ List.Sublist.refl _)
        unreplied fun queued => absurd queued left) (log ▸ SameMessages.refl _)
        (unsent (by rw [log]))
  | reply a c _ cell replying _ core _ proc log =>
    obtain ⟨known, other⟩ := placed.cell_received a c cell
    refine tagged.worked proc (.of_rewrite cell core rfl ?_ ?_ ?_)
      (log ▸ SameMessages.cons (by simp)) ?_
    · simp [Exq.pending, replying]
    · simp [Exq.unreplied]
    · simp
    · intro f b d _ _ _ targets sent
      rw [log] at sent
      exact sent_other placed.unique known other targets sent
  | replyFlush a c fq cell flushing _ core _ proc log =>
    have pending : c.pending = fq :: c.flush := by simp [Exq.pending, flushing]
    have member : fq ∈ c.pending := by simp [pending]
    refine tagged.worked proc (.of_rewrite cell core rfl ?_ ?_ ?_)
      (log ▸ SameMessages.cons (by simp)) ?_
    · rw [pending]
      exact sublist_cons_self _ _
    · simp [Exq.unreplied]
    · simp
    intro f b d here ours unreplied targets sent
    rw [log] at sent
    rcases mem_cons.1 sent with equal | before
    · have known := (placed.pending_received a c fq cell member).1
      have same := placed.unique f fq targets.spec.1 known equal
      subst same
      rw [core] at here
      by_cases same : b = a
      · rw [if_pos same] at here
        cases here
        simp [Exq.unreplied] at unreplied
      · rw [if_neg same] at here
        exact absurd (tagged.pending a c f b d cell member here ours unreplied targets) same
    · exact before
  | finish a _ _ _ _ core _ proc log =>
    exact tagged.worked proc (.of_kept fun b d here => (removed a core b d here).2)
      (log ▸ SameMessages.refl _) (unsent (by rw [log]))

end Tags

/-! ### Every message is accounted for -/

/-- The connection is lost, or the export is done with it. -/
def Shutting (p : Proc) : Prop := p = .closing ∨ p = .abandoning ∨ p = .closed

/-- A message of the export is answered, or in a place that answers it, or was flushed. -/
def Accounted (e : Nat) (s : State) : Prop :=
  ∀ q, .received q ∈ s.log → q.export = e → ¬ Shutting (s.proc e) →
    Sent s.log q ∨ q ∈ s.held e ∨
      (∃ a c, s.core a = some c ∧ (c.request = q ∧ c.unreplied ∨ q ∈ c.pending)) ∨
      q.fcall.type ≠ Tflush ∧ ∃ f, Targets s.log f q

theorem accounted_start (e : Nat) (readonly : Nat → Bool) : Accounted e (start readonly) := by
  intro _ known
  cases known

/-- The slave of the cell still answers the message. -/
def Exq.Awaits (c : Exq) (q : Request) : Prop := c.request = q ∧ c.unreplied ∨ q ∈ c.pending

/-- A message is answered, or in a place that answers it, or was flushed. -/
def State.Settles (s : State) (e : Nat) (q : Request) : Prop :=
  Sent s.log q ∨ q ∈ s.held e ∨ (∃ a c, s.core a = some c ∧ c.Awaits q) ∨
    q.fcall.type ≠ Tflush ∧ ∃ f, Targets s.log f q

variable {s t : State} {e : Nat}

theorem State.settles_of_core (core : ∀ a, t.core a = s.core a) (a : Addr) (c : Exq) (q : Request)
    (cell : s.core a = some c) (awaits : c.Awaits q) : t.Settles e q :=
  Or.inr (Or.inr (Or.inl ⟨a, c, (core a).trans cell, awaits⟩))

/-- One rewritten address keeps the places of the others. -/
theorem State.settles_of_rewrite {new : Option Exq} (cell : s.core a = some c)
    (core : ∀ b, t.core b = if b = a then new else s.core b)
    (moved : c.request.export = e → c.Awaits q →
      t.Settles e q ∨ ∃ d, new = some d ∧ d.Awaits q) (b : Addr) (c' : Exq)
    (cell' : s.core b = some c') (ours : c'.request.export = e) (awaits : c'.Awaits q) :
    t.Settles e q := by
  by_cases same : b = a
  · subst same
    rw [cell] at cell'
    cases cell'
    rcases moved ours awaits with settled | ⟨d, is, place⟩
    · exact settled
    · exact Or.inr (Or.inr (Or.inl ⟨b, d, by rw [core, if_pos rfl, is], place⟩))
  · exact Or.inr (Or.inr (Or.inl ⟨b, c', by rw [core, if_neg same]; exact cell', awaits⟩))

/-- No message is new, and every answer stays. -/
structure Continues (log later : List Event) : Prop where
  messages : SameMessages log later
  sent : ∀ q, Sent log q → Sent later q

theorem Continues.refl {later : List Event} (same : later = log) : Continues log later := by
  rw [same]
  exact ⟨SameMessages.refl log, fun _ sent => sent⟩

theorem Continues.cons {log later : List Event} {event : Event} (grows : later = event :: log)
    (other : ∀ q, event ≠ .received q) : Continues log later := by
  rw [grows]
  refine ⟨SameMessages.cons other, fun q sent => ?_⟩
  cases event with
  | sent _ _ => exact mem_cons_of_mem _ sent
  | received | accepted | dispatched | discarded | abandoned => exact sent

section Accounted

variable {e : Nat} {s t : State}

/-- The places of a message that a step leaves. -/
private theorem Accounted.carry (accounted : Accounted e s) (busy : Busy s)
    (continues : Continues s.log t.log)
    (shutting : Shutting (s.proc e) → Shutting (t.proc e))
    (held : ∀ q, q ∈ s.held e → ¬ Shutting (t.proc e) → t.Settles e q)
    (cells : ¬ Shutting (t.proc e) → ∀ a c q, s.core a = some c → c.request.export = e →
      c.Awaits q → t.Settles e q) : Accounted e t := by
  intro q known ours open_
  have before := accounted q ((continues.messages.received q).1 known) ours fun shut =>
    open_ (shutting shut)
  rcases before with done | inHand | ⟨a, c, cell, place⟩ | ⟨other, f, targets⟩
  · exact Or.inl (continues.sent q done)
  · exact held q inHand open_
  · have export_ : c.request.export = e := by
      rcases place with ⟨rfl, _⟩ | member
      · exact ours
      · rw [← (busy.situated.placed.pending_received a c q cell member).2.1]
        exact ours
    exact cells open_ a c q cell export_ place
  · exact Or.inr (Or.inr (Or.inr ⟨other, f, (continues.messages.targets f q).2 targets⟩))

private theorem Accounted.served (accounted : Accounted e s) (busy : Busy s)
    (proc : t.proc = Function.update s.proc e' p) (continues : Continues s.log t.log)
    (shutting : Shutting (s.proc e') → Shutting p)
    (held : ∀ q ∈ (s.proc e').held, q ∈ p.held ∨ Shutting p ∨ t.Settles e' q)
    (cells : ¬ (e = e' ∧ Shutting p) → ∀ a c q, s.core a = some c → c.request.export = e →
      c.Awaits q → t.Settles e q) : Accounted e t := by
  by_cases same : e = e'
  · subst same
    have here : t.proc e = p := by rw [proc, update_self]
    refine accounted.carry busy continues (by rwa [here]) ?_ fun open_ =>
      cells fun shut => open_ (here ▸ shut.2)
    intro q inHand open_
    rcases held q inHand with kept | shut | settled
    · refine Or.inr (Or.inl ?_)
      rw [State.held, here]
      exact kept
    · exact absurd (here ▸ shut) open_
    · exact settled
  · have here : t.proc e = s.proc e := by rw [proc, update_of_ne same]
    refine accounted.carry busy continues (by rw [here]; exact id) ?_ fun _ =>
      cells fun shut => same shut.1
    intro _ inHand _
    refine Or.inr (Or.inl ?_)
    rw [State.held, here]
    exact inHand

private theorem Accounted.worked (accounted : Accounted e s) (busy : Busy s)
    (proc : t.proc = s.proc) (continues : Continues s.log t.log)
    (cells : ¬ Shutting (s.proc e) → ∀ a c q, s.core a = some c → c.request.export = e →
      c.Awaits q → t.Settles e q) : Accounted e t := by
  refine accounted.carry busy continues (by rw [proc]; exact id) ?_ (by rwa [proc])
  intro _ inHand _
  refine Or.inr (Or.inl ?_)
  rw [State.held, proc]
  exact inHand

theorem Effect.accounted (effect : Effect s t) (busy : Busy s) (tagged : Tagged e s)
    (accounted : Accounted e s) : Accounted e t := by
  have placed := busy.situated.placed
  have closed : ∀ a c, s.core a = some c → c.request.export = e → c.shut = true →
      Shutting (s.proc e) := by
    intro a c cell ours shut
    rw [← ours, busy.closing.shut_closed a c cell shut]
    exact Or.inr (Or.inr rfl)
  cases effect with
  | receive q reading _ _ core _ proc log =>
    intro w known ours open_
    by_cases new : w = q
    · subst new
      refine Or.inr (Or.inl ?_)
      rw [held_update proc, if_pos ours.symm]
      exact mem_singleton.2 rfl
    have old : .received w ∈ s.log := by
      rw [log] at known
      rcases mem_cons.1 known with same | old
      · cases same
        exact absurd rfl new
      · exact old
    have apart (same : e = q.export) : s.proc e = .reading := same ▸ reading
    have alive : ¬ Shutting (s.proc e) := by
      intro shut
      by_cases same : e = q.export
      · rw [apart same] at shut
        simp [Shutting] at shut
      · rw [proc, update_of_ne same] at open_
        exact open_ shut
    rcases accounted w old ours alive with done | inHand | ⟨a, c, cell, place⟩ |
      ⟨kind, f, targets⟩
    · exact Or.inl (by rw [log]; exact done)
    · have other : e ≠ q.export := by
        intro same
        simp [State.held, apart same, Proc.held] at inHand
      refine Or.inr (Or.inl ?_)
      rw [held_update proc, if_neg other]
      exact inHand
    · exact State.settles_of_core core a c w cell place
    · exact Or.inr (Or.inr (Or.inr ⟨kind, f, by rw [log]; exact targets.mono _⟩))
  | hangup _ reading _ core _ proc log =>
    exact accounted.served busy proc (.refl log) (by simp [Shutting, reading])
      (by simp [reading, Proc.held])
      fun _ a c q cell _ => State.settles_of_core core a c q cell
  | refuse _ q read _ _ core _ proc log =>
    refine accounted.served busy proc (.cons log (by simp)) (by simp [Shutting, read]) ?_
      fun _ a c q cell _ => State.settles_of_core core a c q cell
    intro w inHand
    have equal : w = q := by simpa [read, Proc.held] using inHand
    exact Or.inr (Or.inr (Or.inl (by rw [log, equal]; exact mem_cons_self)))
  | accept _ q a read _ unused _ core _ proc log =>
    refine accounted.served busy proc (.cons log (by simp)) (by simp [Shutting, read]) ?_ ?_
    · intro w inHand
      have equal : w = q := by simpa [read, Proc.held] using inHand
      subst equal
      exact Or.inr (Or.inr (Or.inr (Or.inr (Or.inl
        ⟨a, _, by rw [core, if_pos rfl], Or.inl ⟨rfl, Or.inl rfl⟩⟩))))
    intro _ b c w cell _ place
    have apart : b ≠ a := by
      intro same
      rw [same, unused] at cell
      cases cell
    exact Or.inr (Or.inr (Or.inl ⟨b, c, by rw [core, if_neg apart]; exact cell, place⟩))
  | discard e' fq a c read flush cell queued names _ core _ proc log =>
    have member : fq ∈ s.held e' := by simp [State.held, read, Proc.held]
    obtain ⟨known, own⟩ := placed.held_received e' fq member
    refine accounted.served busy proc (.cons log (by simp)) (by simp [Shutting, read])
      (by simp [read, Proc.held])
      fun _ b d w cell' ours place =>
        State.settles_of_rewrite cell core (fun ours place => Or.inl ?_) b d cell' ours place
    rcases place with ⟨same, _⟩ | inPending
    · subst same
      have other := (placed.cell_received a c cell).2
      refine Or.inr (Or.inr (Or.inr ⟨other, fq, ?_⟩))
      have last := tagged.cell_latest a c cell ours (Or.inl queued)
      rw [names.2, ← ours, names.1] at last
      have newest : ∀ w, .received w ∈ s.log → w.export = fq.export → w.id ≤ fq.id :=
        fun w known' ours' => busy.worked.newest e' fq w member known' (ours'.trans own)
      rw [log]
      exact ((targets_newest tagged.ordered placed.unique known flush newest last
        (fun same => other (same ▸ flush)) _).2 rfl).mono _
    · have empty := busy.closing.unstarted a c cell queued
      simp [Exq.pending, queued, empty] at inPending
  | unfound _ _ read _ _ _ core _ proc log =>
    exact accounted.served busy proc (.refl log) (by simp [Shutting, read])
      (by simp [read, Proc.held])
      fun _ a c q cell _ => State.settles_of_core core a c q cell
  | join _ fq a c search _ cell _ _ core _ proc log =>
    have longer : Exq.pending { c with flush := c.flush ++ [fq] } = c.pending ++ [fq] := by
      unfold Exq.pending
      cases stage : c.stage <;> rfl
    refine accounted.served busy proc (.refl log) (by simp [Shutting, search]) ?_
      fun _ b d w cell' ours place =>
        State.settles_of_rewrite cell core (fun _ place => Or.inr ⟨_, rfl, ?_⟩) b d cell' ours
          place
    · intro w inHand
      have equal : w = fq := by simpa [search, Proc.held] using inHand
      refine Or.inr (Or.inr (Or.inr (Or.inr (Or.inl
        ⟨a, _, by rw [core, if_pos rfl], Or.inr ?_⟩))))
      rw [longer, equal]
      simp
    · rcases place with asked | inPending
      · exact Or.inl asked
      · exact Or.inr (by rw [longer]; exact mem_append_left _ inPending)
  | late _ _ search _ _ core _ proc log =>
    exact accounted.served busy proc (.refl log) (by simp [Shutting, search])
      (by simp [search, Proc.held])
      fun _ a c q cell _ => State.settles_of_core core a c q cell
  | answer _ fq answering _ core _ proc log =>
    refine accounted.served busy proc (.cons log (by simp)) (by simp [Shutting, answering]) ?_
      fun _ a c q cell _ => State.settles_of_core core a c q cell
    intro w inHand
    have equal : w = fq := by simpa [answering, Proc.held] using inHand
    exact Or.inr (Or.inr (Or.inl (by rw [log, equal]; exact mem_cons_self)))
  | sweep _ ids closing _ _ still _ proc log =>
    refine accounted.served busy proc ⟨log ▸ SameMessages.abandoned _ ids, fun q sent => by
        rwa [log, Sent, replies_abandoned]⟩
      (fun _ => Or.inr (Or.inl rfl)) (by simp [closing, Proc.held]) ?_
    intro apart a c w cell ours place
    refine Or.inr (Or.inr (Or.inl ⟨a, c, ?_, place⟩))
    rw [still a]
    · exact cell
    intro c' cell' _ mine
    rw [cell] at cell'
    cases cell'
    exact apart ⟨ours.symm.trans mine, Or.inr (Or.inl rfl)⟩
  | shut e' abandoning _ core _ proc log =>
    refine accounted.served busy proc (.refl log) (fun _ => Or.inr (Or.inr rfl))
      (by simp [abandoning, Proc.held]) ?_
    intro _ a c w cell _ place
    refine Or.inr (Or.inr (Or.inl ?_))
    by_cases inWork : a ∈ s.work e'
    · refine ⟨a, { c with shut := true }, ?_, place⟩
      rw [core, if_pos inWork, cell]
      rfl
    · exact ⟨a, c, by rw [core, if_neg inWork]; exact cell, place⟩
  | dispatch _ _ cell queued _ _ core _ proc log =>
    refine accounted.worked busy proc (.cons log (by simp)) fun _ b d w cell' ours place =>
        State.settles_of_rewrite cell core (fun _ place => Or.inr ⟨_, rfl, ?_⟩) b d cell' ours
          place
    rcases place with ⟨request, _⟩ | inPending
    · exact Or.inl ⟨request, Or.inr (Or.inl rfl)⟩
    · exact Or.inr (by simpa [Exq.pending, queued] using inPending)
  | slave a c d cell started request shut left pending unreplied dropped finished received core
      work proc log =>
      refine accounted.worked busy proc (.refl log) fun open_ b c' w cell' ours place =>
          State.settles_of_rewrite cell core (fun ours place => ?_) b c' cell' ours place
      rcases place with ⟨same, before⟩ | inPending
      · by_cases after : d.unreplied
        · exact Or.inr ⟨d, rfl, Or.inl ⟨request.trans same, after⟩⟩
        subst same
        rcases dropped before after with shut_ | nonempty
        · exact absurd (closed a c cell ours shut_) open_
        obtain ⟨f, inPending⟩ := exists_mem_of_ne_nil _ nonempty
        have targets := tagged.joined a c f cell ours before inPending
        exact Or.inl (Or.inr (Or.inr (Or.inr
          ⟨(placed.cell_received a c cell).2, f, by rw [log]; exact targets⟩)))
      · exact Or.inr ⟨d, rfl, Or.inr (by rw [pending]; exact inPending)⟩
  | reply _ _ _ cell replying _ core _ proc log =>
    refine accounted.worked busy proc (.cons log (by simp)) fun _ b c' w cell' ours place =>
        State.settles_of_rewrite cell core (fun _ place => ?_) b c' cell' ours place
    rcases place with ⟨same, _⟩ | inPending
    · exact Or.inl (Or.inl (by rw [log, ← same]; exact mem_cons_self))
    · exact Or.inr ⟨_, rfl, Or.inr (by simpa [Exq.pending, replying] using inPending)⟩
  | replyFlush _ c fq cell flushing _ core _ proc log =>
    have pending : c.pending = fq :: c.flush := by simp [Exq.pending, flushing]
    refine accounted.worked busy proc (.cons log (by simp)) fun _ b c' w cell' ours place =>
        State.settles_of_rewrite cell core (fun _ place => ?_) b c' cell' ours place
    rcases place with ⟨_, unreplied⟩ | inPending
    · simp [Exq.unreplied, flushing] at unreplied
    rw [pending, mem_cons] at inPending
    rcases inPending with done | later
    · exact Or.inl (Or.inl (by rw [log, done]; exact mem_cons_self))
    · exact Or.inr ⟨_, rfl, Or.inr later⟩
  | finish a c cell finished _ core _ proc log =>
    refine accounted.worked busy proc (.refl log) fun open_ b c' w cell' ours place =>
        State.settles_of_rewrite cell core (fun ours place => ?_) b c' cell' ours place
    exfalso
    rcases place with ⟨_, unreplied⟩ | inPending
    · simp [Exq.unreplied, finished] at unreplied
    · rcases busy.closing.finished a c cell finished with empty | shut
      · simp [Exq.pending, finished, empty] at inPending
      · exact open_ (closed a c cell ours shut)

end Accounted

/-! ### The order of replies -/

theorem mem_replies {id : Nat} (sent : .sent id type ∈ log) : id ∈ replies log := by
  induction log with
  | nil => cases sent
  | cons event _ ih =>
    rcases mem_cons.1 sent with same | old
    · rw [← same]
      exact mem_cons_self
    · cases event <;> simp [replies, ih old]

def NoneAfter (e : Nat) (kind : Request → Prop) (log : List Event) : Prop :=
  ∀ newer older f q type, log = newer ++ .sent f.id type :: older → f.export = e →
    Targets log f q → kind q → ¬ Sent newer q

theorem noneAfter_cons {event : Event} (before : NoneAfter e kind log)
    (fresh : ∀ q, event = .received q → ¬ Sent log q)
    (later : ∀ f q type, event = .sent q.id type → f.export = e → Targets log f q → kind q →
      ¬ Sent log f) : NoneAfter e kind (event :: log) := by
  intro newer older f q type split ours targets isKind sent
  cases newer with
  | nil => cases sent
  | cons _ newer =>
    cases split
    have answered : Sent (newer ++ .sent f.id type :: older) f := by
      have here : .sent f.id type ∈ newer ++ .sent f.id type :: older := by simp
      exact mem_replies here
    rcases targets_cons.1 targets with ⟨new, _⟩ | targets
    · exact fresh f new answered
    have either : (∃ type, event = .sent q.id type) ∨ Sent newer q := by
      cases event with
      | sent _ type =>
        rcases mem_cons.1 sent with same | old
        · exact Or.inl ⟨type, by rw [same]⟩
        · exact Or.inr old
      | received | accepted | dispatched | discarded | abandoned => exact Or.inr sent
    rcases either with ⟨type', same⟩ | old
    · exact later f q type' same ours targets isKind answered
    · exact before newer older f q type rfl ours targets isKind old

/-- No flush is for a message that its connection still has in hand. -/
theorem Busy.untargeted (busy : Busy s) (ordered : Ordered s.log) (member : q ∈ s.held e)
    (f : Request) : ¬ Targets s.log f q := by
  intro targets
  have ⟨known, _, _, ours, _⟩ := targets.spec
  have ⟨_, own⟩ := busy.situated.placed.held_received e q member
  have earlier := targets.earlier ordered
  have le := busy.worked.newest e q f member known (ours.symm.trans own)
  omega

/-- The message that a step replies to: one that its connection has in hand, the request of a
slave, or a flush that the slave answers. -/
inductive Replies (s : State) (q : Request) (type : Nat) : Prop
  | inHand (e : Nat) (member : q ∈ s.held e) (right : q.fcall.type = Tflush → type = Rflush)
  | request (a : Addr) (c : Exq) (cell : s.core a = some c) (replying : c.stage = .replying type)
      (ours : c.request = q)
  | flush (a : Addr) (c : Exq) (cell : s.core a = some c) (member : q ∈ c.pending)
      (right : type = Rflush)

theorem Replies.received (replies : Replies s q type) (busy : Busy s) :
    .received q ∈ s.log ∧ (q.fcall.type = Tflush → type = Rflush) := by
  have placed := busy.situated.placed
  cases replies with
  | inHand e member right => exact ⟨(placed.held_received e q member).1, right⟩
  | request a c cell _ ours =>
    have ⟨known, other⟩ := placed.cell_received a c cell
    exact ⟨ours ▸ known, fun flush => absurd flush (ours ▸ other)⟩
  | flush a c cell member right =>
    exact ⟨(placed.pending_received a c q cell member).1, fun _ => right⟩

inductive Adds (s : State) : List Event → Prop
  | received (q : Request) (fresh : q.id = s.received) : Adds s (.received q :: s.log)
  | sent (q : Request) (type : Nat) (replies : Replies s q type) :
      Adds s (.sent q.id type :: s.log)
  | plain : Adds s s.log
  | other (event : Event) (log : List Event) (adds : Adds s log)
      (notReceived : ∀ q, event ≠ .received q) (notSent : ∀ id type, event ≠ .sent id type) :
      Adds s (event :: log)

theorem Effect.adds (effect : Effect s t) : Adds s t.log := by
  cases effect with
  | receive q _ fresh _ _ _ _ log => exact log ▸ .received q fresh
  | hangup _ _ _ _ _ _ log => exact log ▸ .plain
  | refuse e q read kind _ _ _ _ log =>
    exact log ▸ .sent q _ (.inHand e (by simp [State.held, read, Proc.held])
      fun flush => absurd flush kind)
  | accept _ _ _ _ _ _ _ _ _ _ log =>
    exact log ▸ .other _ _ .plain (by simp) (by simp)
  | discard _ _ _ _ _ _ _ _ _ _ _ _ _ log =>
    exact log ▸ .other _ _ .plain (by simp) (by simp)
  | unfound _ _ _ _ _ _ _ _ _ log => exact log ▸ .plain
  | join _ _ _ _ _ _ _ _ _ _ _ _ log => exact log ▸ .plain
  | late _ _ _ _ _ _ _ _ log => exact log ▸ .plain
  | answer e fq answering _ _ _ _ log =>
    exact log ▸ .sent fq _ (.inHand e (by simp [State.held, answering, Proc.held]) fun _ => rfl)
  | sweep _ ids _ _ _ _ _ _ log =>
    rw [log]
    clear log
    induction ids with
    | nil => exact .plain
    | cons _ _ ih =>
      exact .other _ _ ih (by simp) (by simp)
  | shut _ _ _ _ _ _ log => exact log ▸ .plain
  | dispatch _ _ _ _ _ _ _ _ _ log =>
    exact log ▸ .other _ _ .plain (by simp) (by simp)
  | slave a c d cell started request shut left pending unreplied dropped finished received core
      work proc log => exact log ▸ .plain
  | reply a c type cell replying _ _ _ _ log =>
    exact log ▸ .sent c.request type (.request a c cell replying rfl)
  | replyFlush a c fq cell flushing _ _ _ _ log =>
    exact log ▸ .sent fq _ (.flush a c cell (by simp [Exq.pending, flushing]) rfl)
  | finish _ _ _ _ _ _ _ _ log => exact log ▸ .plain

theorem Effect.noneAfter (effect : Effect s t) (busy : Busy s) (tagged : Tagged e s)
    (kinds : ∀ f q, f.export = e → Targets s.log f q → kind q →
      q.fcall.type ≠ Tflush ∨ Sent s.log q) (before : NoneAfter e kind s.log) :
    NoneAfter e kind t.log := by
  have placed := busy.situated.placed
  have adds := effect.adds
  generalize t.log = later at adds ⊢
  induction adds with
  | received _ _ =>
    refine noneAfter_cons before ?_ (by simp)
    intro w same sent
    cases same
    have below := placed.sent_below _ sent
    omega
  | sent w _ replies =>
    refine noneAfter_cons before (by simp) fun f q type' same ours targets isKind => ?_
    injection same with ids _
    have ⟨_, _, known, ours', _⟩ := targets.spec
    have equal := placed.unique w q (replies.received busy).1 known ids
    subst equal
    cases replies with
    | inHand _ member _ =>
      exact absurd targets (busy.untargeted tagged.ordered member f)
    | request a c cell replying mine =>
      subst mine
      exact tagged.unanswered f a c cell (ours'.trans ours) (Or.inr (Or.inr ⟨_, replying⟩))
        targets
    | flush a c cell member _ =>
      rcases kinds f w ours targets isKind with other | sent
      · exact absurd (placed.pending_received a c w cell member).2.2 other
      · exact absurd sent (placed.pending_unsent a c w cell member)
  | plain => exact before
  | other _ _ _ notReceived notSent ih =>
    exact noneAfter_cons ih (fun q same => absurd same (notReceived q))
      fun f q type same => absurd same (notSent q.id type)

/-- A flush is answered with `Rflush`. -/
def Typed (log : List Event) : Prop :=
  ∀ q type, .received q ∈ log → q.fcall.type = Tflush → .sent q.id type ∈ log → type = Rflush

theorem Effect.typed (effect : Effect s t) (busy : Busy s) (before : Typed s.log) :
    Typed t.log := by
  have placed := busy.situated.placed
  have adds := effect.adds
  generalize t.log = later at adds ⊢
  induction adds with
  | received _ _ =>
    intro w type known flush sent
    have sent : .sent w.id type ∈ s.log := by simpa using sent
    rcases mem_cons.1 known with same | known
    · cases same
      have below := placed.sent_below _ (mem_replies sent)
      omega
    · exact before w type known flush sent
  | sent w _ replies =>
    have ⟨known, right⟩ := replies.received busy
    intro q type' known' flush sent
    have known' : .received q ∈ s.log := by simpa using known'
    rcases mem_cons.1 sent with same | sent
    · injection same with ids types
      have equal := placed.unique q w known' known ids
      subst equal
      exact types.trans (right flush)
    · exact before q type' known' flush sent
  | plain => exact before
  | other _ _ _ notReceived notSent ih =>
    intro q type known flush sent
    rcases mem_cons.1 known with same | known
    · exact absurd same.symm (notReceived q)
    · rcases mem_cons.1 sent with same | sent
      · exact absurd same.symm (notSent q.id type)
      · exact ih q type known flush sent

end Infernode.Exportq
