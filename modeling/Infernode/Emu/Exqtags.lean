import Infernode.Emu.Exqwork

/-!
Tags and the flushes that name them.

Owns: the request that a flush is for, the rule by which a client reuses tags, and that under
this rule no request whose reply is still to come was flushed by an answered flush.
-/

namespace Infernode.Exportq

open Links Runs List Function

def latest : List Event → Nat → Nat → Option Request
  | [], _, _ => none
  | .received q :: older, e, tag =>
    if q.export = e ∧ q.fcall.tag = tag then some q else latest older e tag
  | _ :: older, e, tag => latest older e tag

/-- The flush `f` was received, and `q` was then the last request with the tag it names. -/
def Targets (log : List Event) (f q : Request) : Prop :=
  ∃ newer older, log = newer ++ .received f :: older ∧ f.fcall.type = Tflush ∧
    latest older f.export f.fcall.oldtag = some q

/-- The last request with the tag was replied to, or a flush for it was. -/
def TagFree (log : List Event) (e tag : Nat) : Prop :=
  ∀ q, latest log e tag = some q → Sent log q ∨ ∃ f, Targets log f q ∧ Sent log f

def TagsKept (e : Nat) : List Event → Prop
  | [] => True
  | .received q :: older => (q.export = e → TagFree older e q.fcall.tag) ∧ TagsKept e older
  | _ :: older => TagsKept e older

def FlushesKept (e : Nat) : List Event → Prop
  | [] => True
  | .received f :: older =>
    (f.export = e → f.fcall.type = Tflush → ∀ q, latest older e f.fcall.oldtag = some q →
      q.fcall.type = Tflush → Sent older q) ∧ FlushesKept e older
  | _ :: older => FlushesKept e older

/-- The requests are numbered in the order of the log. -/
def Ordered : List Event → Prop
  | [] => True
  | .received q :: older => (∀ w, .received w ∈ older → w.id < q.id) ∧ Ordered older
  | _ :: older => Ordered older

/-! ### The last request with a tag -/

variable {log : List Event} {e : Nat} {q w f : Request} {s t : State}

variable {tag e' : Nat} {fq : Request} {a : Addr}

theorem latest_received (last : latest log e tag = some q) :
    .received q ∈ log ∧ q.export = e ∧ q.fcall.tag = tag := by
  induction log with
  | nil => cases last
  | cons event _ ih =>
    cases event with
    | received _ =>
      rw [latest] at last
      split_ifs at last with here
      · cases last
        exact ⟨mem_cons_self, here⟩
      · exact (ih last).imp_left (mem_cons_of_mem _)
    | accepted | dispatched | discarded | abandoned | sent =>
      exact (ih last).imp_left (mem_cons_of_mem _)

theorem latest_isSome (known : .received w ∈ log) :
    ∃ q, latest log w.export w.fcall.tag = some q := by
  induction log with
  | nil => cases known
  | cons event older ih =>
    cases event with
    | received q =>
      by_cases here : q.export = w.export ∧ q.fcall.tag = w.fcall.tag
      · exact ⟨q, by rw [latest, if_pos here]⟩
      have earlier : .received w ∈ older := by
        rcases mem_cons.1 known with same | earlier
        · cases same
          exact absurd ⟨rfl, rfl⟩ here
        · exact earlier
      rw [latest, if_neg here]
      exact ih earlier
    | accepted | dispatched | discarded | abandoned | sent =>
      exact ih (by simpa using known)

theorem latest_max (ordered : Ordered log) (last : latest log e tag = some q)
    (known : .received w ∈ log) (ours : w.export = e) (tagged : w.fcall.tag = tag) :
    w.id ≤ q.id := by
  induction log with
  | nil => cases known
  | cons event _ ih =>
    cases event with
    | received _ =>
      rw [latest] at last
      split_ifs at last with here
      · cases last
        rcases mem_cons.1 known with same | earlier
        · cases same
          exact Nat.le_refl _
        · exact Nat.le_of_lt (ordered.1 w earlier)
      rcases mem_cons.1 known with same | earlier
      · cases same
        exact absurd ⟨ours, tagged⟩ here
      · exact ih ordered.2 last earlier
    | accepted | dispatched | discarded | abandoned | sent =>
      exact ih ordered last (by simpa using known)

theorem ordered_append {newer older : List Event} (ordered : Ordered (newer ++ older)) :
    Ordered older ∧ ∀ q w, .received q ∈ newer → .received w ∈ older → w.id < q.id := by
  induction newer with
  | nil => exact ⟨ordered, by simp⟩
  | cons event _ ih =>
    cases event with
    | received _ =>
      have ⟨older_, apart⟩ := ih ordered.2
      refine ⟨older_, fun q w member known => ?_⟩
      rcases mem_cons.1 member with same | later
      · cases same
        exact ordered.1 w (mem_append_right _ known)
      · exact apart q w later known
    | accepted | dispatched | discarded | abandoned | sent =>
      have ⟨older_, apart⟩ := ih ordered
      exact ⟨older_, fun q w member known => apart q w (by simpa using member) known⟩

/-! ### What a flush is for -/

theorem Targets.spec (targets : Targets log f q) :
    .received f ∈ log ∧ f.fcall.type = Tflush ∧ .received q ∈ log ∧ q.export = f.export ∧
      q.fcall.tag = f.fcall.oldtag := by
  have ⟨_, _, split, flush, last⟩ := targets
  have ⟨known, ours, tagged⟩ := latest_received last
  subst split
  exact ⟨by simp, flush, by simp [known], ours, tagged⟩

theorem Targets.earlier (ordered : Ordered log) (targets : Targets log f q) : q.id < f.id := by
  have ⟨_, _, split, _, last⟩ := targets
  subst split
  exact (ordered_append ordered).1.1 q (latest_received last).1

theorem Targets.mono (targets : Targets log f q) (event : Event) : Targets (event :: log) f q := by
  have ⟨newer, older, split, rest⟩ := targets
  exact ⟨event :: newer, older, by rw [split]; rfl, rest⟩

theorem targets_cons {event : Event} :
    Targets (event :: log) f q ↔
      event = .received f ∧ f.fcall.type = Tflush ∧
        latest log f.export f.fcall.oldtag = some q ∨ Targets log f q := by
  constructor
  · rintro ⟨newer, older, split, flush, last⟩
    cases newer with
    | nil =>
      cases split
      exact Or.inl ⟨rfl, flush, last⟩
    | cons _ newer =>
      cases split
      exact Or.inr ⟨newer, older, rfl, flush, last⟩
  · rintro (⟨rfl, flush, last⟩ | targets)
    · exact ⟨[], log, rfl, flush, last⟩
    · exact targets.mono event

theorem targets_newest (ordered : Ordered log)
    (unique : ∀ q w, .received q ∈ log → .received w ∈ log → q.id = w.id → q = w)
    (known : .received f ∈ log) (flush : f.fcall.type = Tflush)
    (newest : ∀ w, .received w ∈ log → w.export = f.export → w.id ≤ f.id)
    (last : latest log f.export f.fcall.oldtag = some w) (other : w ≠ f) (q : Request) :
    Targets log f q ↔ q = w := by
  have ⟨wKnown, ours, tagged⟩ := latest_received last
  have older_ : ∀ newer older, log = newer ++ .received f :: older → .received w ∈ older := by
    intro newer older split
    rw [split] at wKnown ordered
    rcases mem_append.1 wKnown with later | rest
    · have above := (ordered_append ordered).2 w f later (by simp)
      have le := newest w (by rw [split]; exact mem_append_left _ later) ours
      omega
    rcases mem_cons.1 rest with same | earlier
    · cases same
      exact absurd rfl other
    · exact earlier
  have only : ∀ newer older v, log = newer ++ .received f :: older →
      latest older f.export f.fcall.oldtag = some v → v = w := by
    intro newer older v split last'
    have ordered' : Ordered older := by
      rw [split] at ordered
      exact (ordered_append ordered).1.2
    have below := latest_max ordered' last' (older_ newer older split) ours tagged
    have ⟨vKnown, ours', tagged'⟩ := latest_received last'
    have vKnown' : .received v ∈ log := by
      rw [split]
      simp [vKnown]
    have above := latest_max ordered last vKnown' ours' tagged'
    exact unique v w vKnown' wKnown (Nat.le_antisymm above below)
  constructor
  · rintro ⟨newer, older, split, _, last'⟩
    exact only newer older q split last'
  rintro rfl
  have ⟨newer, older, split⟩ := append_of_mem known
  have ⟨v, last'⟩ := latest_isSome (older_ newer older split)
  rw [ours, tagged] at last'
  have same := only newer older v split last'
  subst same
  exact ⟨newer, older, split, flush, last'⟩

/-! ### Logs without a new message -/

structure SameMessages (log later : List Event) : Prop where
  received : ∀ q, .received q ∈ later ↔ .received q ∈ log
  latest : ∀ e tag, latest later e tag = latest log e tag
  targets : ∀ f q, Targets later f q ↔ Targets log f q
  ordered : Ordered later ↔ Ordered log
  tags : ∀ e, TagsKept e later ↔ TagsKept e log

theorem SameMessages.refl (log : List Event) : SameMessages log log :=
  ⟨fun _ => Iff.rfl, fun _ _ => rfl, fun _ _ => Iff.rfl, Iff.rfl, fun _ => Iff.rfl⟩

theorem SameMessages.trans {later last : List Event} (first : SameMessages log later)
    (second : SameMessages later last) : SameMessages log last where
  received q := (second.received q).trans (first.received q)
  latest e tag := (second.latest e tag).trans (first.latest e tag)
  targets f q := (second.targets f q).trans (first.targets f q)
  ordered := second.ordered.trans first.ordered
  tags e := (second.tags e).trans (first.tags e)

theorem SameMessages.cons {log : List Event} {event : Event} (other : ∀ q, event ≠ .received q) :
    SameMessages log (event :: log) := by
  have targets : ∀ f q, Targets (event :: log) f q ↔ Targets log f q := by
    intro f q
    rw [targets_cons]
    constructor
    · rintro (⟨same, _⟩ | targets)
      · exact absurd same (other f)
      · exact targets
    · exact Or.inr
  cases event with
  | received q => exact absurd rfl (other q)
  | accepted | dispatched | discarded | abandoned | sent =>
    exact ⟨by simp, fun _ _ => rfl, targets, Iff.rfl, fun _ => Iff.rfl⟩

theorem SameMessages.abandoned (log : List Event) (ids : List Nat) :
    SameMessages log (ids.map Event.abandoned ++ log) := by
  induction ids with
  | nil => exact SameMessages.refl log
  | cons _ _ ih =>
    exact ih.trans (SameMessages.cons (by simp))

/-! ### Tags of requests under way -/

/-- The requests of an export whose reply is still to come have their tags to themselves, and
no answered flush was for one of them. -/
structure Tagged (e : Nat) (s : State) : Prop where
  ordered : Ordered s.log
  cell_latest : ∀ a c, s.core a = some c → c.request.export = e → c.unreplied →
    latest s.log e c.request.fcall.tag = some c.request
  unanswered : ∀ f a c, s.core a = some c → c.request.export = e → c.unreplied →
    Targets s.log f c.request → ¬ Sent s.log f
  answering : ∀ f a c, s.proc e = .answering f → s.core a = some c →
    Targets s.log f c.request → ¬ c.unreplied
  pending : ∀ a c f b d, s.core a = some c → f ∈ c.pending → s.core b = some d →
    d.request.export = e → d.unreplied → Targets s.log f d.request → b = a
  joined : ∀ a c f, s.core a = some c → c.request.export = e → c.unreplied → f ∈ c.pending →
    Targets s.log f c.request
  searching : ∀ f a c, s.proc e = .searching f → s.core a = some c → c.stage = .queued →
    c.request.export = e → c.request.fcall.tag ≠ f.fcall.oldtag

theorem tagged_start (e : Nat) (readonly : Nat → Bool) : Tagged e (start readonly) := by
  constructor <;> simp [start, State.core, Ordered]

theorem Tagged.shrink (tagged : Tagged e s)
    (cells : ∀ a d, t.core a = some d → ∃ c, s.core a = some c ∧ d.request = c.request ∧
      d.pending.Sublist c.pending ∧ (d.unreplied → c.unreplied) ∧
      (d.stage = .queued → c.stage = .queued)) (messages : SameMessages s.log t.log)
    (sends : ∀ f a d, t.core a = some d → d.request.export = e → d.unreplied →
      Targets s.log f d.request → Sent t.log f → Sent s.log f)
    (answers : ∀ f, t.proc e = .answering f → s.proc e = .answering f ∨
      ∀ a d, t.core a = some d → Targets s.log f d.request → ¬ d.unreplied)
    (searches : ∀ f, t.proc e = .searching f → s.proc e = .searching f ∨
      ∀ a d, t.core a = some d → d.stage = .queued → d.request.export = e →
        d.request.fcall.tag ≠ f.fcall.oldtag) : Tagged e t where
  ordered := messages.ordered.2 tagged.ordered
  cell_latest a d cell ours unreplied := by
    have ⟨c, old, same, _, before, _⟩ := cells a d cell
    rw [messages.latest, same]
    exact tagged.cell_latest a c old (same ▸ ours) (before unreplied)
  unanswered f a d cell ours unreplied targets sent := by
    have ⟨c, old, same, _, before, _⟩ := cells a d cell
    rw [messages.targets] at targets
    have earlier := sends f a d cell ours unreplied targets sent
    rw [same] at targets ours
    exact tagged.unanswered f a c old ours (before unreplied) targets earlier
  answering f a d answering cell targets unreplied := by
    rw [messages.targets] at targets
    rcases answers f answering with still | now
    · have ⟨c, old, same, _, before, _⟩ := cells a d cell
      exact tagged.answering f a c still old (same ▸ targets) (before unreplied)
    · exact now a d cell targets unreplied
  pending a c f b d cell member cell' ours unreplied targets := by
    have ⟨c₀, old, _, sub, _⟩ := cells a c cell
    have ⟨d₀, old', same, _, before, _⟩ := cells b d cell'
    rw [messages.targets, same] at targets
    exact tagged.pending a c₀ f b d₀ old (sub.subset member) old' (same ▸ ours)
      (before unreplied) targets
  joined a c f cell ours unreplied member := by
    have ⟨c₀, old, same, sub, before, _⟩ := cells a c cell
    rw [messages.targets, same]
    exact tagged.joined a c₀ f old (same ▸ ours) (before unreplied) (sub.subset member)
  searching f a d searching cell queued ours := by
    rcases searches f searching with still | now
    · have ⟨c, old, same, _, _, before⟩ := cells a d cell
      rw [same]
      exact tagged.searching f a c still old (before queued) (same ▸ ours)
    · exact now a d cell queued ours

theorem Tagged.searched (tagged : Tagged e s) (busy : Busy s) (search : s.proc e = .searching fq)
    {b : Addr} {d : Exq} (cell : s.core b = some d) (unreplied : d.unreplied)
    (targets : Targets s.log fq d.request) : (s.work e).find? (named s fq) = some b := by
  have member : fq ∈ s.held e := by simp [State.held, search, Proc.held]
  obtain ⟨_, own⟩ := busy.situated.placed.held_received e fq member
  obtain ⟨_, _, _, ours, tag⟩ := targets.spec
  rw [own] at ours
  have started : d.stage ≠ .queued := by
    intro queued
    exact tagged.searching fq b d search cell queued ours tag
  have unshut : d.shut = false := by
    cases shut : d.shut with
    | false => rfl
    | true =>
      have closed := busy.closing.shut_closed b d cell shut
      rw [ours, search] at closed
      cases closed
  have inWork : b ∈ s.work e := by
    refine (busy.worked.mem_iff e b).2 ⟨d.view, State.view_of_core cell, ours, ?_, unshut⟩
    simp [Exq.view, started]
  have isNamed : named s fq b = true := named_iff.2 ⟨d, cell, ours.trans own.symm, tag⟩
  cases found : (s.work e).find? (named s fq) with
  | none =>
    have never := find?_eq_none.1 found b inWork
    exact absurd isNamed never
  | some a =>
    obtain ⟨accepted, _, _, split, rejected⟩ := find?_eq_some_iff_append.1 found
    rw [split] at inWork
    rcases mem_append.1 inWork with before | rest
    · have never := rejected b before
      rw [isNamed] at never
      cases never
    rcases mem_cons.1 rest with same | behind
    · rw [same]
    obtain ⟨c, cell', names⟩ := named_iff.1 accepted
    have order := busy.worked.sorted e
    rw [split, pairwise_append, pairwise_cons] at order
    have less := order.2.1.1 b behind c.view d.view (State.view_of_core cell')
      (State.view_of_core cell)
    have last := tagged.cell_latest b d cell ours unreplied
    have le := latest_max tagged.ordered last
      (busy.situated.placed.cell_received a c cell').1 (names.1.trans own)
      (names.2.trans tag.symm)
    have less' : d.request.id < c.request.id := less
    omega

theorem Tagged.receive (tagged : Tagged e s) (busy : Busy s) (reading : s.proc q.export = .reading)
    (fresh : q.id = s.received) (core : ∀ a, t.core a = s.core a)
    (proc : t.proc = Function.update s.proc q.export (.read q)) (log : t.log = .received q :: s.log)
    (free : q.export = e → TagFree s.log e q.fcall.tag) : Tagged e t := by
  have placed := busy.situated.placed
  have procs : ∀ p, t.proc e = p → (∀ r, p ≠ .read r) → s.proc e = p := by
    intro _ here other
    rw [proc] at here
    by_cases same : e = q.export
    · rw [same, update_self] at here
      exact absurd here.symm (other q)
    · rwa [update_of_ne same] at here
  have older : ∀ f a c, s.core a = some c → Targets (.received q :: s.log) f c.request →
      f = q ∨ Targets s.log f c.request := by
    intro f a c cell targets
    rcases targets_cons.1 targets with ⟨same, _⟩ | before
    · cases same
      exact Or.inl rfl
    · exact Or.inr before
  have unsent : ¬ Sent s.log q := by
    intro sent
    have below := placed.sent_below _ sent
    omega
  have pendingOld : ∀ a c f, s.core a = some c → f ∈ c.pending → f ≠ q := by
    rintro a c f cell member rfl
    have below := placed.below f (placed.pending_received a c f cell member).1
    omega
  constructor
  · rw [log]
    exact ⟨fun w known => fresh ▸ placed.below w known, tagged.ordered⟩
  · intro a c cell ours unreplied
    rw [core] at cell
    have before := tagged.cell_latest a c cell ours unreplied
    rw [log, latest]
    split_ifs with here
    · exfalso
      have tagFree := free here.1
      rw [here.2] at tagFree
      rcases tagFree c.request before with sent | ⟨f, targets, sent⟩
      · exact placed.cell_unsent a c cell unreplied sent
      · exact tagged.unanswered f a c cell ours unreplied targets sent
    · exact before
  · intro f a c cell ours unreplied targets sent
    rw [core] at cell
    rw [log] at targets sent
    rcases older f a c cell targets with rfl | before
    · exact unsent sent
    · exact tagged.unanswered f a c cell ours unreplied before sent
  · intro f a c answering cell targets
    have answering' := procs _ answering (by simp)
    rw [core] at cell
    rw [log] at targets
    have member : f ∈ s.held e := by simp [State.held, answering', Proc.held]
    have below := placed.below f (placed.held_received e f member).1
    rcases older f a c cell targets with rfl | before
    · omega
    · exact tagged.answering f a c answering' cell before
  · intro a c f b d cell member cell' ours unreplied targets
    rw [core] at cell cell'
    rw [log] at targets
    rcases older f b d cell' targets with same | before
    · exact absurd same (pendingOld a c f cell member)
    · exact tagged.pending a c f b d cell member cell' ours unreplied before
  · intro a c f cell ours unreplied member
    rw [core] at cell
    rw [log]
    exact (tagged.joined a c f cell ours unreplied member).mono _
  · intro f a c searching cell
    rw [core] at cell
    exact tagged.searching f a c (procs _ searching (by simp)) cell

/-- A message that is accepted was the last with its tag. -/
theorem Tagged.accept (tagged : Tagged e s) (busy : Busy s) (read : s.proc e' = .read q)
    (core : ∀ b, t.core b = if b = a then some ⟨q, none, [], false, .queued⟩ else s.core b)
    (proc : t.proc = Function.update s.proc e' .reading) (log : t.log = .accepted q :: s.log) :
    Tagged e t := by
  have placed := busy.situated.placed
  have member : q ∈ s.held e' := by simp [State.held, read, Proc.held]
  obtain ⟨known, own⟩ := placed.held_received e' q member
  have messages : SameMessages s.log t.log := by
    rw [log]
    exact SameMessages.cons (by simp)
  have newest : ∀ w, .received w ∈ s.log → w.export = q.export → w.id ≤ q.id :=
    fun w known' ours => busy.worked.newest e' q w member known' (ours.trans own)
  -- no flush is for a message that no other message of its export follows
  have untargeted : ∀ f, ¬ Targets s.log f q := by
    intro f targets
    obtain ⟨fKnown, _, _, ours, _⟩ := targets.spec
    have earlier := targets.earlier tagged.ordered
    have le := newest f fKnown ours.symm
    omega
  have cases_ : ∀ b d, t.core b = some d →
      b = a ∧ d = ⟨q, none, [], false, .queued⟩ ∨ s.core b = some d := by
    intro b d cell
    rw [core] at cell
    by_cases here : b = a
    · rw [if_pos here] at cell
      cases cell
      exact Or.inl ⟨here, rfl⟩
    · rw [if_neg here] at cell
      exact Or.inr cell
  have sent : ∀ f, Sent t.log f ↔ Sent s.log f := by
    intro f
    rw [log]
    exact Iff.rfl
  have procs : ∀ p, t.proc e = p → p ≠ .reading → s.proc e = p ∧ e ≠ e' := by
    intro _ here other
    rw [proc] at here
    by_cases same : e = e'
    · rw [same, update_self] at here
      exact absurd here.symm other
    · rw [update_of_ne same] at here
      exact ⟨here, same⟩
  constructor
  · exact messages.ordered.2 tagged.ordered
  · intro b d cell ours unreplied
    rw [messages.latest]
    rcases cases_ b d cell with ⟨_, rfl⟩ | old
    · obtain ⟨w, last⟩ := latest_isSome known
      have le := latest_max tagged.ordered last known rfl rfl
      obtain ⟨wKnown, wOurs, _⟩ := latest_received last
      have ge := newest w wKnown wOurs
      have same := placed.unique w q wKnown known (Nat.le_antisymm ge le)
      have ours' : q.export = e := ours
      rw [ours', same] at last
      exact last
    · exact tagged.cell_latest b d old ours unreplied
  · intro f b d cell ours unreplied targets
    rw [messages.targets] at targets
    rw [sent]
    rcases cases_ b d cell with ⟨_, rfl⟩ | old
    · exact absurd targets (untargeted f)
    · exact tagged.unanswered f b d old ours unreplied targets
  · intro f b d answering cell targets
    rw [messages.targets] at targets
    rcases cases_ b d cell with ⟨_, rfl⟩ | old
    · exact absurd targets (untargeted f)
    · exact tagged.answering f b d (procs _ answering (by simp)).1 old targets
  · intro b c f b' d cell inPending cell' ours unreplied targets
    rw [messages.targets] at targets
    rcases cases_ b c cell with ⟨_, rfl⟩ | old
    · cases inPending
    · rcases cases_ b' d cell' with ⟨_, rfl⟩ | old'
      · exact absurd targets (untargeted f)
      · exact tagged.pending b c f b' d old inPending old' ours unreplied targets
  · intro b c f cell ours unreplied inPending
    rw [messages.targets]
    rcases cases_ b c cell with ⟨_, rfl⟩ | old
    · cases inPending
    · exact tagged.joined b c f old ours unreplied inPending
  · intro f b d searching cell queued ours
    obtain ⟨searching', other⟩ := procs _ searching (by simp)
    rcases cases_ b d cell with ⟨_, rfl⟩ | old
    · exact absurd (ours.symm.trans own) other
    · exact tagged.searching f b d searching' old queued ours

/-- A flush joins the flushes of the request that it is for, when that is unreplied. -/
theorem Tagged.join (tagged : Tagged e s) (busy : Busy s) {c : Exq}
    (search : s.proc e' = .searching fq) (first : (s.work e').find? (named s fq) = some a)
    (cell : s.core a = some c)
    (core : ∀ b, t.core b = if b = a then some { c with flush := c.flush ++ [fq] } else s.core b)
    (proc : t.proc = Function.update s.proc e' .reading) (log : t.log = s.log) : Tagged e t := by
  have placed := busy.situated.placed
  have member : fq ∈ s.held e' := by simp [State.held, search, Proc.held]
  obtain ⟨known, own⟩ := placed.held_received e' fq member
  have flush := busy.situated.flushing e' fq (Or.inl search)
  obtain ⟨_, cell', names⟩ := named_iff.1 (find?_some first)
  rw [cell] at cell'
  cases cell'
  have longer : Exq.pending { c with flush := c.flush ++ [fq] } = c.pending ++ [fq] := by
    unfold Exq.pending
    cases stage : c.stage <;> rfl
  have cases_ : ∀ b d, t.core b = some d → ∃ d₀, s.core b = some d₀ ∧ d.request = d₀.request ∧
      (d.unreplied ↔ d₀.unreplied) ∧ (d.stage = d₀.stage) ∧
      ∀ w ∈ d.pending, w ∈ d₀.pending ∨ b = a ∧ w = fq := by
    intro b d here
    rw [core] at here
    by_cases same : b = a
    · rw [if_pos same] at here
      cases here
      refine ⟨c, same ▸ cell, rfl, Iff.rfl, rfl, fun w inPending => ?_⟩
      rw [longer, mem_append, mem_singleton] at inPending
      exact inPending.imp_right fun new => ⟨same, new⟩
    · rw [if_neg same] at here
      exact ⟨d, here, rfl, Iff.rfl, rfl, fun w inPending => Or.inl inPending⟩
  have procs : ∀ p, t.proc e = p → p ≠ .reading → s.proc e = p := by
    intro _ here other
    rw [proc] at here
    by_cases same : e = e'
    · rw [same, update_self] at here
      exact absurd here.symm other
    · rwa [update_of_ne same] at here
  constructor
  · rw [log]
    exact tagged.ordered
  · intro b d here ours unreplied
    obtain ⟨d₀, old, same, iff, _, _⟩ := cases_ b d here
    rw [log, same]
    exact tagged.cell_latest b d₀ old (same ▸ ours) (iff.1 unreplied)
  · intro f b d here ours unreplied targets
    obtain ⟨d₀, old, same, iff, _, _⟩ := cases_ b d here
    rw [log] at targets ⊢
    exact tagged.unanswered f b d₀ old (same ▸ ours) (iff.1 unreplied) (same ▸ targets)
  · intro f b d answering here targets unreplied
    obtain ⟨d₀, old, same, iff, _, _⟩ := cases_ b d here
    rw [log] at targets
    exact tagged.answering f b d₀ (procs _ answering (by simp)) old (same ▸ targets)
      (iff.1 unreplied)
  · intro b c₁ f b' d here inPending here' ours unreplied targets
    obtain ⟨c₀, old, _, _, _, pendings⟩ := cases_ b c₁ here
    obtain ⟨d₀, old', same, iff, _, _⟩ := cases_ b' d here'
    rw [log] at targets
    rw [same] at targets ours
    rcases pendings f inPending with before | ⟨here_, new⟩
    · exact tagged.pending b c₀ f b' d₀ old before old' ours (iff.1 unreplied) targets
    subst new
    have equal : e' = e := by
      obtain ⟨_, _, _, ours', _⟩ := targets.spec
      rw [← own, ← ours', ours]
    subst equal
    have found := tagged.searched busy search old' (iff.1 unreplied) targets
    rw [first] at found
    cases found
    exact here_.symm
  · intro b d f here ours unreplied inPending
    obtain ⟨d₀, old, same, iff, _, pendings⟩ := cases_ b d here
    rw [log, same]
    rw [same] at ours
    rcases pendings f inPending with before | ⟨rfl, new⟩
    · exact tagged.joined b d₀ f old ours (iff.1 unreplied) before
    subst new
    rw [cell] at old
    cases old
    have last := tagged.cell_latest b c cell ours (iff.1 unreplied)
    rw [names.2, ← ours, names.1] at last
    refine (targets_newest tagged.ordered placed.unique known flush ?_ last ?_ _).2 rfl
    · exact fun w known' ours' => busy.worked.newest e' f w member known' (ours'.trans own)
    · intro equal
      exact (placed.cell_received b c cell).2 (equal ▸ flush)
  · intro f b d searching here queued ours
    obtain ⟨d₀, old, same, _, stage, _⟩ := cases_ b d here
    rw [same]
    exact tagged.searching f b d₀ (procs _ searching (by simp)) old (stage ▸ queued) (same ▸ ours)

end Infernode.Exportq
