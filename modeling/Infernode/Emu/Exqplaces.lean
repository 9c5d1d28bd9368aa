import Infernode.Emu.Exqeffect

/-!
The place of each request.

Owns: that a request is in one place at a time, the message in hand of its connection, a
request of a slave or a flush that a slave will answer, that it has no reply as long as it is
in a place that replies to it, and hence that no request is replied to twice.
-/

namespace Infernode.Exportq

open Links Runs List Function

/-- The numbers of the messages that were replied to. -/
def replies : List Event → List Nat
  | [] => []
  | .sent id _ :: older => id :: replies older
  | _ :: older => replies older

def Sent (log : List Event) (q : Request) : Prop := q.id ∈ replies log

structure Placed (core : Addr → Option Exq) (held : Nat → List Request) (received : Nat)
    (log : List Event) : Prop where
  below : ∀ q, .received q ∈ log → q.id < received
  unique : ∀ q w, .received q ∈ log → .received w ∈ log → q.id = w.id → q = w
  held_received : ∀ e q, q ∈ held e → .received q ∈ log ∧ q.export = e
  cell_received : ∀ a c, core a = some c →
    .received c.request ∈ log ∧ c.request.fcall.type ≠ Tflush
  pending_received : ∀ a c fq, core a = some c → fq ∈ c.pending →
    .received fq ∈ log ∧ fq.export = c.request.export ∧ fq.fcall.type = Tflush
  cell_unique : ∀ a b c d, core a = some c → core b = some d → c.request = d.request → a = b
  pending_unique : ∀ a b c d fq, core a = some c → core b = some d →
    fq ∈ c.pending → fq ∈ d.pending → a = b
  pending_nodup : ∀ a c, core a = some c → c.pending.Nodup
  held_apart : ∀ e q a c, q ∈ held e → core a = some c → q ≠ c.request ∧ q ∉ c.pending
  held_unsent : ∀ e q, q ∈ held e → ¬ Sent log q
  cell_unsent : ∀ a c, core a = some c → c.unreplied → ¬ Sent log c.request
  pending_unsent : ∀ a c fq, core a = some c → fq ∈ c.pending → ¬ Sent log fq
  sent_below : ∀ id ∈ replies log, id < received
  sent_once : (replies log).Nodup

variable {e : Nat} {a : Addr} {s t : State}

namespace Placed

variable {core core' : Addr → Option Exq} {held held' : Nat → List Request} {received : Nat}
  {log log' : List Event}

/-- Requests leave their places, or stay with fewer flushes to answer. -/
theorem shrink (placed : Placed core held received log)
    (helds : ∀ e q, q ∈ held' e → q ∈ held e)
    (cells : ∀ a c', core' a = some c' → ∃ c, core a = some c ∧ c'.request = c.request ∧
      c'.pending.Sublist c.pending ∧ (c'.unreplied → c.unreplied))
    (receipts : ∀ q, .received q ∈ log' ↔ .received q ∈ log)
    (sends : replies log' = replies log) : Placed core' held' received log' := by
  have sent : ∀ q, Sent log' q ↔ Sent log q := fun q => by rw [Sent, Sent, sends]
  constructor
  · intro q member
    exact placed.below q ((receipts q).1 member)
  · intro q w member member'
    exact placed.unique q w ((receipts q).1 member) ((receipts w).1 member')
  · intro e q member
    rw [receipts]
    exact placed.held_received e q (helds e q member)
  · intro a c' cell
    have ⟨c, cell, same, _⟩ := cells a c' cell
    rw [receipts, same]
    exact placed.cell_received a c cell
  · intro a c' fq cell member
    have ⟨c, cell, same, sub, _⟩ := cells a c' cell
    rw [receipts, same]
    exact placed.pending_received a c fq cell (sub.subset member)
  · intro a b c' d' cell cell' same
    have ⟨c, cell, equal, _⟩ := cells a c' cell
    have ⟨d, cell', equal', _⟩ := cells b d' cell'
    exact placed.cell_unique a b c d cell cell' (by rw [← equal, ← equal', same])
  · intro a b c' d' fq cell cell' member member'
    have ⟨c, cell, _, sub, _⟩ := cells a c' cell
    have ⟨d, cell', _, sub', _⟩ := cells b d' cell'
    exact placed.pending_unique a b c d fq cell cell' (sub.subset member) (sub'.subset member')
  · intro a c' cell
    have ⟨c, cell, _, sub, _⟩ := cells a c' cell
    exact (placed.pending_nodup a c cell).sublist sub
  · intro e q a c' member cell
    have ⟨c, cell, same, sub, _⟩ := cells a c' cell
    have ⟨apart, absent⟩ := placed.held_apart e q a c (helds e q member) cell
    rw [same]
    exact ⟨apart, fun inPending => absent (sub.subset inPending)⟩
  · intro e q member
    rw [sent]
    exact placed.held_unsent e q (helds e q member)
  · intro a c' cell unreplied
    have ⟨c, cell, same, _, kept⟩ := cells a c' cell
    rw [sent, same]
    exact placed.cell_unsent a c cell (kept unreplied)
  · intro a c' fq cell member
    have ⟨c, cell, _, sub, _⟩ := cells a c' cell
    rw [sent]
    exact placed.pending_unsent a c fq cell (sub.subset member)
  · rw [sends]
    exact placed.sent_below
  · rw [sends]
    exact placed.sent_once

/-- A reply to a request that is in no place any more. -/
theorem send (placed : Placed core held received log) {q : Request} (type : Nat)
    (known : .received q ∈ log) (unsent : ¬ Sent log q) (released : ∀ e, q ∉ held e)
    (left : ∀ a c, core a = some c → (c.unreplied → c.request ≠ q) ∧ q ∉ c.pending) :
    Placed core held received (.sent q.id type :: log) := by
  have receipts : ∀ w, .received w ∈ (.sent q.id type :: log) ↔ .received w ∈ log := by
    intro w
    simp
  have sent : ∀ w, .received w ∈ log → w ≠ q → ¬ Sent log w →
      ¬ Sent (.sent q.id type :: log) w := by
    intro w member different before now
    rcases mem_cons.1 now with same | old
    · exact different (placed.unique w q member known same)
    · exact before old
  constructor
  · exact fun w member => placed.below w ((receipts w).1 member)
  · exact fun w v member member' =>
      placed.unique w v ((receipts w).1 member) ((receipts v).1 member')
  · intro e w member
    rw [receipts]
    exact placed.held_received e w member
  · intro a c cell
    rw [receipts]
    exact placed.cell_received a c cell
  · intro a c fq cell member
    rw [receipts]
    exact placed.pending_received a c fq cell member
  · exact placed.cell_unique
  · exact placed.pending_unique
  · exact placed.pending_nodup
  · exact placed.held_apart
  · intro e w member
    refine sent w (placed.held_received e w member).1 ?_ (placed.held_unsent e w member)
    intro same
    exact released e (same ▸ member)
  · intro a c cell unreplied
    exact sent _ (placed.cell_received a c cell).1 ((left a c cell).1 unreplied)
      (placed.cell_unsent a c cell unreplied)
  · intro a c fq cell member
    refine sent fq (placed.pending_received a c fq cell member).1 ?_
      (placed.pending_unsent a c fq cell member)
    intro same
    exact (left a c cell).2 (same ▸ member)
  · intro id member
    rcases mem_cons.1 member with rfl | old
    · exact placed.below q known
    · exact placed.sent_below id old
  · exact nodup_cons.2 ⟨unsent, placed.sent_once⟩

theorem receive (placed : Placed core held received log) (q : Request) (fresh : q.id = received)
    (idle : held q.export = []) :
    Placed core (Function.update held q.export [q]) (received + 1) (.received q :: log) := by
  have old : ∀ w, .received w ∈ log → w ≠ q := by
    rintro w member rfl
    have below := placed.below w member
    omega
  have helds : ∀ e w, w ∈ Function.update held q.export [q] e →
      e = q.export ∧ w = q ∨ w ∈ held e := by
    intro e w member
    by_cases same : e = q.export
    · subst same
      rw [update_self, mem_singleton] at member
      exact Or.inl ⟨rfl, member⟩
    · rw [update_of_ne same] at member
      exact Or.inr member
  have unsent : ¬ Sent log q := by
    intro sent
    have below := placed.sent_below _ sent
    omega
  constructor
  · intro w member
    rcases mem_cons.1 member with same | member
    · cases same
      omega
    · exact Nat.lt_succ_of_lt (placed.below w member)
  · intro w v member member' same
    rcases mem_cons.1 member with first | member <;>
      rcases mem_cons.1 member' with second | member'
    · cases first
      cases second
      rfl
    · cases first
      have below := placed.below v member'
      omega
    · cases second
      have below := placed.below w member
      omega
    · exact placed.unique w v member member' same
  · intro e w member
    rcases helds e w member with ⟨rfl, rfl⟩ | member
    · exact ⟨mem_cons_self, rfl⟩
    · exact (placed.held_received e w member).imp_left (mem_cons_of_mem _)
  · intro a c cell
    exact (placed.cell_received a c cell).imp_left (mem_cons_of_mem _)
  · intro a c fq cell member
    exact (placed.pending_received a c fq cell member).imp_left (mem_cons_of_mem _)
  · exact placed.cell_unique
  · exact placed.pending_unique
  · exact placed.pending_nodup
  · intro e w a c member cell
    rcases helds e w member with ⟨_, rfl⟩ | member
    · exact ⟨(old _ (placed.cell_received a c cell).1).symm,
        fun inPending => old w (placed.pending_received a c w cell inPending).1 rfl⟩
    · exact placed.held_apart e w a c member cell
  · intro e w member
    rcases helds e w member with ⟨_, rfl⟩ | member
    · exact unsent
    · exact placed.held_unsent e w member
  · exact placed.cell_unsent
  · exact placed.pending_unsent
  · exact fun id member => Nat.lt_succ_of_lt (placed.sent_below id member)
  · exact placed.sent_once

/-- A message in hand that is not a flush becomes a waiting request. -/
theorem accept (placed : Placed core held received log) {q : Request} (member : q ∈ held e)
    (other : q.fcall.type ≠ Tflush) (unused : core a = none)
    (helds : ∀ e' w, w ∈ held' e' → w ∈ held e' ∧ w ≠ q)
    (cells : ∀ b, core' b = if b = a then some ⟨q, none, [], false, .queued⟩ else core b) :
    Placed core' held' received (.accepted q :: log) := by
  have known := (placed.held_received e q member).1
  have unsent := placed.held_unsent e q member
  have receipts : ∀ w, .received w ∈ (.accepted q :: log) ↔ .received w ∈ log := by
    intro w
    simp
  have cases_ : ∀ b c, core' b = some c →
      b = a ∧ c = ⟨q, none, [], false, .queued⟩ ∨ b ≠ a ∧ core b = some c := by
    intro b c cell
    rw [cells] at cell
    by_cases here : b = a
    · rw [if_pos here] at cell
      cases cell
      exact Or.inl ⟨here, rfl⟩
    · rw [if_neg here] at cell
      exact Or.inr ⟨here, cell⟩
  constructor
  · exact fun w received_ => placed.below w ((receipts w).1 received_)
  · exact fun w v first second => placed.unique w v ((receipts w).1 first) ((receipts v).1 second)
  · intro e' w here
    rw [receipts]
    exact placed.held_received e' w (helds e' w here).1
  · intro b c cell
    rw [receipts]
    rcases cases_ b c cell with ⟨_, rfl⟩ | ⟨_, cell⟩
    · exact ⟨known, other⟩
    · exact placed.cell_received b c cell
  · intro b c fq cell inPending
    rw [receipts]
    rcases cases_ b c cell with ⟨_, rfl⟩ | ⟨_, cell⟩
    · cases inPending
    · exact placed.pending_received b c fq cell inPending
  · intro b b' c d cell cell' same
    rcases cases_ b c cell with ⟨rfl, rfl⟩ | ⟨_, cell⟩ <;>
      rcases cases_ b' d cell' with ⟨rfl, rfl⟩ | ⟨_, cell'⟩
    · rfl
    · exact absurd same (placed.held_apart e q b' d member cell').1
    · exact absurd same.symm (placed.held_apart e q b c member cell).1
    · exact placed.cell_unique b b' c d cell cell' same
  · intro b b' c d fq cell cell' inPending inPending'
    rcases cases_ b c cell with ⟨_, rfl⟩ | ⟨_, cell⟩
    · cases inPending
    · rcases cases_ b' d cell' with ⟨_, rfl⟩ | ⟨_, cell'⟩
      · cases inPending'
      · exact placed.pending_unique b b' c d fq cell cell' inPending inPending'
  · intro b c cell
    rcases cases_ b c cell with ⟨_, rfl⟩ | ⟨_, cell⟩
    · exact nodup_nil
    · exact placed.pending_nodup b c cell
  · intro e' w b c here cell
    rcases cases_ b c cell with ⟨_, rfl⟩ | ⟨_, cell⟩
    · exact ⟨(helds e' w here).2, by simp [Exq.pending]⟩
    · exact placed.held_apart e' w b c (helds e' w here).1 cell
  · exact fun e' w here => placed.held_unsent e' w (helds e' w here).1
  · intro b c cell unreplied
    rcases cases_ b c cell with ⟨_, rfl⟩ | ⟨_, cell⟩
    · exact unsent
    · exact placed.cell_unsent b c cell unreplied
  · intro b c fq cell inPending
    rcases cases_ b c cell with ⟨_, rfl⟩ | ⟨_, cell⟩
    · cases inPending
    · exact placed.pending_unsent b c fq cell inPending
  · exact placed.sent_below
  · exact placed.sent_once

/-- A flush in hand joins the flushes that a slave will answer. -/
theorem join (placed : Placed core held received log) {fq : Request} (member : fq ∈ held e)
    (flush : fq.fcall.type = Tflush) {c : Exq} (cell : core a = some c)
    (ours : fq.export = c.request.export) (helds : ∀ e' w, w ∈ held' e' → w ∈ held e' ∧ w ≠ fq)
    (cells : ∀ b, core' b =
      if b = a then some { c with flush := c.flush ++ [fq] } else core b) :
    Placed core' held' received log := by
  have known := (placed.held_received e fq member).1
  have longer : Exq.pending { c with flush := c.flush ++ [fq] } = c.pending ++ [fq] := by
    unfold Exq.pending
    cases stage : c.stage <;> rfl
  have cases_ : ∀ b d, core' b = some d → ∃ d₀, core b = some d₀ ∧ d.request = d₀.request ∧
      (d.unreplied ↔ d₀.unreplied) ∧
      (b = a ∧ d.pending = d₀.pending ++ [fq] ∨ d.pending = d₀.pending) := by
    intro b d here
    rw [cells] at here
    by_cases same : b = a
    · rw [if_pos same] at here
      cases here
      exact ⟨c, same ▸ cell, rfl, Iff.rfl, Or.inl ⟨same, longer⟩⟩
    · rw [if_neg same] at here
      exact ⟨d, here, rfl, Iff.rfl, Or.inr rfl⟩
  have pendings : ∀ (b : Addr) (d d₀ : Exq) (w : Request), (b = a ∧ d.pending = d₀.pending ++ [fq] ∨ d.pending = d₀.pending) →
      w ∈ d.pending → w ∈ d₀.pending ∨ b = a ∧ w = fq := by
    intro b d d₀ w shape inPending
    rcases shape with ⟨here, shape⟩ | shape
    · rw [shape, mem_append, mem_singleton] at inPending
      exact inPending.imp_right fun same => ⟨here, same⟩
    · exact Or.inl (shape ▸ inPending)
  constructor
  · exact placed.below
  · exact placed.unique
  · exact fun e' w here => placed.held_received e' w (helds e' w here).1
  · intro b d here
    have ⟨d₀, here, same, _⟩ := cases_ b d here
    rw [same]
    exact placed.cell_received b d₀ here
  · intro b d w here inPending
    have ⟨d₀, here, same, _, shape⟩ := cases_ b d here
    rw [same]
    rcases pendings b d d₀ w shape inPending with old | ⟨rfl, rfl⟩
    · exact placed.pending_received b d₀ w here old
    · rw [cell] at here
      cases here
      exact ⟨known, ours, flush⟩
  · intro b b' d d' here here' same
    have ⟨d₀, here, equal, _⟩ := cases_ b d here
    have ⟨d₁, here', equal', _⟩ := cases_ b' d' here'
    exact placed.cell_unique b b' d₀ d₁ here here' (by rw [← equal, ← equal', same])
  · intro b b' d d' w here here' inPending inPending'
    have ⟨d₀, here, _, _, shape⟩ := cases_ b d here
    have ⟨d₁, here', _, _, shape'⟩ := cases_ b' d' here'
    rcases pendings b d d₀ w shape inPending with old | ⟨rfl, rfl⟩ <;>
      rcases pendings b' d' d₁ w shape' inPending' with old' | ⟨rfl, new⟩
    · exact placed.pending_unique b b' d₀ d₁ w here here' old old'
    · exact absurd (new ▸ old) (placed.held_apart e fq b d₀ member here).2
    · exact absurd old' (placed.held_apart e w b' d₁ member here').2
    · rfl
  · intro b d here
    have ⟨d₀, here, _, _, shape⟩ := cases_ b d here
    rcases shape with ⟨_, shape⟩ | shape
    · rw [shape, nodup_append]
      refine ⟨placed.pending_nodup b d₀ here, nodup_singleton _, ?_⟩
      intro w old _ last same
      rw [mem_singleton] at last
      exact (placed.held_apart e fq b d₀ member here).2 (last ▸ same ▸ old)
    · rw [shape]
      exact placed.pending_nodup b d₀ here
  · intro e' w b d here cell'
    have ⟨d₀, cell', same, _, shape⟩ := cases_ b d cell'
    have ⟨apart, absent⟩ := placed.held_apart e' w b d₀ (helds e' w here).1 cell'
    rw [same]
    refine ⟨apart, fun inPending => ?_⟩
    rcases pendings b d d₀ w shape inPending with old | ⟨_, new⟩
    · exact absent old
    · exact (helds e' w here).2 new
  · exact fun e' w here => placed.held_unsent e' w (helds e' w here).1
  · intro b d here unreplied
    have ⟨d₀, here, same, kept, _⟩ := cases_ b d here
    rw [same]
    exact placed.cell_unsent b d₀ here (kept.1 unreplied)
  · intro b d w here inPending
    have ⟨d₀, here, _, _, shape⟩ := cases_ b d here
    rcases pendings b d d₀ w shape inPending with old | ⟨_, new⟩
    · exact placed.pending_unsent b d₀ w here old
    · rw [new]
      exact placed.held_unsent e fq member
  · exact placed.sent_below
  · exact placed.sent_once

end Placed

/-! ### Each step keeps the places -/

/-- The messages that the connections have in hand. -/
def State.held (s : State) (e : Nat) : List Request := (s.proc e).held

def Flushing (s : State) : Prop :=
  ∀ e fq, s.proc e = .searching fq ∨ s.proc e = .answering fq → fq.fcall.type = Tflush

structure Situated (s : State) : Prop where
  placed : Placed s.core s.held s.received s.log
  flushing : Flushing s

theorem situated_start (readonly : Nat → Bool) : Situated (start readonly) where
  placed := by
    constructor <;> simp [start, State.core, State.held, Proc.held, replies]
  flushing := by
    intro _ _ holds
    simp [start] at holds

theorem held_update {p : Proc} (proc : t.proc = Function.update s.proc e p) (e' : Nat) :
    t.held e' = if e' = e then p.held else s.held e' := by
  unfold State.held
  rw [proc]
  by_cases same : e' = e
  · subst same
    rw [update_self, if_pos rfl]
  · rw [update_of_ne same, if_neg same]

/-- A connection that goes on with at most what it had in hand. -/
theorem held_of_update {p : Proc} (proc : t.proc = Function.update s.proc e p)
    (known : ∀ q ∈ p.held, q ∈ s.held e) (e' : Nat) (q : Request) (member : q ∈ t.held e') :
    q ∈ s.held e' := by
  rw [held_update proc] at member
  by_cases here : e' = e
  · rw [if_pos here] at member
    exact here ▸ known q member
  · rw [if_neg here] at member
    exact member

theorem held_of_same (proc : t.proc = s.proc) : t.held = s.held := by
  funext e
  rw [State.held, State.held, proc]

/-- A step of one connection, which was not closed and has no flush in hand but one that it had,
or of a slave. -/
inductive Moves (s t : State) : Prop
  | connection (e : Nat) (p : Proc) (proc : t.proc = Function.update s.proc e p)
      (alive : s.proc e ≠ .closed)
      (known : ∀ fq, p = .searching fq ∨ p = .answering fq → fq.fcall.type = Tflush ∨
        s.proc e = .searching fq)
  | slave (proc : t.proc = s.proc)

theorem Effect.moves (effect : Effect s t) : Moves s t := by
  cases effect with
  | receive _ reading _ _ _ _ proc _ =>
    exact .connection _ _ proc (by simp [reading]) (by simp)
  | hangup _ reading _ _ _ proc _ =>
    exact .connection _ _ proc (by simp [reading]) (by simp)
  | refuse _ _ read _ _ _ _ proc _ =>
    exact .connection _ _ proc (by simp [read]) (by simp)
  | accept _ _ _ read _ _ _ _ _ proc _ =>
    exact .connection _ _ proc (by simp [read]) (by simp)
  | discard _ _ _ _ read flush _ _ _ _ _ _ proc _ =>
    exact .connection _ _ proc (by simp [read]) (by simp [flush])
  | unfound _ _ read flush _ _ _ _ proc _ =>
    exact .connection _ _ proc (by simp [read]) (by simp [flush])
  | join _ _ _ _ search _ _ _ _ _ _ proc _ =>
    exact .connection _ _ proc (by simp [search]) (by simp)
  | late _ _ search _ _ _ _ proc _ =>
    exact .connection _ _ proc (by simp [search]) (by simp [search])
  | answer _ _ answering _ _ _ proc _ =>
    exact .connection _ _ proc (by simp [answering]) (by simp)
  | sweep _ _ closing _ _ _ _ proc _ =>
    exact .connection _ _ proc (by simp [closing]) (by simp)
  | shut _ abandoning _ _ _ proc _ =>
    exact .connection _ _ proc (by simp [abandoning]) (by simp)
  | dispatch _ _ _ _ _ _ _ _ proc _ => exact .slave proc
  | slave a c d cell started request still left pending unreplied dropped finished received core
      work proc log => exact .slave proc
  | reply _ _ _ _ _ _ _ _ proc _ => exact .slave proc
  | replyFlush _ _ _ _ _ _ _ _ proc _ => exact .slave proc
  | finish _ _ _ _ _ _ _ proc _ => exact .slave proc

theorem Effect.flushing (effect : Effect s t) (flushing : Flushing s) : Flushing t := by
  intro e' fq holds
  cases effect.moves with
  | connection e _ proc _ known =>
    rw [proc] at holds
    by_cases same : e' = e
    · subst same
      rw [update_self] at holds
      rcases known fq holds with flush | search
      · exact flush
      · exact flushing e' fq (Or.inl search)
    · rw [update_of_ne same] at holds
      exact flushing e' fq holds
  | slave proc =>
    rw [proc] at holds
    exact flushing e' fq holds

theorem replies_abandoned (ids : List Nat) (log : List Event) :
    replies (ids.map Event.abandoned ++ log) = replies log := by
  induction ids with
  | nil => rfl
  | cons _ _ ih => exact ih

private theorem rewritten {c d : Exq} (cell : s.core a = some c)
    (core : ∀ b, t.core b = if b = a then some d else s.core b) (request : d.request = c.request)
    (pending : d.pending.Sublist c.pending) (unreplied : d.unreplied → c.unreplied) (b : Addr)
    (d' : Exq) (here : t.core b = some d') :
    ∃ c', s.core b = some c' ∧ d'.request = c'.request ∧ d'.pending.Sublist c'.pending ∧
      (d'.unreplied → c'.unreplied) := by
  rw [core] at here
  by_cases same : b = a
  · rw [if_pos same] at here
    cases here
    exact ⟨c, same ▸ cell, request, pending, unreplied⟩
  · rw [if_neg same] at here
    exact ⟨d', here, rfl, List.Sublist.refl _, id⟩

theorem Effect.placed (effect : Effect s t) (situated : Situated s) :
    Placed t.core t.held t.received t.log := by
  have placed := situated.placed
  have same : ∀ a c, s.core a = some c → ∃ c', s.core a = some c' ∧ c.request = c'.request ∧
      c.pending.Sublist c'.pending ∧ (c.unreplied → c'.unreplied) :=
    fun a c cell => ⟨c, cell, rfl, List.Sublist.refl _, id⟩
  -- after its connection is done with a message, no connection has it in hand
  have released : ∀ (e : Nat) (q : Request), q ∈ s.held e →
      t.proc = Function.update s.proc e .reading →
      ∀ e' w, w ∈ t.held e' → w ∈ s.held e' ∧ w ≠ q := by
    intro e q member proc e' w here
    rw [held_update proc] at here
    by_cases equal : e' = e
    · rw [if_pos equal] at here
      cases here
    · rw [if_neg equal] at here
      refine ⟨here, fun same => equal ?_⟩
      rw [← (placed.held_received e' w here).2, ← (placed.held_received e q member).2, same]
  have replied : ∀ (e : Nat) (q : Request) (type : Nat), q ∈ s.held e →
      t.proc = Function.update s.proc e .reading → (∀ a, t.core a = s.core a) →
      t.received = s.received → t.log = .sent q.id type :: s.log →
      Placed t.core t.held t.received t.log := by
    intro e q type member proc core received log
    rw [funext core, received, log]
    have shrunk : Placed s.core t.held s.received s.log :=
      placed.shrink (fun e' w here => (released e q member proc e' w here).1) same
        (fun _ => Iff.rfl) rfl
    refine shrunk.send type (placed.held_received e q member).1 (placed.held_unsent e q member)
      (fun e' here => (released e q member proc e' q here).2 rfl) ?_
    intro a c cell
    obtain ⟨apart, absent⟩ := placed.held_apart e q a c member cell
    exact ⟨fun _ => apart.symm, absent⟩
  cases effect with
  | receive q reading fresh received core _ proc log =>
    have heldEq : t.held = Function.update s.held q.export [q] := by
      funext e
      rw [held_update proc, update_apply]
      rfl
    rw [funext core, heldEq, received, log]
    exact placed.receive q fresh (by simp [State.held, reading, Proc.held])
  | hangup _ _ received core _ proc log =>
    rw [funext core, received, log]
    exact placed.shrink (held_of_update proc (by simp [Proc.held])) same (fun _ => Iff.rfl) rfl
  | refuse e q read _ received core _ proc log =>
    exact replied e q Rerror (by simp [State.held, read, Proc.held]) proc core received log
  | accept e q _ read other unused received core _ proc log =>
    have member : q ∈ s.held e := by simp [State.held, read, Proc.held]
    rw [received, log]
    exact placed.accept member other unused (released e q member proc) core
  | discard e fq a _ read _ _ _ _ received core _ proc log =>
    have member : fq ∈ s.held e := by simp [State.held, read, Proc.held]
    rw [received, log]
    refine placed.shrink (held_of_update proc (by simpa [Proc.held] using member)) ?_
      (by simp) rfl
    intro b d here
    rw [core] at here
    by_cases equal : b = a
    · rw [if_pos equal] at here
      cases here
    · rw [if_neg equal] at here
      exact same b d here
  | unfound e fq read _ _ received core _ proc log =>
    have member : fq ∈ s.held e := by simp [State.held, read, Proc.held]
    rw [funext core, received, log]
    exact placed.shrink (held_of_update proc (by simpa [Proc.held] using member)) same
      (fun _ => Iff.rfl) rfl
  | join e fq _ _ search first cell _ received core _ proc log =>
    have member : fq ∈ s.held e := by simp [State.held, search, Proc.held]
    rw [received, log]
    obtain ⟨c', cell', names⟩ := named_iff.1 (find?_some first)
    rw [cell] at cell'
    cases cell'
    exact placed.join member (situated.flushing e fq (Or.inl search)) cell names.1.symm
      (released e fq member proc) core
  | late e fq search _ received core _ proc log =>
    have member : fq ∈ s.held e := by simp [State.held, search, Proc.held]
    rw [funext core, received, log]
    exact placed.shrink (held_of_update proc (by simpa [Proc.held] using member)) same
      (fun _ => Iff.rfl) rfl
  | answer e fq answering received core _ proc log =>
    exact replied e fq Rflush (by simp [State.held, answering, Proc.held]) proc core received log
  | sweep e _ _ received gone kept _ proc log =>
    rw [received]
    refine placed.shrink (held_of_update proc (by simp [Proc.held])) ?_ (by simp [log])
      (by rw [log, replies_abandoned])
    intro a c here
    by_cases ours : ∃ c, s.core a = some c ∧ c.stage = .queued ∧ c.request.export = e
    · have ⟨c', cell, queued, mine⟩ := ours
      rw [gone a c' cell queued mine] at here
      cases here
    · rw [kept a fun c' cell queued mine => ours ⟨c', cell, queued, mine⟩] at here
      exact same a c here
  | shut e _ received core _ proc log =>
    rw [received, log]
    refine placed.shrink (held_of_update proc (by simp [Proc.held])) ?_ (fun _ => Iff.rfl) rfl
    intro a d here
    rw [core] at here
    by_cases inWork : a ∈ s.work e
    · rw [if_pos inWork, Option.map_eq_some_iff] at here
      obtain ⟨c, cell, rfl⟩ := here
      exact ⟨c, cell, rfl, List.Sublist.refl _, id⟩
    · rw [if_neg inWork] at here
      exact same a d here
  | dispatch _ _ cell queued _ received core _ proc log =>
    rw [received, log, held_of_same proc]
    refine placed.shrink (fun _ _ member => member) (rewritten cell core rfl ?_ ?_) (by simp) rfl
    · simp [Exq.pending, queued]
    · exact fun _ => Or.inl queued
  | slave a c d cell started request still left pending unreplied dropped finished received core
      work proc log =>
      rw [received, log, held_of_same proc]
      exact placed.shrink (fun _ _ member => member)
        (rewritten cell core request (pending ▸ List.Sublist.refl _) unreplied)
        (fun _ => Iff.rfl) rfl
  | reply a c type cell replying received core _ proc log =>
    rw [received, log, held_of_same proc]
    have mayReply : c.unreplied := Or.inr (Or.inr ⟨type, replying⟩)
    have shrunk : Placed t.core s.held s.received s.log := by
      refine placed.shrink (fun _ _ member => member) (rewritten cell core rfl ?_ ?_)
        (fun _ => Iff.rfl) rfl
      · simp [Exq.pending, replying]
      · exact fun _ => mayReply
    obtain ⟨known, other⟩ := placed.cell_received a c cell
    refine shrunk.send type known (placed.cell_unsent a c cell mayReply) ?_ ?_
    · intro e here
      exact (placed.held_apart e c.request a c here cell).1 rfl
    intro b d here
    obtain ⟨c', cell', equal, sub, _⟩ := rewritten cell core rfl
      (by simp [Exq.pending, replying]) (fun _ => mayReply) b d here
    refine ⟨fun unreplied again => ?_, fun inPending => ?_⟩
    · rw [equal] at again
      have here' := placed.cell_unique b a c' c cell' cell again
      rw [core, if_pos here'] at here
      cases here
      simp [Exq.unreplied] at unreplied
    · exact other (placed.pending_received b c' c.request cell' (sub.subset inPending)).2.2
  | replyFlush a c fq cell flushing received core _ proc log =>
    rw [received, log, held_of_same proc]
    have pending : c.pending = fq :: c.flush := by simp [Exq.pending, flushing]
    have sub : (Exq.pending { c with stage := .relocking }).Sublist c.pending := by
      rw [pending]
      exact sublist_cons_self _ _
    have shrunk : Placed t.core s.held s.received s.log := by
      refine placed.shrink (fun _ _ member => member) (rewritten cell core rfl sub ?_)
        (fun _ => Iff.rfl) rfl
      simp [Exq.unreplied]
    have member : fq ∈ c.pending := by simp [pending]
    obtain ⟨known, _, flush⟩ := placed.pending_received a c fq cell member
    refine shrunk.send Rflush known (placed.pending_unsent a c fq cell member) ?_ ?_
    · intro e here
      exact (placed.held_apart e fq a c here cell).2 member
    intro b d here
    obtain ⟨c', cell', equal, sub', _⟩ := rewritten cell core rfl sub
      (by simp [Exq.unreplied]) b d here
    refine ⟨fun _ again => ?_, fun inPending => ?_⟩
    · rw [equal] at again
      exact (placed.cell_received b c' cell').2 (again ▸ flush)
    have here' := placed.pending_unique b a c' c fq cell' cell (sub'.subset inPending) member
    rw [core, if_pos here'] at here
    cases here
    have nodup := placed.pending_nodup a c cell
    rw [pending, nodup_cons] at nodup
    exact nodup.1 inPending
  | finish a _ _ _ received core _ proc log =>
    rw [received, log, held_of_same proc]
    refine placed.shrink (fun _ _ member => member) ?_ (fun _ => Iff.rfl) rfl
    intro b d here
    rw [core] at here
    by_cases equal : b = a
    · rw [if_pos equal] at here
      cases here
    · rw [if_neg equal] at here
      exact same b d here

theorem Effect.situated (effect : Effect s t) (situated : Situated s) :
    Situated t := ⟨effect.placed situated, effect.flushing situated.flushing⟩

end Infernode.Exportq
