import Infernode.Veltro.Notify

/-!
The events of the dashboard, `appl/veltro/taskboard9p.b`.

Owns: `pushevent`, `addpending` and what `serveloop` does for an event read at offset 0, a flush
and a clunk, access by access to the two lists that the watcher's process and the server's share;
the dashboard as it is meant to be; and when every run of the two processes is one of those.

Does not own: what events there are, the other files, or the checks of a read that `canread` lets
pass.
-/

namespace Infernode.Taskboard

open Text Lib9 List

/-! ### The dashboard as it is meant -/

structure Read where
  fid : Nat
  tag : Nat
  count : Nat
deriving DecidableEq

/-- The tag of a read and the data of its reply. -/
abbrev Reply := Nat × List Nat

inductive Input
  | push (msg : Str)
  | read (m : Read)
  | flush (oldtag : Nat)
  | clunk (fid : Nat)

def reply (m : Read) (msg : Str) : Reply :=
  (m.tag, Notify.readbytes 0 m.count (cvtca (msg ++ [10])))

/-- The reads that wait, and the events that wait for one, oldest first. -/
structure Desk where
  waiting : List Read
  queue : List Str

def Desk.take (d : Desk) : Input → List Reply × Desk
  | .push msg =>
    if d.waiting = [] then ([], { d with queue := d.queue ++ [msg] })
    else (d.waiting.map (reply · msg), { d with waiting := [] })
  | .read m =>
    match d.queue with
    | [] => ([], { d with waiting := d.waiting ++ [m] })
    | msg :: queue => ([reply m msg], { d with queue := queue })
  | .flush oldtag => ([], { d with waiting := d.waiting.filter fun m => m.tag ≠ oldtag })
  | .clunk fid => ([], { d with waiting := d.waiting.filter fun m => m.fid ≠ fid })

inductive Seen
  | took (input : Input)
  | sent (r : Reply)

def check : Desk × List Reply → Seen → Option (Desk × List Reply)
  | (d, due), .sent r => if r ∈ due then some (d, due.erase r) else none
  | (d, due), .took input => if due = [] then some ((d.take input).2, (d.take input).1) else none

def watched (trace : List Seen) : Option (Desk × List Reply) :=
  trace.foldlM check (⟨[], []⟩, [])

/-! ### The code -/

def Qevent : Nat := 2

structure PendingRead where
  fid : Nat
  tag : Nat
  m : Read
  ft : Nat

/-- `pushevent` under way: going through the pending reads, or about to buffer. -/
inductive Pushing
  | scan (msg : Str) (p kept : List PendingRead) (delivered : Bool)
  | buffer (msg : Str)

inductive Serving
  | push (p : Pushing)
  | look (m : Read)
  | take (m : Read) (msg : Str)
  | store (m : Read) (msg : Str) (newbuf : List Str)
  | answer (m : Read) (msg : Str)
  | add (m : Read)

/-- The two lists, newest first, the two processes, and what was seen. -/
structure State where
  pending : List PendingRead
  eventbuf : List Str
  watcher : Option Pushing
  server : Option Serving
  trace : List Seen

def State.see (s : State) (o : Seen) : State := { s with trace := s.trace ++ [o] }

/-- One step of `pushevent`. -/
def pushstep (s : State) : Pushing → State × Option Pushing
  | .scan msg [] kept delivered =>
    ({ s with pending := kept }, if delivered then none else some (.buffer msg))
  | .scan msg (p :: next) kept delivered =>
    if p.ft = Qevent then (s.see (.sent (reply p.m msg)), some (.scan msg next kept true))
    else (s, some (.scan msg next (p :: kept) delivered))
  | .buffer msg => ({ s with eventbuf := msg :: s.eventbuf }, none)

/-- The loop that is to remove an event from the buffer. -/
def remaining (msg : Str) (eventbuf : List Str) : List Str :=
  eventbuf.foldl (fun newbuf e => if e ≠ msg ∨ newbuf ≠ [] then e :: newbuf else newbuf) []

def servestep (s : State) : Serving → State × Option Serving
  | .push p => ((pushstep s p).1, (pushstep s p).2.map .push)
  | .look m =>
    match s.eventbuf.getLast? with
    | some msg => (s, some (.take m msg))
    | none => (s, some (.add m))
  | .take m msg => (s, some (.store m msg (remaining msg s.eventbuf)))
  | .store m msg newbuf => ({ s with eventbuf := newbuf }, some (.answer m msg))
  | .answer m msg => (s.see (.sent (reply m msg)), none)
  | .add m => ({ s with pending := ⟨m.fid, m.tag, m, Qevent⟩ :: s.pending }, none)

def begins (s : State) : Input → Option Serving
  | .push msg => some (.push (.scan msg s.pending [] false))
  | .read m => some (.look m)
  | .flush _ => none
  | .clunk _ => none

inductive Move
  | watch (msg : Str)
  | watching
  | serve (input : Input)
  | serving

/-- A process begins when it is idle, and goes on when it is not. -/
def move (s : State) : Move → Option State
  | .watch msg =>
    match s.watcher with
    | none => some { s.see (.took (.push msg)) with
        watcher := some (.scan msg s.pending [] false) }
    | some _ => none
  | .watching =>
    match s.watcher with
    | none => none
    | some p => some { (pushstep s p).1 with watcher := (pushstep s p).2 }
  | .serve input =>
    match s.server with
    | none => some { s.see (.took input) with server := begins s input }
    | some _ => none
  | .serving =>
    match s.server with
    | none => none
    | some v => some { (servestep s v).1 with server := (servestep s v).2 }

def start : State := ⟨[], [], none, none, []⟩

/-- What was seen is what the dashboard is meant to do, and idle processes owe no reply. -/
def Delivers (s : State) : Prop :=
  ∃ d due, watched s.trace = some (d, due) ∧
    (s.watcher.isNone = true → s.server.isNone = true → due = [])

/-! ### What a move has to be spared -/

/-- The texts are the same in both orders, and the two newest differ. -/
structure Fair (eventbuf : List Str) : Prop where
  palindrome : eventbuf.reverse = eventbuf
  differ : ∀ a b rest, eventbuf = a :: b :: rest → a ≠ b

def Spared (s : State) : Move → Prop
  | .watch _ => s.server = none
  | .watching => True
  | .serving => True
  | .serve input => s.watcher = none ∧
      match input with
      | .push _ => True
      | .read _ => s.eventbuf = [] ∨ Fair s.eventbuf
      | .flush oldtag => ∀ p ∈ s.pending, p.tag ≠ oldtag
      | .clunk fid => ∀ p ∈ s.pending, p.fid ≠ fid

inductive Reaches : State → Prop
  | start : Reaches start
  | step {s s' : State} {a : Move} (reaches : Reaches s) (spared : Spared s a)
      (moves : move s a = some s') : Reaches s'

/-! ### The removal -/

variable {msg : Str} {eventbuf : List Str}

theorem remaining_some {newbuf : List Str} (some_ : newbuf ≠ []) (rest : List Str) :
    rest.foldl (fun newbuf e => if e ≠ msg ∨ newbuf ≠ [] then e :: newbuf else newbuf) newbuf =
      rest.reverse ++ newbuf := by
  induction rest generalizing newbuf with
  | nil => rfl
  | cons _ _ ih =>
    rw [foldl_cons, if_pos (Or.inr some_), ih (cons_ne_nil _ _),
      reverse_cons, append_assoc]
    rfl

theorem remaining_cons_ne {e : Str} (other : e ≠ msg) (rest : List Str) :
    remaining msg (e :: rest) = rest.reverse ++ [e] := by
  unfold remaining
  rw [foldl_cons, if_pos (Or.inl other), remaining_some (cons_ne_nil _ _)]

theorem remaining_cons_eq (msg : Str) (rest : List Str) :
    remaining msg (msg :: rest) = remaining msg rest := by
  unfold remaining
  rw [foldl_cons, if_neg]
  rintro (other | some_)
  · exact other rfl
  · exact some_ rfl

/-- From a fair buffer the loop removes the oldest event, and that alone. -/
theorem remaining_fair (fair : Fair eventbuf) (last : eventbuf.getLast? = some msg) :
    eventbuf.reverse = msg :: (remaining msg eventbuf).reverse := by
  have first : eventbuf.head? = some msg := by
    rw [← fair.palindrome, head?_reverse]
    exact last
  cases eventbuf with
  | nil => cases first
  | cons e rest =>
    have same : e = msg := Option.some.inj first
    rw [fair.palindrome, same, remaining_cons_eq]
    cases rest with
    | nil => rfl
    | cons b rest =>
      have other : b ≠ msg := fun equal => fair.differ e b rest rfl (by rw [same, equal])
      rw [remaining_cons_ne other, reverse_append, reverse_reverse]
      rfl

/-! ### Two processes and a desk -/

def Held (pending : List PendingRead) : Prop :=
  ∀ p ∈ pending, p.ft = Qevent ∧ p.fid = p.m.fid ∧ p.tag = p.m.tag

/-- The two lists are the desk's, the other way round. -/
structure Same (pending : List PendingRead) (eventbuf : List Str) (d : Desk) : Prop where
  held : Held pending
  waiting : d.waiting = (pending.map (·.m)).reverse
  queue : d.queue = eventbuf.reverse

/-- The desk when `pushevent` is under way: it has given out the event already. -/
def Pushes (pending : List PendingRead) (eventbuf : List Str) (d : Desk) (due : List Reply) :
    Pushing → Prop
  | .scan msg p kept delivered =>
    Held p ∧ kept = [] ∧ due.Perm (p.map fun p => reply p.m msg) ∧ d.waiting = [] ∧
      d.queue = eventbuf.reverse ++ if delivered = false ∧ p = [] then [msg] else []
  | .buffer msg =>
    pending = [] ∧ due = [] ∧ d.waiting = [] ∧ d.queue = eventbuf.reverse ++ [msg]

/-- The desk when the server is under way: it has done the request already. -/
def Serves (pending : List PendingRead) (eventbuf : List Str) (d : Desk) (due : List Reply) :
    Serving → Prop
  | .push p => Pushes pending eventbuf d due p
  | .look m =>
    match eventbuf.getLast? with
    | some msg => Held pending ∧ d.waiting = (pending.map (·.m)).reverse ∧
        d.queue = (remaining msg eventbuf).reverse ∧ due = [reply m msg]
    | none => Held pending ∧ d.waiting = (pending.map (·.m)).reverse ++ [m] ∧
        d.queue = eventbuf.reverse ∧ due = []
  | .take m msg =>
    Held pending ∧ d.waiting = (pending.map (·.m)).reverse ∧
      d.queue = (remaining msg eventbuf).reverse ∧ due = [reply m msg]
  | .store m msg newbuf =>
    Held pending ∧ d.waiting = (pending.map (·.m)).reverse ∧
      d.queue = newbuf.reverse ∧ due = [reply m msg]
  | .answer m msg => Same pending eventbuf d ∧ due = [reply m msg]
  | .add m =>
    Held pending ∧ d.waiting = (pending.map (·.m)).reverse ++ [m] ∧
      d.queue = eventbuf.reverse ∧ due = []

def Busy (pending : List PendingRead) (eventbuf : List Str) (d : Desk) (due : List Reply) :
    Option Pushing → Option Serving → Prop
  | none, none => Same pending eventbuf d ∧ due = []
  | some p, none => Pushes pending eventbuf d due p
  | none, some v => Serves pending eventbuf d due v
  | some _, some _ => False

variable {d : Desk}

theorem watched_took {trace : List Seen} (seen : watched trace = some (d, [])) (input : Input) :
    watched (trace ++ [.took input]) = some ((d.take input).2, (d.take input).1) := by
  unfold watched at seen ⊢
  rw [foldlM_append, seen]
  rfl

variable {due : List Reply}

theorem watched_sent {trace : List Seen} (seen : watched trace = some (d, due)) {r : Reply}
    (owed : r ∈ due) : watched (trace ++ [.sent r]) = some (d, due.erase r) := by
  unfold watched at seen ⊢
  rw [foldlM_append, seen]
  show (check (d, due) (.sent r) >>= pure) = _
  rw [show check (d, due) (.sent r) = some (d, due.erase r) from if_pos owed]
  rfl

/-- A step of `pushevent`: it goes on, or it is done and the lists are the desk's. -/
theorem pushstep_busy {s : State} {p : Pushing} (seen : watched s.trace = some (d, due))
    (pushes : Pushes s.pending s.eventbuf d due p) :
    ∃ due', watched (pushstep s p).1.trace = some (d, due') ∧
      match (pushstep s p).2 with
      | some p' => Pushes (pushstep s p).1.pending (pushstep s p).1.eventbuf d due' p'
      | none => Same (pushstep s p).1.pending (pushstep s p).1.eventbuf d ∧ due' = [] := by
  cases p with
  | scan msg left _ delivered =>
    obtain ⟨held, rfl, owed, waiting, queue⟩ := pushes
    cases left with
    | nil =>
      have none_ : due = [] := perm_nil.mp owed
      refine ⟨due, seen, ?_⟩
      cases delivered with
      | true =>
        refine ⟨⟨fun p member => absurd member not_mem_nil, waiting, ?_⟩, none_⟩
        rw [queue, if_neg (fun both => Bool.noConfusion both.1), append_nil]
        rfl
      | false =>
        refine ⟨rfl, none_, waiting, ?_⟩
        rw [queue, if_pos ⟨rfl, rfl⟩]
        rfl
    | cons p next =>
      have event := (held p mem_cons_self).1
      have first : reply p.m msg ∈ due :=
        owed.mem_iff.mpr mem_cons_self
      have moved : pushstep s (.scan msg (p :: next) [] delivered) =
          (s.see (.sent (reply p.m msg)), some (.scan msg next [] true)) := if_pos event
      rw [moved]
      refine ⟨due.erase (reply p.m msg), watched_sent seen first, ?_⟩
      refine ⟨fun q member => held q (mem_cons_of_mem p member), rfl, ?_, waiting, ?_⟩
      · have erased := owed.erase (reply p.m msg)
        rw [map_cons, erase_cons_head] at erased
        exact erased
      · rw [queue, if_neg (fun both => cons_ne_nil _ _ both.2),
          if_neg (fun both => Bool.noConfusion both.1)]
        rfl
  | buffer msg =>
    have ⟨pending, none_, waiting, queue⟩ := pushes
    refine ⟨due, seen, ⟨?_, ?_, ?_⟩, none_⟩
    · intro p member
      have member' : p ∈ s.pending := member
      rw [pending] at member'
      exact absurd member' not_mem_nil
    · show d.waiting = (s.pending.map (·.m)).reverse
      rw [waiting, pending]
      rfl
    · show d.queue = (msg :: s.eventbuf).reverse
      rw [queue, reverse_cons]

theorem servestep_busy {s : State} {v : Serving} (seen : watched s.trace = some (d, due))
    (serves : Serves s.pending s.eventbuf d due v) :
    ∃ due', watched (servestep s v).1.trace = some (d, due') ∧
      match (servestep s v).2 with
      | some v' => Serves (servestep s v).1.pending (servestep s v).1.eventbuf d due' v'
      | none => Same (servestep s v).1.pending (servestep s v).1.eventbuf d ∧ due' = [] := by
  cases v with
  | push p =>
    have ⟨due', seen', next⟩ := pushstep_busy seen serves
    refine ⟨due', seen', ?_⟩
    show match (pushstep s p).2.map Serving.push with
      | some v' => Serves (pushstep s p).1.pending (pushstep s p).1.eventbuf d due' v'
      | none => Same (pushstep s p).1.pending (pushstep s p).1.eventbuf d ∧ due' = []
    cases more : (pushstep s p).2 with
    | none =>
      rw [more] at next
      exact next
    | some _ =>
      rw [more] at next
      exact next
  | look _ =>
    unfold Serves at serves
    unfold servestep
    cases last : s.eventbuf.getLast? with
    | none =>
      rw [last] at serves
      exact ⟨due, seen, serves⟩
    | some _ =>
      rw [last] at serves
      exact ⟨due, seen, serves⟩
  | take _ _ => exact ⟨due, seen, serves⟩
  | store _ _ _ =>
    have ⟨held, waiting, queue, owed⟩ := serves
    exact ⟨due, seen, ⟨held, waiting, queue⟩, owed⟩
  | answer _ _ =>
    obtain ⟨same, rfl⟩ := serves
    refine ⟨[], ?_, ⟨same.held, same.waiting, same.queue⟩, rfl⟩
    have sent := watched_sent seen mem_cons_self
    rw [erase_cons_head] at sent
    exact sent
  | add m =>
    have ⟨held, waiting, queue, none_⟩ := serves
    refine ⟨due, seen, ⟨?_, ?_, queue⟩, none_⟩
    · intro p member
      rcases mem_cons.mp member with rfl | older
      · exact ⟨rfl, rfl, rfl⟩
      · exact held p older
    · show d.waiting = ((⟨m.fid, m.tag, m, Qevent⟩ :: s.pending : List PendingRead).map
        (·.m)).reverse
      rw [waiting, map_cons, reverse_cons]

variable {pending : List PendingRead}

theorem begins_push (same : Same pending eventbuf d) (msg : Str) :
    Pushes pending eventbuf (d.take (.push msg)).2 (d.take (.push msg)).1 (.scan msg pending [] false) := by
  unfold Desk.take
  dsimp only
  by_cases nobody : d.waiting = []
  · have empty : pending = [] := by
      have none_ := same.waiting.symm.trans nobody
      rw [reverse_eq_nil_iff, map_eq_nil_iff] at none_
      exact none_
    rw [if_pos nobody]
    refine ⟨same.held, rfl, ?_, nobody, ?_⟩
    · rw [empty]
      exact List.Perm.nil
    · rw [if_pos ⟨rfl, empty⟩]
      show d.queue ++ [msg] = _
      rw [same.queue]
  · have some_ : pending ≠ [] := by
      intro empty
      refine nobody ?_
      rw [same.waiting, empty]
      rfl
    rw [if_neg nobody]
    refine ⟨same.held, rfl, ?_, rfl, ?_⟩
    · show (d.waiting.map (reply · msg)).Perm _
      rw [same.waiting, map_reverse, map_map]
      exact reverse_perm _
    · rw [if_neg (fun both => some_ both.2), append_nil]
      exact same.queue

theorem begins_read (same : Same pending eventbuf d) (m : Read)
    (fair : eventbuf = [] ∨ Fair eventbuf) :
    Serves pending eventbuf (d.take (.read m)).2 (d.take (.read m)).1 (.look m) := by
  unfold Serves Desk.take
  dsimp only
  rw [same.queue]
  cases last : eventbuf.getLast? with
  | none =>
    have empty : eventbuf = [] := getLast?_eq_none_iff.mp last
    subst empty
    refine ⟨same.held, ?_, rfl, rfl⟩
    show d.waiting ++ [m] = _
    rw [same.waiting]
  | some _ =>
    have fair' : Fair eventbuf := by
      rcases fair with empty | fair
      · rw [empty] at last
        cases last
      · exact fair
    rw [remaining_fair fair' last]
    exact ⟨same.held, same.waiting, rfl, rfl⟩

theorem same_filter (same : Same pending eventbuf d) {keeps : Read → Bool}
    (kept : ∀ p ∈ pending, keeps p.m = true) :
    Same pending eventbuf { d with waiting := d.waiting.filter keeps } := by
  refine ⟨same.held, ?_, same.queue⟩
  show d.waiting.filter keeps = _
  rw [filter_eq_self.mpr]
  · exact same.waiting
  intro _ member
  rw [same.waiting, mem_reverse, mem_map] at member
  obtain ⟨p, held, rfl⟩ := member
  exact kept p held

theorem pushstep_server (s : State) (p : Pushing) : (pushstep s p).1.server = s.server := by
  cases p with
  | scan msg left kept delivered =>
    cases left with
    | nil => rfl
    | cons p left =>
      by_cases event : p.ft = Qevent
      · rw [show pushstep s (.scan msg (p :: left) kept delivered) = _ from if_pos event]
        rfl
      · rw [show pushstep s (.scan msg (p :: left) kept delivered) = _ from if_neg event]
  | buffer _ => rfl

theorem pushstep_watcher (s : State) (p : Pushing) : (pushstep s p).1.watcher = s.watcher := by
  cases p with
  | scan msg left kept delivered =>
    cases left with
    | nil => rfl
    | cons p left =>
      by_cases event : p.ft = Qevent
      · rw [show pushstep s (.scan msg (p :: left) kept delivered) = _ from if_pos event]
        rfl
      · rw [show pushstep s (.scan msg (p :: left) kept delivered) = _ from if_neg event]
  | buffer _ => rfl

theorem servestep_watcher (s : State) (v : Serving) : (servestep s v).1.watcher = s.watcher := by
  cases v with
  | push p => exact pushstep_watcher s p
  | look _ =>
    unfold servestep
    cases s.eventbuf.getLast? with
    | none => rfl
    | some _ => rfl
  | take _ _ => rfl
  | store _ _ _ => rfl
  | answer _ _ => rfl
  | add _ => rfl

theorem move_busy {s s' : State} {a : Move} (seen : watched s.trace = some (d, due))
    (busy : Busy s.pending s.eventbuf d due s.watcher s.server) (spared : Spared s a)
    (moves : move s a = some s') :
    ∃ d' due', watched s'.trace = some (d', due') ∧
      Busy s'.pending s'.eventbuf d' due' s'.watcher s'.server := by
  cases a with
  | watch msg =>
    have idle : s.server = none := spared
    unfold move at moves
    cases watcher : s.watcher with
    | some _ =>
      rw [watcher] at moves
      cases moves
    | none =>
      rw [watcher] at moves
      rw [watcher, idle] at busy
      obtain ⟨same, rfl⟩ := busy
      rw [← Option.some.inj moves]
      refine ⟨_, _, watched_took seen (.push msg), ?_⟩
      show Busy _ _ _ _ (some _) s.server
      rw [idle]
      exact begins_push same msg
  | watching =>
    unfold move at moves
    cases watcher : s.watcher with
    | none =>
      rw [watcher] at moves
      cases moves
    | some p =>
      rw [watcher] at moves
      rw [watcher] at busy
      cases server : s.server with
      | some _ =>
        rw [server] at busy
        exact busy.elim
      | none =>
        rw [server] at busy
        have ⟨due', seen', next⟩ := pushstep_busy seen busy
        rw [← Option.some.inj moves]
        refine ⟨d, due', seen', ?_⟩
        show Busy _ _ d due' (pushstep s p).2 (pushstep s p).1.server
        rw [pushstep_server, server]
        cases more : (pushstep s p).2 with
        | none =>
          rw [more] at next
          exact next
        | some _ =>
          rw [more] at next
          exact next
  | serve input =>
    have ⟨idle, fit⟩ := spared
    unfold move at moves
    cases server : s.server with
    | some _ =>
      rw [server] at moves
      cases moves
    | none =>
      rw [server] at moves
      rw [idle, server] at busy
      obtain ⟨same, rfl⟩ := busy
      rw [← Option.some.inj moves]
      refine ⟨_, _, watched_took seen input, ?_⟩
      show Busy _ _ _ _ s.watcher (begins s input)
      rw [idle]
      cases input with
      | push msg => exact begins_push same msg
      | read m => exact begins_read same m fit
      | flush _ =>
        refine ⟨same_filter same ?_, rfl⟩
        intro p pending
        rw [← (same.held p pending).2.2]
        exact decide_eq_true (fit p pending)
      | clunk _ =>
        refine ⟨same_filter same ?_, rfl⟩
        intro p pending
        rw [← (same.held p pending).2.1]
        exact decide_eq_true (fit p pending)
  | serving =>
    unfold move at moves
    cases server : s.server with
    | none =>
      rw [server] at moves
      cases moves
    | some v =>
      rw [server] at moves
      rw [server] at busy
      cases watcher : s.watcher with
      | some _ =>
        rw [watcher] at busy
        exact busy.elim
      | none =>
        rw [watcher] at busy
        have ⟨due', seen', next⟩ := servestep_busy seen busy
        rw [← Option.some.inj moves]
        refine ⟨d, due', seen', ?_⟩
        show Busy _ _ d due' (servestep s v).1.watcher (servestep s v).2
        rw [servestep_watcher, watcher]
        cases more : (servestep s v).2 with
        | none =>
          rw [more] at next
          exact next
        | some _ =>
          rw [more] at next
          exact next

theorem reaches_busy {s : State} (reaches : Reaches s) :
    ∃ d due, watched s.trace = some (d, due) ∧
      Busy s.pending s.eventbuf d due s.watcher s.server := by
  induction reaches with
  | start =>
    refine ⟨⟨[], []⟩, [], rfl, ⟨?_, rfl, rfl⟩, rfl⟩
    intro _ member
    exact absurd member not_mem_nil
  | step _ spared moves ih =>
    have ⟨_, _, seen, busy⟩ := ih
    exact move_busy seen busy spared moves

/-- A run that is spared all that delivers every event once. -/
theorem delivers_once {s : State} (reaches : Reaches s) : Delivers s := by
  have ⟨d, due, seen, busy⟩ := reaches_busy reaches
  refine ⟨d, due, seen, ?_⟩
  intro watcher server
  rw [Option.isNone_iff_eq_none.mp watcher, Option.isNone_iff_eq_none.mp server] at busy
  exact busy.2

/-- A read that waits, and an event of the watcher. -/
theorem delivers_once_waiting :
    ∃ s, [Move.serve (.read ⟨4, 9, 100⟩), .serving, .serving, .watch (str "task 1 new"),
        .watching, .watching].foldlM move start = some s ∧ Delivers s := by
  have first := Reaches.step (a := .serve (.read ⟨4, 9, 100⟩)) Reaches.start
    ⟨rfl, Or.inl rfl⟩ rfl
  have looked := Reaches.step (a := .serving) first trivial rfl
  have waits := Reaches.step (a := .serving) looked trivial rfl
  have event := Reaches.step (a := .watch (str "task 1 new")) waits rfl rfl
  have answered := Reaches.step (a := .watching) event trivial rfl
  exact ⟨_, rfl, delivers_once (Reaches.step (a := .watching) answered trivial rfl)⟩

/-- Two events are queued and three reads come: the third gets the first event again. -/
theorem delivers_twice :
    ∃ s, [Move.serve (.push (str "task 1 order 1")), .serving, .serving,
        .serve (.push (str "task 1 order 2")), .serving, .serving,
        .serve (.read ⟨4, 7, 100⟩), .serving, .serving, .serving, .serving,
        .serve (.read ⟨4, 8, 100⟩), .serving, .serving, .serving, .serving,
        .serve (.read ⟨4, 9, 100⟩), .serving, .serving, .serving, .serving].foldlM move start =
      some s ∧ ¬ Delivers s := by
  refine ⟨_, rfl, ?_⟩
  rintro ⟨d, due, seen, -⟩
  have missing : (watched [.took (.push (str "task 1 order 1")),
      .took (.push (str "task 1 order 2")),
      .took (.read ⟨4, 7, 100⟩), .sent (reply ⟨4, 7, 100⟩ (str "task 1 order 1")),
      .took (.read ⟨4, 8, 100⟩), .sent (reply ⟨4, 8, 100⟩ (str "task 1 order 2")),
      .took (.read ⟨4, 9, 100⟩), .sent (reply ⟨4, 9, 100⟩ (str "task 1 order 1"))]).isNone =
        true := by
    decide +kernel
  rw [Option.isNone_iff_eq_none] at missing
  exact Option.some_ne_none _ (seen.symm.trans missing)

end Infernode.Taskboard
