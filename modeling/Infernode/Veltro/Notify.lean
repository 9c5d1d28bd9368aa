import Infernode.Veltro.Notice

/-!
The `notify` file of `appl/veltro/msg9p.b`.

Owns: the serve loop, as far as reads of `notify` and the registration of sources go, and the
processes that relay what the sources deliver.
-/

namespace Infernode.Notify

open Text Strings Msg9p

def MAXQ : Nat := 64

/-- Where a `watchwrapper` is: on its way to its `alt`, waiting there, waiting to send a text,
waiting to send the stop on, or gone. -/
inductive Phase where
  | looping
  | waiting
  | holding (text : Str)
  | relaying
  | ended
deriving DecidableEq, Repr

/-- A `watchwrapper`, with the name of its source. -/
structure Watcher where
  name : Str
  phase : Phase
deriving DecidableEq, Repr

/-- A source and its `watchwrapper`. -/
structure Source where
  info : SrcInfo
  watcher : Nat
deriving DecidableEq, Repr

/-- A read that is parked; the id is the number of the step that parked it, and the count is what
the read asked for. -/
structure PendingRead where
  id : Nat
  tag : Nat
  fid : Nat
  count : Nat
deriving DecidableEq, Repr

/-- A text that the serve loop received; the id is the number of the step. -/
structure Note where
  id : Nat
  text : Str
deriving DecidableEq, Repr

/-- A read that was answered with a text; the data are missing when the reply does not fit. -/
structure Given where
  read : PendingRead
  note : Note
  data : Option (List Nat)
deriving DecidableEq, Repr

/-- The serve loop waits for an event, or in `dounregister` for the process `k` to receive the stop;
the sources that are yet to be looked at, and those that were kept. -/
inductive Serve where
  | idle
  | stopping (srcname : Str) (k : Nat) (rest kept : List Source)
deriving DecidableEq, Repr

/-- The fids of `notify` that are open for reading, the reads that are parked and the queue. The
others are the history: the answers, the reads that were flushed or whose fid was clunked, the texts
that were received, and those that were dropped with the length of the queue then. -/
structure Mail where
  fids : List Nat
  pendingReaders : List PendingRead
  notifyq : List Note
  given : List Given
  gone : List Nat
  accepted : List Note
  dropped : List (Note × Nat)
deriving DecidableEq, Repr

/-- The serve loop, the sources and their processes. -/
structure Procs where
  serve : Serve
  sources : List Source
  watchers : List Watcher
deriving DecidableEq, Repr

structure State where
  procs : Procs
  mail : Mail
  clock : Nat
deriving DecidableEq, Repr

def State.initial : State := ⟨⟨.idle, [], []⟩, ⟨[], [], [], [], [], [], []⟩, 0⟩

/-! ### Reads -/

def readbytes (offset : Int) (count : Nat) (d : List Nat) : List Nat :=
  if (d.length : Int) ≤ offset ∨ offset < 0 then [] else (d.drop offset.toNat).take count

/-- A read of `notify`, of a fid that may be open. -/
def read (m : Mail) (id tag fid : Nat) (offset : Int) (count : Nat) : Mail :=
  if fid ∉ m.fids ∨ MAXFDATA < count ∨ offset < 0 then m
  else
    match m.notifyq with
    | note :: rest =>
      { m with
        notifyq := rest
        given := m.given ++ [⟨⟨id, tag, fid, count⟩, note,
          some (readbytes offset count (Lib9.cvtca note.text))⟩] }
    | [] => { m with pendingReaders := ⟨id, tag, fid, count⟩ :: m.pendingReaders }

def enqueue (m : Mail) (note : Note) : Mail :=
  if MAXQ ≤ m.notifyq.length then { m with dropped := m.dropped ++ [(note, m.notifyq.length)] }
  else { m with notifyq := m.notifyq ++ [note] }

/-- The data of the reply to a parked read, which is the whole text. -/
def wakedata (text : Str) : Option (List Nat) :=
  if MAXRPC < 11 + (Lib9.cvtca text).length then none else some (Lib9.cvtca text)

def receive (m : Mail) (note : Note) : Mail :=
  match m.pendingReaders.getLast? with
  | some pr =>
    { m with
      pendingReaders := m.pendingReaders.dropLast
      given := m.given ++ [⟨pr, note, wakedata note.text⟩]
      accepted := m.accepted ++ [note] }
  | none => { enqueue m note with accepted := m.accepted ++ [note] }

/-- `Tflush`, which `srv.default` answers. The parked read stays. -/
def flush (m : Mail) (oldtag : Nat) : Mail :=
  { m with gone := m.gone ++
    (m.pendingReaders.filter fun pr => decide (pr.tag = oldtag)).map PendingRead.id }

def parkedOf (m : Mail) (fid : Nat) : List Nat :=
  (m.pendingReaders.filter fun pr => decide (pr.fid = fid)).map PendingRead.id

def cancelpending (m : Mail) (fid : Nat) : Mail :=
  { m with pendingReaders :=
    (m.pendingReaders.filter fun pr => !decide (pr.fid = fid)).reverse }

def clunk (m : Mail) (fid : Nat) : Mail :=
  if fid ∈ m.fids then
    { cancelpending m fid with fids := m.fids.erase fid, gone := m.gone ++ parkedOf m fid }
  else m

/-- `Tremove`, which `srv.default` answers, clunks the fid as well. -/
def remove (m : Mail) (fid : Nat) : Mail :=
  if fid ∈ m.fids then { m with fids := m.fids.erase fid, gone := m.gone ++ parkedOf m fid }
  else m

/-! ### Sources -/

def setphase (p : Procs) (k : Nat) (phase : Phase) : Procs :=
  { p with watchers := p.watchers.modify k fun watcher => { watcher with phase := phase } }

def phaseOf (p : Procs) (k : Nat) : Option Phase := (p.watchers[k]?).map Watcher.phase

/-- `dounregister` from a source on. The send of the stop completes at once when the process waits
in its `alt`. -/
def unregister (p : Procs) (srcname : Str) (kept : List Source) (found : Bool) :
    List Source → Procs
  | [] => if found then { p with serve := .idle, sources := kept } else { p with serve := .idle }
  | src :: rest =>
    if src.info.name = srcname then
      if phaseOf p src.watcher = some .waiting then
        unregister (setphase p src.watcher .relaying) srcname kept true rest
      else { p with serve := .stopping srcname src.watcher rest kept }
    else unregister p srcname (src :: kept) found rest

/-- The sources as `msg9p` knows them. -/
def registry (p : Procs) : Msg9p.State :=
  { Msg9p.State.initial with sources := p.sources.map Source.info }

def register (p : Procs) (answers : Answers) (args : List Str) : Procs :=
  match doregister (registry p) answers args with
  | .error _ => p
  | .ok t =>
    match t.sources with
    | [] => p
    | info :: _ =>
      { p with
        sources := ⟨info, p.watchers.length⟩ :: p.sources
        watchers := p.watchers ++ [⟨info.name, .looping⟩] }

/-- A write to `ctl`. The other commands change nothing here. -/
def ctl (p : Procs) (answers : Answers) (data : Str) : Procs :=
  match tokens isBlank (splitfirst data 10).1 with
  | [] => p
  | cmd :: toks =>
    if tolower cmd = str "register" then register p answers toks
    else if tolower cmd = str "unregister" then
      match toks with
      | [] => p
      | srcname :: _ => unregister p srcname [] false p.sources
    else p

/-! ### Processes -/

def takes (p : Procs) (k : Nat) (name : Str) : Option Notification → Procs
  | none => setphase p k .ended
  | some n => setphase p k (.holding (formatnotification name n))

/-- The process comes to its `alt` while the serve loop does not send to it. -/
def waits (p : Procs) (k : Nat) (name : Str) : Option (Option Notification) → Procs
  | some n => takes p k name n
  | none => setphase p k .waiting

/-- The process comes to its `alt`: what the source offers there, and whether the stop is taken if
both are ready. -/
def alts (p : Procs) (k : Nat) (name : Str) (offered : Option (Option Notification))
    (stop : Bool) : Procs :=
  match p.serve with
  | .idle => waits p k name offered
  | .stopping srcname j rest kept =>
    if j = k ∧ (offered = none ∨ stop = true) then
      unregister (setphase p k .relaying) srcname kept true rest
    else waits p k name offered

/-! ### Steps -/

/-- What may come next: a message for the serve loop, a text that a process delivers to it, or a
step of a process with its source. -/
inductive Act where
  | opened (fid : Nat)
  | read (tag fid : Nat) (offset : Int) (count : Nat)
  | flush (oldtag : Nat)
  | clunk (fid : Nat)
  | remove (fid : Nat)
  | ctl (answers : Answers) (data : List Nat)
  | deliver (k : Nat)
  | offer (k : Nat) (n : Option Notification)
  | alts (k : Nat) (offered : Option (Option Notification)) (stop : Bool)
  | relayed (k : Nat)

/-- The reads and the queue after a message. -/
def mailed (m : Mail) (clock : Nat) : Act → Mail
  | .opened fid => if fid ∈ m.fids then m else { m with fids := fid :: m.fids }
  | .read tag fid offset count => read m clock tag fid offset count
  | .flush oldtag => flush m oldtag
  | .clunk fid => clunk m fid
  | .remove fid => remove m fid
  | _ => m

def deliver (s : State) (k : Nat) : State :=
  match phaseOf s.procs k with
  | some (.holding text) =>
    { s with procs := setphase s.procs k .looping, mail := receive s.mail ⟨s.clock, text⟩ }
  | _ => s

def act (s : State) : Act → State
  | .offer k n =>
    match s.procs.watchers[k]? with
    | some ⟨name, .waiting⟩ => { s with procs := takes s.procs k name n }
    | _ => s
  | .alts k offered stop =>
    match s.procs.watchers[k]? with
    | some ⟨name, .looping⟩ => { s with procs := alts s.procs k name offered stop }
    | _ => s
  | .relayed k =>
    if phaseOf s.procs k = some .relaying then { s with procs := setphase s.procs k .ended }
    else s
  | .ctl answers data =>
    if s.procs.serve = .idle then { s with procs := ctl s.procs answers (written data) } else s
  | .deliver k => if s.procs.serve = .idle then deliver s k else s
  | message =>
    if s.procs.serve = .idle then { s with mail := mailed s.mail s.clock message } else s

def step (s : State) (action : Act) : State :=
  { act s action with clock := s.clock + 1 }

def after (actions : List Act) : State := actions.foldl step State.initial

end Infernode.Notify
