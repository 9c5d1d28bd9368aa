import Infernode.Program.Runs
import Infernode.Table.Links
import Mathlib.Tactic.SplitIfs

/-!
The request queue of exported name spaces, `exq` of `exportfs.c`, and the processes on it.

Owns: the queued requests in memory with their links, one `exportproc` for each connection,
the slaves' way through a request, `exflushed`, `exshutdown`, and runs of their steps. A
step is what a process does while it holds a lock, or one message that it sends.

Does not own: what a request does (`fcalls`), the references to an `Export`, and the
interrupt that `swiproc` raises. The order of receipt and the log are bookkeeping.
-/

namespace Infernode.Exportq

open Links Runs

def Tversion : Nat := 100
def Terror : Nat := 106
def Rerror : Nat := 107
def Tflush : Nat := 108
def Rflush : Nat := 109
def Topen : Nat := 112
def Tcreate : Nat := 114
def Twrite : Nat := 118
def Tremove : Nat := 122
def Twstat : Nat := 126
def Tmax : Nat := 128

def OREAD : Nat := 0
def OTRUNC : Nat := 16
def ORCLOSE : Nat := 64

abbrev Addr := Nat

structure Fcall where
  type : Nat
  tag : Nat
  oldtag : Nat
  mode : Nat
deriving DecidableEq, Repr

/-- A message that an export received; `id` counts them. -/
structure Request where
  id : Nat
  «export» : Nat
  fcall : Fcall
deriving DecidableEq, Repr

/-- Where the request's slave is: `running` is `busy`, and in `relocking` the slave has sent
something and is about to look at the flush queue again. -/
inductive Stage where
  | queued
  | running
  | replying (type : Nat)
  | relocking
  | flushing (fq : Request)
  | finished
deriving DecidableEq, Repr

structure Exq where
  request : Request
  next : Option Addr
  flush : List Request
  shut : Bool
  stage : Stage
deriving DecidableEq, Repr

/-- Where `exportproc` is. In `searching` it has left the queue and not yet looked at the work
in progress; `answering` is the flush that it answers itself. -/
inductive Proc where
  | reading
  | read (q : Request)
  | searching (fq : Request)
  | answering (fq : Request)
  | closing
  | abandoning
  | closed
deriving DecidableEq, Repr

inductive Event where
  | received (q : Request)
  | accepted (q : Request)
  | dispatched (id : Nat)
  | discarded (id : Nat)
  | abandoned (id : Nat)
  | sent (id type : Nat)
deriving DecidableEq, Repr

structure State where
  mem : Addr → Option Exq
  head : Option Addr
  tail : Option Addr
  work : Nat → List Addr
  proc : Nat → Proc
  readonly : Nat → Bool
  received : Nat
  log : List Event

def start (readonly : Nat → Bool) : State where
  mem := fun _ => none
  head := none
  tail := none
  work := fun _ => []
  proc := fun _ => .reading
  readonly := readonly
  received := 0
  log := []

namespace State

def link (s : State) : Option Addr → Option Addr
  | none => s.head
  | some a => (s.mem a).bind Exq.next

def modify (s : State) (a : Addr) (change : Exq → Exq) : State :=
  { s with mem := Function.update s.mem a ((s.mem a).map change) }

def setLink (s : State) : Option Addr → Option Addr → State
  | none, value => { s with head := value }
  | some a, value => s.modify a fun q => { q with next := value }

def alloc (s : State) (a : Addr) (q : Exq) : State :=
  { s with mem := Function.update s.mem a (some q) }

def free (s : State) (a : Addr) : State :=
  { s with mem := Function.update s.mem a none }

/-- The request at `a` leaves the queue at the slot that leads to it, and is freed. -/
def unlink (s : State) (last : Option Addr) (a : Addr) : State :=
  (s.setLink last (s.link (some a))).free a

def setProc (s : State) (e : Nat) (p : Proc) : State :=
  { s with proc := Function.update s.proc e p }

def setWork (s : State) (e : Nat) (work : List Addr) : State :=
  { s with work := Function.update s.work e work }

def emit (s : State) (event : Event) : State :=
  { s with log := event :: s.log }

end State

/-! ### exportproc -/

/-- The types that `exportproc` goes on with. -/
def validtype (type : Nat) : Bool :=
  !(type < Tversion || type ≥ Tmax || type % 2 = 1 || type = Terror)

/-- Whether a read-only export refuses the message. -/
def refused (readonly : Bool) (f : Fcall) : Bool :=
  readonly &&
    (f.type = Topen && f.mode &&& (ORCLOSE ||| OTRUNC ||| 3) ≠ OREAD ||
      f.type = Tcreate || f.type = Twrite || f.type = Tremove || f.type = Twstat)

def receive (s : State) (e : Nat) (f : Fcall) : Option State :=
  match s.proc e with
  | .reading =>
    if validtype f.type then
      let q : Request := ⟨s.received, e, f⟩
      some ({ s with received := s.received + 1 }.setProc e (.read q)|>.emit (.received q))
    else some (s.setProc e .closing)
  | _ => none

def hangup (s : State) (e : Nat) : Option State :=
  match s.proc e with
  | .reading => some (s.setProc e .closing)
  | _ => none

/-- Appends the request at `a` behind the tail. -/
def enqueue (s : State) (a : Addr) (q : Request) : State :=
  let s := s.alloc a ⟨q, none, [], false, .queued⟩
  let s := s.setLink (if s.head = none then none else s.tail) (some a)
  let s := s.setLink (some a) none
  { s with tail := some a }

/-- Whether the request at `a` is the one that the flush `fq` names. -/
def named (s : State) (fq : Request) (a : Addr) : Bool :=
  match s.mem a with
  | some c => c.request.export = fq.export && c.request.fcall.tag = fq.fcall.oldtag
  | none => false

/-- The first half of `exflushed`, on the requests that are not yet started. -/
def flushQueued (s : State) (fq : Request) : State :=
  match search s.link (named s fq) (s.received + 1) none with
  | some (last, a) =>
    let id := ((s.mem a).map fun c => c.request.id).getD 0
    ((s.unlink last a).emit (.discarded id)).setProc fq.export (.answering fq)
  | none => s.setProc fq.export (.searching fq)

/-- What `exportproc` does with the message it has read; `a` is the request's address. -/
def serve (s : State) (e : Nat) (a : Addr) : Option State :=
  match s.proc e with
  | .read q =>
    if refused (s.readonly e) q.fcall then
      some ((s.emit (.sent q.id Rerror)).setProc e .reading)
    else if q.fcall.type = Tflush then some (flushQueued s q)
    else if s.mem a = none then
      some (((enqueue s a q).emit (.accepted q)).setProc e .reading)
    else none
  | _ => none

/-- The second half of `exflushed`, on the work in progress. -/
def searchWork (s : State) (e : Nat) : Option State :=
  match s.proc e with
  | .searching fq =>
    match (s.work e).find? (named s fq) with
    | none => some (s.setProc e (.answering fq))
    | some a =>
      match s.mem a with
      | none => none
      | some c =>
        if c.stage = .finished then some (s.setProc e (.answering fq))
        else
          some ((s.modify a fun c => { c with flush := c.flush ++ [fq] }).setProc e .reading)
  | _ => none

def answer (s : State) (e : Nat) : Option State :=
  match s.proc e with
  | .answering fq => some ((s.emit (.sent fq.id Rflush)).setProc e .reading)
  | _ => none

/-! ### exshutdown -/

/-- The loop of `exshutdown` over the requests that are not yet started. -/
def unqueue (e : Nat) : Nat → Option Addr → State → State
  | 0, _, s => s
  | fuel + 1, last, s =>
    match s.link last with
    | none => s
    | some a =>
      match s.mem a with
      | none => s
      | some c =>
        if c.request.export = e then
          unqueue e fuel last ((s.unlink last a).emit (.abandoned c.request.id))
        else unqueue e fuel (some a) s

def shutQueued (s : State) (e : Nat) : Option State :=
  match s.proc e with
  | .closing => some ((unqueue e (s.received + 1) none s).setProc e .abandoning)
  | _ => none

def shutWork (s : State) (e : Nat) : Option State :=
  match s.proc e with
  | .abandoning =>
    let shut := (s.work e).foldl (fun s a => s.modify a fun c => { c with shut := true }) s
    some ((shut.setWork e []).setProc e .closed)
  | _ => none

/-! ### exslave -/

def dispatch (s : State) : Option State :=
  match s.head with
  | none => none
  | some a =>
    match s.mem a with
    | none => none
    | some c =>
      let s := { s with head := c.next }
      let s := s.modify a fun c => { c with stage := .running }
      let s := s.setWork c.request.export (a :: s.work c.request.export)
      some (s.emit (.dispatched c.request.id))

/-- The head of the loop over the flush queue, up to the next message or the end. -/
def Exq.settle (c : Exq) : Exq :=
  match c.flush with
  | fq :: rest =>
    if c.shut then { c with stage := .finished }
    else { c with stage := .flushing fq, flush := rest }
  | [] => { c with stage := .finished }

/-- The call came back, with an error or not. -/
def Exq.completed (c : Exq) (failed : Bool) : Exq :=
  if c.shut then { c with stage := .finished }
  else if c.flush = [] ∨ !failed then
    { c with stage := .replying (if failed then Rerror else c.request.fcall.type + 1) }
  else c.settle

def complete (s : State) (a : Addr) (failed : Bool) : Option State :=
  match s.mem a with
  | some c => if c.stage = .running then some (s.modify a (Exq.completed · failed)) else none
  | none => none

def reply (s : State) (a : Addr) : Option State :=
  match s.mem a with
  | some c =>
    match c.stage with
    | .replying type =>
      some ((s.modify a fun c => { c with stage := .relocking }).emit (.sent c.request.id type))
    | _ => none
  | none => none

def relock (s : State) (a : Addr) : Option State :=
  match s.mem a with
  | some c => if c.stage = .relocking then some (s.modify a Exq.settle) else none
  | none => none

def replyFlush (s : State) (a : Addr) : Option State :=
  match s.mem a with
  | some c =>
    match c.stage with
    | .flushing fq =>
      some ((s.modify a fun c => { c with stage := .relocking }).emit (.sent fq.id Rflush))
    | _ => none
  | none => none

def finish (s : State) (a : Addr) : Option State :=
  match s.mem a with
  | some c =>
    if c.stage = .finished then
      some ((s.setWork c.request.export ((s.work c.request.export).erase a)).free a)
    else none
  | none => none

/-! ### Runs -/

inductive Action where
  | receive (e : Nat) (f : Fcall)
  | hangup (e : Nat)
  | serve (e : Nat) (a : Addr)
  | searchWork (e : Nat)
  | answer (e : Nat)
  | shutQueued (e : Nat)
  | shutWork (e : Nat)
  | dispatch
  | complete (a : Addr) (failed : Bool)
  | reply (a : Addr)
  | relock (a : Addr)
  | replyFlush (a : Addr)
  | finish (a : Addr)
deriving DecidableEq, Repr

def step (s : State) : Action → Option State
  | .receive e f => receive s e f
  | .hangup e => hangup s e
  | .serve e a => serve s e a
  | .searchWork e => searchWork s e
  | .answer e => answer s e
  | .shutQueued e => shutQueued s e
  | .shutWork e => shutWork s e
  | .dispatch => dispatch s
  | .complete a failed => complete s a failed
  | .reply a => reply s a
  | .relock a => relock s a
  | .replyFlush a => replyFlush s a
  | .finish a => finish s a

end Infernode.Exportq
