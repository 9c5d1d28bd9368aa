import Infernode.Emu.Qmoves

/-!
A queue as a stream of bytes, or of messages.

Owns: the writes and removals on a queue with what they answer, what a right answer is, the
condition under which the answer is right, and the bytes and messages that one operation adds
or removes.

Does not own: sequences of operations. An operation is carried out as a whole.
-/

namespace Infernode.Qio

open Tail

def messages (cells : Chain) : List (List UInt8) := cells.map fun cell => cell.value.bytes

theorem contents_eq (cells : Chain) : contents cells = (messages cells).flatten :=
  List.flatMap_def

theorem Same.contents {q q' : Queue} (same : Same q q') :
    contents q'.blocks = contents q.blocks := by rw [same.blocks]

/-- An interrupted writer has queued its last block, and is woken from its wait by an error. -/
inductive Op where
  | qwrite (rounds : Nat) (interrupted : Bool) (p : List UInt8)
  | qbwrite (interrupted : Bool) (b : Block)
  | qiwrite (rounds : Nat) (p : List UInt8)
  | qproduce (p : List UInt8) (memory : Bool)
  | qpass (b : Block) (next : List Block)
  | qpassnolim (b : Block) (next : List Block)
  | qaddlist (b : Block) (next : List Block)
  | qread (len : Nat)
  | qbread (len : Nat) (memory : Bool)
  | qconsume (len : Nat)
  | qget
  | qremove
  | qremoveback (used : Nat)
  | qdiscard (len : Nat)
  | qhangup (msg : String)
  | qreopen
  | qsetlimit (limit : Int)
  | qnoblock (onoff : Bool)
deriving DecidableEq, Repr

/-- The count of a write; a write without one; an error or -1 from a write; the bytes and the
count of a read; the bytes used of a block that is put back; the count of a discard. -/
inductive Answer where
  | wrote (n : Int)
  | added
  | failed
  | read (p : List UInt8) (n : Int)
  | part (p : List UInt8)
  | discarded (n : Nat)
  | nothing
deriving DecidableEq, Repr

/-- `qread`, when nobody comes between its two parts. -/
def qread (q : Queue) (len : Nat) : Read (List UInt8 × Int) × Queue :=
  match qreadtake q len with
  | (.done reading, q) => (.done (qreadrest q reading).1, (qreadrest q reading).2)
  | (.asleep, q) => (.asleep, q)
  | (.eof, q) => (.eof, q)
  | (.error err, q) => (.error err, q)

def wrote (interrupted : Bool) (n : Int) : Answer :=
  if interrupted ∨ n < 0 then .failed else .wrote n

def perform (q : Queue) : Op → Answer × Queue
  | .qwrite rounds interrupted p =>
    match qwrite rounds q p with
    | (some n, q) => (wrote interrupted n, q)
    | (none, q) => (.failed, q)
  | .qbwrite interrupted b =>
    match qbwrite q b with
    | (.ok n, q) => (wrote interrupted n, qbwritewait q)
    | (.error _, q) => (.failed, q)
  | .qiwrite rounds p => (wrote false (qiwrite rounds q p).1, (qiwrite rounds q p).2)
  | .qproduce p memory => (wrote false (qproduce q p memory).1, (qproduce q p memory).2)
  | .qpass b next => (wrote false (qpass q b next).1, (qpass q b next).2)
  | .qpassnolim b next => (wrote false (qpassnolim q b next).1, (qpassnolim q b next).2)
  | .qaddlist b next => (.added, qaddlist q b next)
  | .qread len =>
    match qread q len with
    | (.done (p, n), q) => (.read p n, q)
    | (_, q) => (.nothing, q)
  | .qbread len memory =>
    match qbread q len memory with
    | (.done b, q) => (.read b.bytes b.blen, q)
    | (_, q) => (.nothing, q)
  | .qconsume len =>
    match qconsume q len with
    | (some p, q) => (.read p p.length, q)
    | (none, q) => (.nothing, q)
  | .qget =>
    match qget q with
    | (some b, q) => (.read b.bytes b.blen, q)
    | (none, q) => (.nothing, q)
  | .qremove =>
    match qremove q with
    | (some b, q) => (.read b.bytes b.blen, q)
    | (none, q) => (.nothing, q)
  | .qremoveback used =>
    match qremove q with
    | (some b, q) => (.part (b.bytes.take used), qputback q (filled (b.bytes.drop used)))
    | (none, q) => (.nothing, q)
  | .qdiscard len => (.discarded (qdiscard q len).1, (qdiscard q len).2)
  | .qhangup msg => (.nothing, qhangup q msg)
  | .qreopen => (.nothing, qreopen q)
  | .qsetlimit limit => (.nothing, qsetlimit q limit)
  | .qnoblock onoff => (.nothing, qnoblock q onoff)

def Op.data : Op → List UInt8
  | .qwrite _ _ p => p
  | .qbwrite _ b => b.bytes
  | .qiwrite _ p => p
  | .qproduce p _ => p
  | .qpass b next => (b :: next).flatMap Block.bytes
  | .qpassnolim b next => (b :: next).flatMap Block.bytes
  | .qaddlist b next => (b :: next).flatMap Block.bytes
  | _ => []

def Op.asked : Op → Option Nat
  | .qread len => some len
  | .qbread len _ => some len
  | .qconsume len => some len
  | .qdiscard len => some len
  | _ => none

/-- A write's count is the number of its bytes that are behind the others afterwards; a read
answers with the next bytes, at most as many as were asked for. In a queue of messages a write
that reports all its bytes has queued all of them, and a read answers with a prefix of the next
message, which is then gone. -/
def Right (q : Queue) (op : Op) (q' : Queue) : Answer → Prop
  | .wrote n =>
    if q.state.msg then
      n = op.data.length → contents q'.blocks = contents q.blocks ++ op.data
    else
      ∃ k, k ≤ op.data.length ∧ n = k ∧
        contents q'.blocks = contents q.blocks ++ op.data.take k
  | .added => contents q'.blocks = contents q.blocks ++ op.data
  | .failed => ∃ k, contents q'.blocks = contents q.blocks ++ op.data.take k
  | .read p n =>
    n = p.length ∧ (∀ len, op.asked = some len → p.length ≤ len) ∧
      if q.state.msg then
        ∃ m, messages q.blocks = m :: messages q'.blocks ∧ p <+: m
      else contents q.blocks = p ++ contents q'.blocks
  | .part p =>
    ∃ left rest, messages q.blocks = (p ++ left) :: rest ∧ messages q'.blocks = left :: rest
  | .discarded n =>
    (∀ len, op.asked = some len → n ≤ len) ∧ n ≤ (contents q.blocks).length ∧
      contents q'.blocks = (contents q.blocks).drop n
  | .nothing =>
    if q.state.msg then messages q'.blocks = messages q.blocks
    else contents q'.blocks = contents q.blocks

/-- The number of the last block that `qwrite` makes of so many bytes. -/
def lastround (msg : Bool) (length : Nat) : Nat := if msg then 0 else (length - 1) / Maxatomic

/-- The first message is one of some bytes, if there is a message. -/
def Nonempty : Chain → Prop
  | [] => True
  | b :: _ => 0 < b.value.blen

/-- The second message does not fit into the read beside the first. -/
def Alone (len : Nat) : Chain → Prop
  | b :: c :: _ => len < b.value.blen + c.value.blen
  | _ => True

/-- The first block fits, if there is a block. -/
def Fits (len : Nat) : Chain → Prop
  | [] => True
  | b :: _ => b.value.blen ≤ len

/-- When the answer to the operation is right. -/
def Streams (q : Queue) : Op → Prop
  | .qwrite rounds interrupted p =>
    q.state.closed = true ∨ interrupted = true ∨ rounds ≤ lastround q.state.msg p.length ∨
      ((q.state.msg = true → p.length ≤ Maxatomic) ∧
        (q.noblock = true → p = [] ∨
          q.len + Maxatomic * lastround q.state.msg p.length < q.limit))
  | .qbwrite interrupted b =>
    q.state.closed = true ∨ interrupted = true ∨
      (q.noblock = true → b.blen = 0 ∨ q.len < q.limit)
  | .qpass b next =>
    q.limit ≤ q.len ∨
      if q.state.closed then blocklen (b :: next) = 0
      else q.state.msg = true ∨ blockalloclen (b :: next) = blocklen (b :: next)
  | .qpassnolim b next =>
    if q.state.closed then
      if q.state.msg then b.balloc = blocklen (b :: next) → blocklen (b :: next) = 0
      else b.balloc = 0
    else q.state.msg = true ∨ blockalloclen (b :: next) = blocklen (b :: next)
  | .qread len =>
    q.state.msg = true → q.state.coalesce = true → Nonempty q.blocks ∧ Alone len q.blocks
  | .qbread len memory => q.state.msg = true ∨ memory = true ∨ Fits len q.blocks
  | .qconsume _ => q.state.msg = true → Nonempty q.blocks
  | _ => True

end Infernode.Qio
