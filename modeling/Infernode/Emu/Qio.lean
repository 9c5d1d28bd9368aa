import Infernode.Emu.Block

/-!
The queues of `emu/port/qio.c`.

Owns: `Queue` and the operations on it, each as what it does while it holds the queue's lock.
`qread` gives the lock up while it copies, and is in two parts. `qbwrite` waits in a loop of
its own after it has queued its block.

Does not own: sleeping and waking, `kick`, bypassed queues, `kstrcpy`'s cut at `ERRMAX`, and
the memory behind a pool: whether there is memory for a block is an argument. A pool is of
fewer than 2^31 bytes, so the counters do not wrap. Lengths and offsets are not negative.
-/

namespace Infernode.Qio

open Tail

def Ehungup : String := "i/o on hungup channel"
def Enofree : String := "no free allocb"

/-- The bits of `state`. -/
structure Qstate where
  starve : Bool
  msg : Bool
  closed : Bool
  flow : Bool
  coalesce : Bool
  kick : Bool
deriving DecidableEq, Repr

/-- `blocks` is the chain from `bfirst`, and `blast` the name of a cell. `made` names the next
cell; a block gets a new name whenever it enters a queue. -/
structure Queue where
  blocks : Chain
  blast : Option Nat
  len : Int
  dlen : Int
  limit : Int
  inilim : Int
  state : Qstate
  noblock : Bool
  eof : Nat
  err : String
  made : Nat
deriving DecidableEq, Repr

/-- `qopen`, with the bits `msg`. -/
def qopen (limit : Int) (msg : Qstate) : Queue where
  blocks := []
  blast := none
  len := 0
  dlen := 0
  limit := limit
  inilim := limit
  state := { msg with starve := true }
  noblock := false
  eof := 0
  err := ""
  made := 0

def Queue.starve (q : Queue) (starve : Bool) : Queue :=
  { q with state := { q.state with starve := starve } }

def Queue.flow (q : Queue) (flow : Bool) : Queue :=
  { q with state := { q.state with flow := flow } }

/-- Where a writer is flow controlled and `len` is below the bound, it is restarted. -/
def Queue.restart (q : Queue) (bound : Int) : Queue :=
  if q.state.flow ∧ q.len < bound then q.flow false else q

/-! ### Blocks to and from the chain -/

def qaddlist (q : Queue) (b : Block) (next : List Block) : Queue :=
  let cells := place q.made (b :: next)
  { q with
    blocks := if q.blocks = [] then cells else link q.blast cells q.blocks
    len := q.len + blockalloclen (b :: next)
    dlen := q.dlen + blocklen (b :: next)
    blast := lastname cells
    made := q.made + (b :: next).length }

/-- `bfirst = b->next`, with the counters, where `b` is the first block. -/
def Queue.drop (q : Queue) (b : Block) (next : Chain) : Queue :=
  { q with blocks := next, len := q.len - b.balloc, dlen := q.dlen - b.blen }

def qremove (q : Queue) : Option Block × Queue :=
  match q.blocks with
  | [] => (none, q)
  | b :: next => (some b.value, q.drop b.value next)

def qputback (q : Queue) (b : Block) : Queue :=
  { q with
    blast := if q.blocks = [] then some q.made else q.blast
    blocks := ⟨q.made, b⟩ :: q.blocks
    len := q.len + b.balloc
    dlen := q.dlen + b.blen
    made := q.made + 1 }

/-- `qwakeup_unlock` -/
def qwakeup (q : Queue) : Queue := q.restart (q.limit.tdiv 2)

def qget (q : Queue) : Option Block × Queue :=
  match q.blocks with
  | [] => (none, q.starve true)
  | b :: next => (some b.value, (q.drop b.value next).restart (q.limit.tdiv 2))

/-- The loop of `qdiscard`: `left` bytes of the chain are still to go. -/
def discard : Chain → Nat → Queue → Nat × Queue
  | [], _, q => (0, q)
  | b :: next, left, q =>
    if left = 0 then (0, q)
    else if b.value.blen ≤ left then
      let (sofar, q) := discard next (left - b.value.blen) (q.drop b.value next)
      (b.value.blen + sofar, q)
    else
      (left, { q with
        blocks := { b with value := b.value.advance left } :: next
        dlen := q.dlen - left })

def qdiscard (q : Queue) (len : Nat) : Nat × Queue :=
  let (sofar, q) := discard q.blocks len q
  (sofar, q.restart q.limit)

/-- The loop of `qconsume` that passes over the blocks of no bytes. -/
def passempty : Chain → Queue → Queue
  | [], q => q
  | b :: next, q =>
    if 0 < b.value.blen then q
    else passempty next { q with blocks := next, len := q.len - b.value.balloc }

/-- `qconsume`: the bytes copied, or none. -/
def qconsume (q : Queue) (len : Nat) : Option (List UInt8) × Queue :=
  let q := passempty q.blocks q
  match q.blocks with
  | [] => (none, q.starve true)
  | b :: next =>
    let n := b.value.blen
    let len := min len n
    let left := b.value.advance len
    let q := { q with dlen := q.dlen - len }
    let q := if q.state.msg ∨ len = n then q.drop left next
      else { q with blocks := { b with value := left } :: next }
    (some (b.value.bytes.take len), q.restart (q.limit.tdiv 2))

/-- `qpass`; `next` are the blocks chained behind `b`. -/
def qpass (q : Queue) (b : Block) (next : List Block) : Int × Queue :=
  if q.limit ≤ q.len then (-1, q)
  else if q.state.closed then (blocklen (b :: next), q)
  else
    let q := qaddlist q b next
    let q := if q.limit.tdiv 2 ≤ q.len then q.flow true else q
    (blockalloclen (b :: next), q.starve false)

def qpassnolim (q : Queue) (b : Block) (next : List Block) : Int × Queue :=
  if q.state.closed then (b.balloc, q)
  else
    let q := qaddlist q b next
    let q := if q.limit.tdiv 2 ≤ q.len then q.flow true else q
    (blockalloclen (b :: next), q.starve false)

def qproduce (q : Queue) (p : List UInt8) (memory : Bool) : Int × Queue :=
  if q.state.closed then (-1, q)
  else if q.limit ≤ q.len then (-1, q.flow true)
  else if memory then
    let q := (qaddlist q (filled p) []).starve false
    (p.length, if q.limit ≤ q.len then q.flow true else q)
  else (-1, q)

/-! ### Readers -/

/-- What `qwait` answers; `asleep` is its sleep. -/
inductive Wait where
  | ready
  | closed
  | failed
  | asleep
deriving DecidableEq, Repr

def qwait (q : Queue) : Wait × Queue :=
  if q.blocks ≠ [] then (.ready, q)
  else if q.state.closed then
    let q := { q with eof := q.eof + 1 }
    if 3 < q.eof then (.failed, q)
    else if q.err ≠ "" ∧ q.err ≠ Ehungup then (.failed, q)
    else (.closed, q)
  else (.asleep, q.starve true)

inductive Read (α : Type) where
  | asleep
  | eof
  | error (err : String)
  | done (value : α)
deriving DecidableEq, Repr

/-- `qbread`. Where there is no memory for the rest of a block, the block is lost. -/
def qbread (q : Queue) (len : Nat) (memory : Bool) : Read Block × Queue :=
  match qwait q with
  | (.asleep, q) => (.asleep, q)
  | (.closed, q) => (.eof, q)
  | (.failed, q) => (.error q.err, q)
  | (.ready, q) =>
    match qremove q with
    | (none, q) => (.eof, q)
    | (some b, q) =>
      if b.blen ≤ len then (.done b, qwakeup q)
      else if q.state.msg then (.done (b.truncate len), qwakeup q)
      else if memory then
        (.done (b.truncate len), qwakeup (qputback q (filled (b.bytes.drop len))))
      else (.error Enofree, q)

/-- When coalescing, blocks of no bytes go away. -/
def qskip : Chain → Queue → Queue
  | [], q => q
  | b :: next, q => if b.value.blen = 0 then qskip next (q.drop b.value next) else q

/-- The blocks that fit in the read beside the `n` bytes of those taken. -/
def gather (len : Nat) : Chain → Nat → Queue → List Block × Nat × Queue
  | [], n, q => ([], n, q)
  | b :: next, n, q =>
    if len < n + b.value.blen then ([], n, q)
    else
      let (more, n, q) := gather len next (n + b.value.blen) (q.drop b.value next)
      (b.value :: more, n, q)

/-- The blocks that a `qread` of `len` bytes has taken, and the count `n` of their bytes. -/
structure Reading where
  first : List Block
  n : Nat
  len : Nat
deriving DecidableEq, Repr

/-- `qread` until it gives the lock up. -/
def qreadtake (q : Queue) (len : Nat) : Read Reading × Queue :=
  let q := if q.state.coalesce then qskip q.blocks q else q
  match qwait q with
  | (.asleep, q) => (.asleep, q)
  | (.closed, q) => (.eof, q)
  | (.failed, q) => (.error q.err, q)
  | (.ready, q) =>
    match qremove q with
    | (none, q) => (.eof, q)
    | (some b, q) =>
      if q.state.coalesce then
        let (more, n, q) := gather len q.blocks b.blen q
        (.done ⟨b :: more, n, len⟩, q)
      else (.done ⟨[b], b.blen, len⟩, q)

/-- `qread` from when it has the lock again: the bytes copied and their count. -/
def qreadrest (q : Queue) (reading : Reading) : (List UInt8 × Int) × Queue :=
  match bl2mem reading.first reading.len with
  | (p, none) => ((p, reading.n), qwakeup q)
  | (p, some b) =>
    ((p, reading.n - b.blen), qwakeup (if q.state.msg then q else qputback q b))

/-! ### Writers -/

def qnotfull (q : Queue) : Bool := q.len < q.limit ∨ q.state.closed

/-- `qbwrite` until it waits for the queue to get below the limit. -/
def qbwrite (q : Queue) (b : Block) : Except String Nat × Queue :=
  if q.state.closed then (.error q.err, q)
  else if q.limit ≤ q.len ∧ q.noblock then (.ok b.blen, q)
  else (.ok b.blen, (qaddlist q b []).starve false)

def qbwritewait (q : Queue) : Queue := if q.noblock ∨ qnotfull q then q else q.flow true

/-- The loop of `qwrite`, of which so many rounds are begun before an error ends it. -/
def qwriteloop : Nat → Queue → List UInt8 → Bool × Queue
  | 0, q, _ => (false, q)
  | rounds + 1, q, p =>
    match qbwrite q (filled (p.take Maxatomic)) with
    | (.error _, q) => (false, q)
    | (.ok _, q) =>
      let q := qbwritewait q
      if Maxatomic < p.length ∧ ¬q.state.msg then qwriteloop rounds q (p.drop Maxatomic)
      else (true, q)

/-- `qwrite`: the count that it returns, unless it raises an error. -/
def qwrite (rounds : Nat) (q : Queue) (p : List UInt8) : Option Nat × Queue :=
  let (done, q) := qwriteloop rounds q p
  (if done then some p.length else none, q)

/-- `qiwrite`, when there is memory for so many blocks: the count that it returns. -/
def qiwrite : Nat → Queue → List UInt8 → Nat × Queue
  | 0, q, _ => (0, q)
  | rounds + 1, q, p =>
    let q := (qaddlist q (filled (p.take Maxatomic)) []).starve false
    if Maxatomic < p.length ∧ ¬q.state.msg then
      let (sofar, q) := qiwrite rounds q (p.drop Maxatomic)
      (Maxatomic + sofar, q)
    else (min p.length Maxatomic, q)

/-! ### The queue as a whole -/

def qclose (q : Queue) : Queue :=
  { q with
    state := { q.state with closed := true, flow := false, starve := false }
    err := Ehungup
    blocks := []
    len := 0
    dlen := 0
    noblock := false }

def qhangup (q : Queue) (msg : String) : Queue :=
  { q with
    state := { q.state with closed := true }
    err := if msg = "" then Ehungup else msg }

def qreopen (q : Queue) : Queue :=
  { q with
    state := { q.state with closed := false, starve := true }
    eof := 0
    limit := q.inilim }

def qsetlimit (q : Queue) (limit : Int) : Queue := { q with limit := limit }

def qnoblock (q : Queue) (onoff : Bool) : Queue := { q with noblock := onoff }

def qflush (q : Queue) : Queue := { q with blocks := [], len := 0, dlen := 0 }

inductive Pullup where
  | fault
  | error (err : String)
  | done (first : Option Block)
deriving DecidableEq, Repr

/-- `pullupqueue`, which reads through `bfirst` before it looks at it. -/
def pullupqueue (q : Queue) (n : Nat) (memory : Bool) : Pullup × Queue :=
  match q.blocks with
  | [] => (.fault, q)
  | bp :: next =>
    if n ≤ bp.value.blen then (.done (some bp.value), q)
    else
      match pullupblock q.made memory bp next n with
      | .exhausted => (.error Enofree, q)
      | .short => (.done none, { q with blocks := [], blast := none })
      | .chain cells =>
        (.done (cells.head?.map Cell.value),
          { q with blocks := cells, blast := lastname cells, made := q.made + 1 })

end Infernode.Qio
