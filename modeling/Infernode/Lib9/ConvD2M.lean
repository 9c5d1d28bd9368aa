import Infernode.Codec.Wire
import Mathlib.Data.List.TakeWhile

/-!
Directory entries as bytes, `lib9/convD2M.c` and `lib9/convM2D.c`. A pointer into a buffer that is
read is the list of the bytes from it to the end of what may be read.

Owns: `Dir` and its strings, `convD2M`, `statcheck` and `statcheckbuf`, and `convM2D`
with the strings that it writes.
-/

namespace Infernode.Stat

open Wire

def BIT16SZ : Nat := 2

def STATFIXLEN : Nat := 49

/-! ### Entries -/

/-- What a `char*` points to, up to the NUL. -/
structure CString where
  chars : Bytes
  noNul : 0 ∉ chars
deriving DecidableEq

def CString.ofMemory (memory : Bytes) : CString where
  chars := memory.takeWhile (· != 0)
  noNul member := by
    have kept := List.mem_takeWhile_imp member
    exact Bool.noConfusion kept

def nullstring : CString := ⟨[], List.not_mem_nil⟩

/-- `ulong` has 64 bits. -/
structure Qid where
  path : UInt64
  vers : UInt64
  type : UInt8
deriving DecidableEq

structure Dir where
  type : UInt16
  dev : UInt32
  qid : Qid
  mode : UInt64
  atime : UInt64
  mtime : UInt64
  length : Int64
  name : Option CString
  uid : Option CString
  gid : Option CString
  muid : Option CString
deriving DecidableEq

/-- The strings; one that is nil counts as empty. -/
def Dir.sv (d : Dir) : List Bytes :=
  [d.name, d.uid, d.gid, d.muid].map fun s => (s.map CString.chars).getD []

/-- A value that an `int` holds; what becomes of another is not defined. -/
def int (n : Nat) : Option Nat := if n < 2 ^ 31 then some n else none

/-- `ns` after the loop over the strings. -/
def sumlen (sv : List Bytes) : Option Nat :=
  sv.foldlM (fun ns s => do int (ns + (← int s.length))) 0

/-! ### Packing -/

/-- `PBIT8` to `PBIT64` one after the other, from a place in the buffer on. -/
def pbits (fields : List Bytes) (at' : Bytes × Nat) : Option (Bytes × Nat) :=
  fields.foldlM (fun (buf, p) bytes => (put buf p bytes).map fun buf => (buf, p + bytes.length)) at'

/-- The strings; the last of the results is missing if one does not fit. -/
def pstrings (ebuf : Nat) : List Bytes → Bytes → Nat → Option (Bytes × Option Nat)
  | [], buf, p => some (buf, some p)
  | s :: rest, buf, p =>
    if ebuf < p + s.length + BIT16SZ then some (buf, none)
    else do
      let buf ← put buf p (le 2 s.length)
      let buf ← put buf (p + BIT16SZ) s
      pstrings ebuf rest buf (p + BIT16SZ + s.length)

def Dir.fields (d : Dir) : List Bytes :=
  [le 2 d.type.toNat, le 4 d.dev.toNat, le 1 d.qid.type.toNat, le 4 d.qid.vers.toNat,
    le 8 d.qid.path.toNat, le 4 d.mode.toNat, le 4 d.atime.toNat, le 4 d.mtime.toNat,
    le 8 d.length.toUInt64.toNat]

def convD2M (d : Dir) (buf : Bytes) : Option (Nat × Bytes) :=
  let nbuf := buf.length
  if nbuf < BIT16SZ then some (0, buf)
  else do
    let ns ← sumlen d.sv
    let ss ← int (STATFIXLEN + ns)
    let (buf, p) ← pbits [le 2 (ss - BIT16SZ)] (buf, 0)
    if nbuf < ss then some (BIT16SZ, buf)
    else do
      let (buf, p) ← pbits d.fields (buf, p)
      match ← pstrings nbuf d.sv buf p with
      | (buf, none) => some (0, buf)
      | (buf, some p) => if ss ≠ p then some (0, buf) else some (p, buf)

/-! ### Checking -/

def checkstrings : Nat → Bytes → Nat → Option Bool
  | 0, _, remain => some (decide (remain = 0))
  | i + 1, buf, remain =>
    if remain < BIT16SZ then some false
    else do
      let (n, buf) ← rd 2 buf
      let remain := remain - BIT16SZ
      if remain < n then some false else checkstrings i (buf.drop n) (remain - n)

def statcheck (buf : Bytes) (nbuf : Nat) : Option Int :=
  if nbuf < STATFIXLEN then some (-1)
  else do
    let (size, _) ← rd 2 buf
    if nbuf ≠ BIT16SZ + size then some (-1)
    else do
      let fixed := STATFIXLEN - 4 * BIT16SZ
      let good ← checkstrings 4 (buf.drop fixed) (nbuf - fixed)
      some (if good then 0 else -1)

def statcheckbuf (buf : Bytes) : Option Int :=
  let navail := buf.length
  if navail < BIT16SZ then some (-1)
  else do
    let (size, _) ← rd 2 buf
    let nbuf := BIT16SZ + size
    if navail < nbuf then some (-1)
    else do
      let checked ← statcheck buf nbuf
      some (if checked < 0 then -1 else nbuf)

/-! ### Unpacking -/

/-- `gbit32dontcare` of what was read. -/
def dontcare (v : Nat) : UInt64 := if v = 0xFFFFFFFF then ~~~0 else UInt64.ofNat v

/-- The loop over so many strings: what is written to `strs`, and, unless the buffer ends, the
strings and where they end. -/
def gstrings (strs : Bool) : Nat → Bytes → Option (Bytes × Option (List Bytes × Bytes))
  | 0, p => some ([], some ([], p))
  | i + 1, p =>
    if p.length < BIT16SZ then some ([], none)
    else do
      let (ns, p) ← rd 2 p
      if p.length < ns then some ([], none)
      else do
        let (s, p) ← take ns p
        let (written, more) ← gstrings strs i p
        some ((if strs then s ++ [0] else []) ++ written,
          more.map fun (sv, p) => (s :: sv, p))

/-- The result, the entry, and what is written to `strs` if it is there. -/
def convM2D (buf : Bytes) (d : Dir) (strs : Bool) : Option (Nat × Dir × Bytes) :=
  if buf.length < STATFIXLEN then some (0, d, [])
  else do
    let (_, p) ← rd 2 buf
    let (type, p) ← rd 2 p
    let (dev, p) ← rd 4 p
    let (qtype, p) ← rd 1 p
    let (vers, p) ← rd 4 p
    let (path, p) ← rd 8 p
    let (mode, p) ← rd 4 p
    let (atime, p) ← rd 4 p
    let (mtime, p) ← rd 4 p
    let (length, p) ← rd 8 p
    let d : Dir :=
      { d with
        type := UInt16.ofNat type
        dev := UInt32.ofNat dev
        qid := ⟨UInt64.ofNat path, UInt64.ofNat vers, UInt8.ofNat qtype⟩
        mode := dontcare mode
        atime := dontcare atime
        mtime := dontcare mtime
        length := (UInt64.ofNat length).toInt64 }
    match ← gstrings strs 4 p with
    | (written, none) => some (0, d, written)
    | (written, some (sv, p)) =>
      let string (i : Nat) : Option CString :=
        some (if strs then CString.ofMemory (sv.getD i []) else nullstring)
      some (buf.length - p.length,
        { d with name := string 0, uid := string 1, gid := string 2, muid := string 3 }, written)

end Infernode.Stat
