import Infernode.Codec.Wire
import Infernode.Styx.Message

/-!
Unpacking messages, `appl/lib/styx.b`. An index or a slice outside the array raises
an exception, which is `none`; the result is the count of the source, `-1` for an
illegal message, with the message.

Owns: `gqid`, `g32`, `g64`, `gstring`, `unpackdir`, `Tmsg.unpack` and `Rmsg.unpack`.
-/

namespace Infernode.Styx

open Text Lib9 Wire

/-- The value of an `int`. -/
def sint (n : Nat) : Int := if n < 2147483648 then n else (n : Int) - 4294967296

/-- `f[s:e]`. -/
def slice (f : Bytes) (s e : Int) : Option Bytes :=
  if 0 ≤ s ∧ s ≤ e ∧ e ≤ f.length then some ((f.take e.toNat).drop s.toNat) else none

def g16 (f : Bytes) (i : Nat) : Option Nat := do
  let b1 ← f[i + 1]?
  let b0 ← f[i]?
  return b1 <<< 8 ||| b0

def g32 (f : Bytes) (i : Nat) : Option Nat := do
  let b3 ← f[i + 3]?
  let b2 ← f[i + 2]?
  let b1 ← f[i + 1]?
  let b0 ← f[i]?
  return ((b3 <<< 8 ||| b2) <<< 8 ||| b1) <<< 8 ||| b0

def g64 (f : Bytes) (i : Nat) : Option Nat := do
  let b0 ← g32 f i
  let b1 ← g32 f (i + 4)
  return b1 <<< 32 ||| b0

def gqid (f : Bytes) (i : Nat) : Option Qid := do
  let qtype ← f[i]?
  let vers ← g32 f (i + 1)
  let path0 ← g32 f (i + 5)
  let path1 ← g32 f (i + 9)
  return ⟨path1 <<< 32 ||| path0, vers, qtype⟩

/-- The string at an offset, with the offset behind it; `none` is the offset `-1`. -/
def gstring (a : Bytes) : Option Nat → Option (Str × Nat)
  | none => none
  | some o =>
    if a.length < o + 2 then none
    else
      let l := a.getD (o + 1) 0 <<< 8 ||| a.getD o 0
      let e := o + 2 + l
      if a.length < e then none else some (c2string ((a.take e).drop (o + 2)), e)

def unpackdir (a : Bytes) : Option (Nat × Dir) :=
  if a.length < STATFIXLEN then some (0, zerodir)
  else do
    let size ← g16 a 0
    let sz := size + 2
    if a.length < sz then return (0, zerodir)
    let dtype ← g16 a 2
    let dev ← g32 a 4
    let qid ← gqid a 8
    let mode ← g32 a 21
    let atime ← g32 a 25
    let mtime ← g32 a 29
    let length ← g64 a 33
    let name := gstring a (some 41)
    let uid := gstring a (name.map Prod.snd)
    let gid := gstring a (uid.map Prod.snd)
    let muid := gstring a (gid.map Prod.snd)
    let text (s : Option (Str × Nat)) : Str := (s.map Prod.fst).getD []
    let dir : Dir := ⟨text name, text uid, text gid, text muid, qid, mode, atime, mtime, length,
      dtype, dev⟩
    match muid with
    | some (_, i) => if i ≠ sz then return (0, dir) else return (i, dir)
    | none => return (0, dir)

/-- A count, with the message if there is one. -/
abbrev Unpacked (α : Type) := Int × Option α

def illegal {α : Type} : Option (Unpacked α) := some (-1, none)

/-! ### T-messages -/

def gnames (f : Bytes) : Nat → Nat → Option (List Str × Nat)
  | 0, o => some ([], o)
  | n + 1, o =>
    match gstring f (some o) with
    | none => none
    | some (name, o) => (gnames f n o).map fun (names, o) => (name :: names, o)

/-- The cases of `Tmsg.unpack`, for a message of the type. -/
def Tmsg.unpackcase (f : Bytes) (mtype tag fid : Nat) : Option (Unpacked Tmsg) :=
  if mtype = Tversion then
    match gstring f (some (H + 4)) with
    | none => illegal
    | some (v, o) => some (o, some ⟨tag, .version fid v⟩)
  else if mtype = Tauth then
    match gstring f (some (H + 4)) with
    | none => illegal
    | some (uname, o1) =>
      match gstring f (some o1) with
      | none => illegal
      | some (aname, o2) => some (o2, some ⟨tag, .auth fid uname aname⟩)
  else if mtype = Tflush then do
    let oldtag ← g16 f H
    return (H + 2, some ⟨tag, .flush oldtag⟩)
  else if mtype = Tattach then do
    let afid ← g32 f (H + 4)
    match gstring f (some (H + 2 * 4)) with
    | none => illegal
    | some (uname, o1) =>
      match gstring f (some o1) with
      | none => illegal
      | some (aname, o2) => some (o2, some ⟨tag, .attach fid afid uname aname⟩)
  else if mtype = Twalk then do
    let newfid ← g32 f (H + 4)
    let n ← g16 f (H + 2 * 4)
    if MAXWELEM < n then illegal
    else
      match gnames f n (H + 2 * 4 + 2) with
      | none => illegal
      | some (names, o) => some (o, some ⟨tag, .walk fid newfid names⟩)
  else if mtype = Topen then do
    let mode ← f[H + 4]?
    return (H + 4 + 1, some ⟨tag, .«open» fid mode⟩)
  else if mtype = Tcreate then
    match gstring f (some (H + 4)) with
    | none => illegal
    | some (name, o) =>
      if f.length < o + 4 + 1 then illegal
      else do
        let perm ← g32 f o
        let mode ← f[o + 4]?
        return (o + 4 + 1, some ⟨tag, .create fid name perm mode⟩)
  else if mtype = Tread then do
    let offset ← g64 f (H + 4)
    let count ← g32 f (H + 4 + 8)
    return (H + 4 + 8 + 4, some ⟨tag, .read fid offset count⟩)
  else if mtype = Twrite then do
    let offset ← g64 f (H + 4)
    let count ← g32 f (H + 4 + 8)
    let o : Int := H + 4 + 8 + 4
    if f.length - o < sint count then illegal
    else do
      let data ← slice f o (o + sint count)
      return (o + sint count, some ⟨tag, .write fid offset data⟩)
  else if mtype = Tclunk then some (H + 4, some ⟨tag, .clunk fid⟩)
  else if mtype = Tremove then some (H + 4, some ⟨tag, .remove fid⟩)
  else if mtype = Tstat then some (H + 4, some ⟨tag, .stat fid⟩)
  else if mtype = Twstat then do
    -- the high byte is shifted as a byte, which leaves nothing of it
    let high ← f[H + 4 + 1]?
    let low ← f[H + 4]?
    let n := (high <<< 8) % 256 ||| low
    if f.length < H + 4 + 2 + n then illegal
    else do
      let (ds, dir) ← unpackdir (f.drop (H + 4 + 2))
      if ds ≠ n then illegal else return (H + 4 + 2 + n, some ⟨tag, .wstat fid dir⟩)
  else illegal

def unpackmsg {α : Type} (reply : Bool) (unpackfields : Bytes → Nat → Nat → Option (Unpacked α))
    (f : Bytes) : Option (Unpacked α) :=
  if f.length < H then some (0, none)
  else do
    let size ← g32 f 0
    if (f.length : Int) < sint size then return (0, none)
    let f ← slice f 0 (sint size)
    let mtype ← f[4]?
    if Tmax ≤ mtype ∨ decide (mtype % 2 = 1) ≠ reply ∨ sint size < hdrlen mtype then illegal
    else do
      let tag ← g16 f 5
      unpackfields f mtype tag

/-- The fid is always in the same place; it is extracted where there is one. -/
def Tmsg.unpackfields (f : Bytes) (mtype tag : Nat) : Option (Unpacked Tmsg) :=
  (if H + 4 ≤ hdrlen mtype then g32 f H else some 0).bind fun fid =>
    Tmsg.unpackcase f mtype tag fid

def Tmsg.unpack (f : Bytes) : Option (Unpacked Tmsg) := unpackmsg false Tmsg.unpackfields f

/-! ### R-messages -/

def gqids (f : Bytes) : Nat → Nat → Option (List Qid)
  | 0, _ => some []
  | n + 1, o => do
      let q ← gqid f o
      let qids ← gqids f n (o + 13)
      return q :: qids

def Rmsg.unpackfields (f : Bytes) (mtype tag : Nat) : Option (Unpacked Rmsg) :=
  if mtype = Rversion then do
    let msize ← g32 f H
    match gstring f (some (H + 4)) with
    | none => illegal
    | some (v, o) => some (o, some ⟨tag, .version msize v⟩)
  else if mtype = Rauth then do
    let aqid ← gqid f H
    return (H + 13, some ⟨tag, .auth aqid⟩)
  else if mtype = Rflush then some (H, some ⟨tag, .flush⟩)
  else if mtype = Rerror then
    match gstring f (some H) with
    | none => illegal
    | some (ename, o) => some (o, some ⟨tag, .error ename⟩)
  else if mtype = Rclunk then some (H, some ⟨tag, .clunk⟩)
  else if mtype = Rremove then some (H, some ⟨tag, .remove⟩)
  else if mtype = Rwstat then some (H, some ⟨tag, .wstat⟩)
  else if mtype = Rattach then do
    let qid ← gqid f H
    return (H + 13, some ⟨tag, .attach qid⟩)
  else if mtype = Rwalk then do
    let nqid ← g16 f H
    if f.length < H + 2 + nqid * 13 then illegal
    else do
      let qids ← gqids f nqid (H + 2)
      return (((H + 2 + nqid * 13 : Nat) : Int), some ⟨tag, .walk qids⟩)
  else if mtype = Ropen then do
    let qid ← gqid f H
    let iounit ← g32 f (H + 13)
    return (H + 13 + 4, some ⟨tag, .«open» qid iounit⟩)
  else if mtype = Rcreate then do
    let qid ← gqid f H
    let iounit ← g32 f (H + 13)
    return (H + 13 + 4, some ⟨tag, .create qid iounit⟩)
  else if mtype = Rread then do
    let count ← g32 f H
    let e := sint (int32 (H + 4 + count))
    if (f.length : Int) < e then illegal
    else do
      let data ← slice f (H + 4) e
      return (e, some ⟨tag, .read data⟩)
  else if mtype = Rwrite then do
    let count ← g32 f H
    return (H + 4, some ⟨tag, .write count⟩)
  else if mtype = Rstat then do
    let n ← g16 f H
    if f.length < H + 2 + n then illegal
    else do
      let (ds, dir) ← unpackdir (f.drop (H + 2))
      if ds = 0 then illegal
      else if ds ≠ n then illegal
      else return (((H + 2 + n : Nat) : Int), some ⟨tag, .stat dir⟩)
  else illegal

def Rmsg.unpack (f : Bytes) : Option (Unpacked Rmsg) := unpackmsg true Rmsg.unpackfields f

end Infernode.Styx
