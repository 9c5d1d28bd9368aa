import Infernode.Styx.ConvM2S

/-!
Packing messages in C, `lib9/convS2M.c`.

Owns: the C structure `Fcall` with all its fields, `sizeS2M` and `convS2M`. A pointer to bytes
is a function from offsets to bytes, so that the count beside it says how many are used; the
names and qids of a walk are in an array that is read by its index.
-/

namespace Infernode.Lib9

open Wire Styx

/-! ### The structure -/

structure Cstr where
  bytes : List UInt8
  noNul : 0 ∉ bytes

/-- The text of a string; `nil` has none. -/
def text (s : Option Cstr) : Bytes := (s.map Cstr.bytes).getD [] |>.map UInt8.toNat

/-- A qid in C, where `ulong` has 64 bits. -/
structure Cqid where
  path : UInt64
  vers : UInt64
  type : UInt8

def Cqid.qid (q : Cqid) : Qid := ⟨q.path.toNat, q.vers.toNat, q.type.toNat⟩

/-- The C structure `Fcall`; its type selects the fields that a message has. -/
structure Cfcall where
  type : UInt8
  fid : UInt32
  tag : UInt16
  msize : UInt32
  version : Option Cstr
  oldtag : UInt16
  ename : Option Cstr
  qid : Cqid
  iounit : UInt32
  aqid : Cqid
  afid : UInt32
  uname : Option Cstr
  aname : Option Cstr
  perm : UInt32
  name : Option Cstr
  mode : UInt8
  newfid : UInt32
  nwname : UInt16
  wname : Nat → Option Cstr
  nwqid : UInt16
  wqid : Nat → Cqid
  offset : UInt64
  count : UInt32
  data : Nat → UInt8
  nstat : UInt16
  stat : Nat → UInt8

def memory (p : Nat → UInt8) (n : Nat) : Bytes := (List.range n).map fun i => (p i).toNat

def Cfcall.names (f : Cfcall) : List Bytes := (List.range f.nwname.toNat).map fun i => text (f.wname i)

def Cfcall.qids (f : Cfcall) : List Cqid := (List.range f.nwqid.toNat).map f.wqid

/-! ### The cases of the switch -/

inductive Case where
  | version
  | flush
  | auth
  | attach
  | walk
  | «open»
  | create
  | read
  | write
  | fid
  | wstat
  | error
  | none
  | rauth
  | rattach
  | rwalk
  | ropen
  | rread
  | rwrite
  | rstat
deriving DecidableEq, Repr

def switch (type : Nat) : Option Case :=
  if type = Tversion ∨ type = Rversion then some .version
  else if type = Tflush then some .flush
  else if type = Tauth then some .auth
  else if type = Tattach then some .attach
  else if type = Twalk then some .walk
  else if type = Topen then some .«open»
  else if type = Tcreate then some .create
  else if type = Tread then some .read
  else if type = Twrite then some .write
  else if type = Tclunk ∨ type = Tremove ∨ type = Tstat then some .fid
  else if type = Twstat then some .wstat
  else if type = Rerror then some .error
  else if type = Rflush ∨ type = Rclunk ∨ type = Rremove ∨ type = Rwstat then some .none
  else if type = Rauth then some .rauth
  else if type = Rattach then some .rattach
  else if type = Rwalk then some .rwalk
  else if type = Ropen ∨ type = Rcreate then some .ropen
  else if type = Rread then some .rread
  else if type = Rwrite then some .rwrite
  else if type = Rstat then some .rstat
  else none

/-! ### Sizes -/

/-- A `uint` has 32 bits. -/
def uint (n : Nat) : Nat := n % 4294967296

def stringsz (s : Bytes) : Nat := uint (2 + s.length)

/-- The sizes of the fields when a string has the given size. -/
def sizecase (stringsz : Bytes → Nat) (f : Cfcall) : Case → Nat
  | .version => 4 + stringsz (text f.version)
  | .flush => 2
  | .auth => 4 + (stringsz (text f.uname) + stringsz (text f.aname))
  | .attach => 4 + (4 + (stringsz (text f.uname) + stringsz (text f.aname)))
  | .walk => 4 + (4 + (2 + (f.names.map stringsz).sum))
  | .«open» => 4 + 1
  | .create => 4 + (stringsz (text f.name) + (4 + 1))
  | .read => 4 + (8 + 4)
  | .write => 4 + (8 + (4 + f.count.toNat))
  | .fid => 4
  | .wstat => 4 + (2 + f.nstat.toNat)
  | .error => stringsz (text f.ename)
  | .none => 0
  | .rauth => 13
  | .rattach => 13
  | .rwalk => 2 + f.nwqid.toNat * 13
  | .ropen => 13 + 4
  | .rread => 4 + f.count.toNat
  | .rwrite => 4
  | .rstat => 2 + f.nstat.toNat

def sizeS2M (f : Cfcall) : Nat :=
  match switch f.type.toNat with
  | none => 0
  | some c => uint (4 + 1 + 2 + sizecase stringsz f c)

/-! ### Packing -/

/-- The count and the string; both go by the length as a `uint`. -/
def cpstring (s : Bytes) : Bytes := le 2 (uint s.length) ++ s.take (uint s.length)

def cpqid (q : Cqid) : Bytes := le 1 q.type.toNat ++ (le 4 q.vers.toNat ++ le 8 q.path.toNat)

/-- What the switch of `convS2M` writes. The names of a walk that has too many of them are not
written. -/
def writecase (f : Cfcall) : Case → Option Bytes
  | .version => some (le 4 f.msize.toNat ++ cpstring (text f.version))
  | .flush => some (le 2 f.oldtag.toNat)
  | .auth => some (le 4 f.afid.toNat ++ (cpstring (text f.uname) ++ cpstring (text f.aname)))
  | .attach =>
    some (le 4 f.fid.toNat ++ (le 4 f.afid.toNat ++
      (cpstring (text f.uname) ++ cpstring (text f.aname))))
  | .walk =>
    if MAXWELEM < f.nwname.toNat then none
    else some (le 4 f.fid.toNat ++ (le 4 f.newfid.toNat ++
      (le 2 f.nwname.toNat ++ f.names.flatMap cpstring)))
  | .«open» => some (le 4 f.fid.toNat ++ le 1 f.mode.toNat)
  | .create =>
    some (le 4 f.fid.toNat ++ (cpstring (text f.name) ++ (le 4 f.perm.toNat ++ le 1 f.mode.toNat)))
  | .read => some (le 4 f.fid.toNat ++ (le 8 f.offset.toNat ++ le 4 f.count.toNat))
  | .write =>
    some (le 4 f.fid.toNat ++ (le 8 f.offset.toNat ++
      (le 4 f.count.toNat ++ memory f.data f.count.toNat)))
  | .fid => some (le 4 f.fid.toNat)
  | .wstat => some (le 4 f.fid.toNat ++ (le 2 f.nstat.toNat ++ memory f.stat f.nstat.toNat))
  | .error => some (cpstring (text f.ename))
  | .none => some []
  | .rauth => some (cpqid f.aqid)
  | .rattach => some (cpqid f.qid)
  | .rwalk =>
    if MAXWELEM < f.nwqid.toNat then none
    else some (le 2 f.nwqid.toNat ++ f.qids.flatMap cpqid)
  | .ropen => some (cpqid f.qid ++ le 4 f.iounit.toNat)
  | .rread => some (le 4 f.count.toNat ++ memory f.data f.count.toNat)
  | .rwrite => some (le 4 f.count.toNat)
  | .rstat => some (le 2 f.nstat.toNat ++ memory f.stat f.nstat.toNat)

/-- The bytes written into a buffer of `nap` bytes; `none` is the result 0. -/
def convS2M (f : Cfcall) (nap : Nat) : Option Bytes := do
  let size := sizeS2M f
  if size = 0 then none
  else if nap < size then none
  else do
    let c ← switch f.type.toNat
    let fields ← writecase f c
    let p := le 4 size ++ (le 1 f.type.toNat ++ (le 2 f.tag.toNat ++ fields))
    if size ≠ p.length then none else return p

end Infernode.Lib9
