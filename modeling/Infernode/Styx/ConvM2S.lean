import Infernode.Codec.Wire
import Infernode.Styx.Message

/-!
Unpacking messages in C, `lib9/convM2S.c`. A pointer into the buffer is the list of
the bytes from it to the end of the buffer; `GBIT8` to `GBIT64` read a number there.

Owns: `Fcall` and `convM2S`. A string or a run of bytes that a field points to is the
list of its bytes.
-/

namespace Infernode.Lib9

open Wire Styx

/-- The fields that a message of some type sets. -/
inductive Fields where
  | version (msize : Nat) (version : Bytes)
  | flush (oldtag : Nat)
  | auth (afid : Nat) (uname aname : Bytes)
  | attach (fid afid : Nat) (uname aname : Bytes)
  | walk (fid newfid : Nat) (wname : List Bytes)
  | «open» (fid mode : Nat)
  | create (fid : Nat) (name : Bytes) (perm mode : Nat)
  | read (fid offset count : Nat)
  | write (fid offset count : Nat) (data : Bytes)
  | fid (fid : Nat)
  | wstat (fid nstat : Nat) (stat : Bytes)
  | error (ename : Bytes)
  | none
  | qid (qid : Qid)
  | rwalk (wqid : List Qid)
  | ropen (qid : Qid) (iounit : Nat)
  | rread (count : Nat) (data : Bytes)
  | rwrite (count : Nat)
  | rstat (nstat : Nat) (stat : Bytes)
deriving DecidableEq, Repr

structure Fcall where
  type : Nat
  tag : Nat
  fields : Fields
deriving DecidableEq, Repr

/-- The string at the pointer, and the pointer behind it. -/
def cgstring (p : Bytes) : Option (Bytes × Bytes) := do
  let (n, p) ← rd 2 p
  take n p

def cgqid (p : Bytes) : Option (Qid × Bytes) := do
  let (qtype, p) ← rd 1 p
  let (vers, p) ← rd 4 p
  let (path, p) ← rd 8 p
  return (⟨path, vers, qtype⟩, p)

def cgnames : Nat → Bytes → Option (List Bytes × Bytes)
  | 0, p => some ([], p)
  | n + 1, p => do
      let (name, p) ← cgstring p
      let (names, p) ← cgnames n p
      return (name :: names, p)

def cgqids : Nat → Bytes → Option (List Qid × Bytes)
  | 0, p => some ([], p)
  | n + 1, p => do
      let (q, p) ← cgqid p
      let (qids, p) ← cgqids n p
      return (q :: qids, p)

def convfields (type : Nat) (p : Bytes) : Option (Fields × Bytes) :=
  if type = Tversion ∨ type = Rversion then do
    let (msize, p) ← rd 4 p
    let (version, p) ← cgstring p
    return (.version msize version, p)
  else if type = Tflush then do
    let (oldtag, p) ← rd 2 p
    return (.flush oldtag, p)
  else if type = Tauth then do
    let (afid, p) ← rd 4 p
    let (uname, p) ← cgstring p
    let (aname, p) ← cgstring p
    return (.auth afid uname aname, p)
  else if type = Tattach then do
    let (fid, p) ← rd 4 p
    let (afid, p) ← rd 4 p
    let (uname, p) ← cgstring p
    let (aname, p) ← cgstring p
    return (.attach fid afid uname aname, p)
  else if type = Twalk then do
    let (fid, p) ← rd 4 p
    let (newfid, p) ← rd 4 p
    let (nwname, p) ← rd 2 p
    if MAXWELEM < nwname then none
    else do
      let (wname, p) ← cgnames nwname p
      return (.walk fid newfid wname, p)
  else if type = Topen then do
    let (fid, p) ← rd 4 p
    let (mode, p) ← rd 1 p
    return (.«open» fid mode, p)
  else if type = Tcreate then do
    let (fid, p) ← rd 4 p
    let (name, p) ← cgstring p
    let (perm, p) ← rd 4 p
    let (mode, p) ← rd 1 p
    return (.create fid name perm mode, p)
  else if type = Tread then do
    let (fid, p) ← rd 4 p
    let (offset, p) ← rd 8 p
    let (count, p) ← rd 4 p
    return (.read fid offset count, p)
  else if type = Twrite then do
    let (fid, p) ← rd 4 p
    let (offset, p) ← rd 8 p
    let (count, p) ← rd 4 p
    let (data, p) ← take count p
    return (.write fid offset count data, p)
  else if type = Tclunk ∨ type = Tremove ∨ type = Tstat then do
    let (fid, p) ← rd 4 p
    return (.fid fid, p)
  else if type = Twstat then do
    let (fid, p) ← rd 4 p
    let (nstat, p) ← rd 2 p
    let (stat, p) ← take nstat p
    return (.wstat fid nstat stat, p)
  else if type = Rerror then do
    let (ename, p) ← cgstring p
    return (.error ename, p)
  else if type = Rflush ∨ type = Rclunk ∨ type = Rremove ∨ type = Rwstat then some (.none, p)
  else if type = Rauth ∨ type = Rattach then do
    let (qid, p) ← cgqid p
    return (.qid qid, p)
  else if type = Rwalk then do
    let (nwqid, p) ← rd 2 p
    if MAXWELEM < nwqid then none
    else do
      let (wqid, p) ← cgqids nwqid p
      return (.rwalk wqid, p)
  else if type = Ropen ∨ type = Rcreate then do
    let (qid, p) ← cgqid p
    let (iounit, p) ← rd 4 p
    return (.ropen qid iounit, p)
  else if type = Rread then do
    let (count, p) ← rd 4 p
    let (data, p) ← take count p
    return (.rread count data, p)
  else if type = Rwrite then do
    let (count, p) ← rd 4 p
    return (.rwrite count, p)
  else if type = Rstat then do
    let (nstat, p) ← rd 2 p
    let (stat, p) ← take nstat p
    return (.rstat nstat stat, p)
  else none

/-- The number of bytes and the message; `none` is the result 0. -/
def convM2S (ap : Bytes) : Option (Nat × Fcall) := do
  let (size, p) ← rd 4 ap
  if size < 4 + 1 + 2 then none
  else do
    let (type, p) ← rd 1 p
    let (tag, p) ← rd 2 p
    let (fields, p) ← convfields type p
    if ap.length = size + p.length then return (size, ⟨type, tag, fields⟩) else none

end Infernode.Lib9
