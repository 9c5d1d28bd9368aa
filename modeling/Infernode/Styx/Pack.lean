import Infernode.Codec.Wire
import Infernode.Styx.Message

/-!
Packing messages, `appl/lib/styx.b`. A message is written into an array of its
packed size, field after field at the offsets of the source; a write outside the
array raises an exception, which is `none`.

Owns: `pqid`, `pstring`, `p32`, `p64`, `packdir`, `Tmsg.pack` and `Rmsg.pack`.
-/

namespace Infernode.Styx

open Text Lib9 Wire

/-- A new array; a negative size raises an exception. -/
def newarray (size : Nat) : Option Bytes :=
  if size < 2147483648 then some (List.replicate size 0) else none

def p32 (a : Bytes) (o v : Nat) : Option Bytes := put a o (le 4 v)

def p64 (a : Bytes) (o v : Nat) : Option Bytes := put a o (le 8 v)

def pqid (a : Bytes) (o : Nat) (q : Qid) : Option Bytes := do
  let a ← put a o (le 1 q.qtype)
  let a ← put a (o + 1) (le 4 q.vers)
  put a (o + 5) (le 8 q.path)

/-- The array with the string in it, and the offset behind it. -/
def pstring (a : Bytes) (o : Nat) (s : Str) : Option (Bytes × Nat) := do
  let sa := cvtca s
  let a ← put a o (le 2 sa.length)
  let a ← put a (o + 2) sa
  return (a, o + 2 + sa.length)

def packdir (f : Dir) : Option Bytes := do
  let ds := packdirsize f
  let a ← newarray ds
  let a ← put a 0 (le 2 (ds + 4294967296 - 2))
  let a ← put a 2 (le 2 f.dtype)
  let a ← put a 4 (le 4 f.dev)
  let a ← pqid a 8 f.qid
  let a ← put a 21 (le 4 f.mode)
  let a ← put a 25 (le 4 f.atime)
  let a ← put a 29 (le 4 f.mtime)
  let a ← p64 a 33 f.length
  let (a, i) ← pstring a 41 f.name
  let (a, i) ← pstring a i f.uid
  let (a, i) ← pstring a i f.gid
  let (a, i) ← pstring a i f.muid
  if i ≠ a.length then none else return a

def packheader (ds mtype tag : Nat) : Option Bytes := do
  let d ← newarray ds
  let d ← put d 0 (le 4 ds)
  let d ← put d 4 (le 1 mtype)
  put d 5 (le 2 tag)

def pnames (d : Bytes) (o : Nat) : List Str → Option Bytes
  | [] => some d
  | name :: names => do
      let (d, o) ← pstring d o name
      pnames d o names

def TPick.pack (d : Bytes) : TPick → Option Bytes
  | .readerror _ => none
  | .version msize v => do
      let d ← p32 d H msize
      let (d, _) ← pstring d (H + 4) v
      return d
  | .auth afid uname aname => do
      let d ← p32 d H afid
      let (d, o) ← pstring d (H + 4) uname
      let (d, _) ← pstring d o aname
      return d
  | .flush oldtag => put d H (le 2 oldtag)
  | .attach fid afid uname aname => do
      let d ← p32 d H fid
      let d ← p32 d (H + 4) afid
      let (d, o) ← pstring d (H + 2 * 4) uname
      let (d, _) ← pstring d o aname
      return d
  | .walk fid newfid names => do
      let d ← put d H (le 4 fid)
      let d ← put d (H + 4) (le 4 newfid)
      let d ← put d (H + 2 * 4) (le 2 names.length)
      pnames d (H + 2 * 4 + 2) names
  | .«open» fid mode => do
      let d ← p32 d H fid
      put d (H + 4) (le 1 mode)
  | .create fid name perm mode => do
      let d ← p32 d H fid
      let (d, o) ← pstring d (H + 4) name
      let d ← p32 d o perm
      put d (o + 4) (le 1 mode)
  | .read fid offset count => do
      let d ← p32 d H fid
      let d ← p64 d (H + 4) offset
      p32 d (H + 4 + 8) count
  | .write fid offset data => do
      let d ← p32 d H fid
      let d ← p64 d (H + 4) offset
      let d ← p32 d (H + 4 + 8) data.length
      put d (H + 4 + 8 + 4) data
  | .clunk fid => p32 d H fid
  | .remove fid => p32 d H fid
  | .stat fid => p32 d H fid
  | .wstat fid dir => do
      let d ← p32 d H fid
      let stat ← packdir dir
      let d ← put d (H + 4) (le 2 stat.length)
      put d (H + 4 + 2) stat

/-- A message without bytes packs to the empty array. -/
def Tmsg.pack (t : Tmsg) : Option Bytes :=
  let ds := t.packedsize
  if ds = 0 ∨ 2147483648 ≤ ds then some []
  else (packheader ds t.mtype t.tag).bind fun d => t.pick.pack d

def pqids (d : Bytes) (o : Nat) : List Qid → Option Bytes
  | [] => some d
  | q :: qids => do
      let d ← pqid d o q
      pqids d (o + 13) qids

def RPick.pack (d : Bytes) : RPick → Option Bytes
  | .readerror _ => none
  | .version msize v => do
      let d ← p32 d H msize
      let (d, _) ← pstring d (H + 4) v
      return d
  | .auth aqid => pqid d H aqid
  | .flush => some d
  | .clunk => some d
  | .remove => some d
  | .wstat => some d
  | .error ename => do
      let (d, _) ← pstring d H ename
      return d
  | .attach qid => pqid d H qid
  | .walk qids => do
      let d ← put d H (le 2 qids.length)
      pqids d (H + 2) qids
  | .create qid iounit => do
      let d ← pqid d H qid
      p32 d (H + 13) iounit
  | .«open» qid iounit => do
      let d ← pqid d H qid
      p32 d (H + 13) iounit
  | .read data => do
      let d ← put d H (le 4 data.length)
      put d (H + 4) data
  | .write count => put d H (le 4 count)
  | .stat dir => do
      let stat ← packdir dir
      let d ← put d H (le 2 stat.length)
      put d (H + 2) stat

def Rmsg.pack (r : Rmsg) : Option Bytes :=
  let ps := r.packedsize
  if ps = 0 ∨ 2147483648 ≤ ps then some []
  else (packheader ps r.mtype r.tag).bind fun d => r.pick.pack d

end Infernode.Styx
