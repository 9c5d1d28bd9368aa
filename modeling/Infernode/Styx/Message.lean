import Infernode.Lib9.Rune

/-!
The messages of the file protocol as `module/styx.m` declares them, and the
functions of `appl/lib/styx.b` on their sizes and versions.

Owns: `Qid`, `Dir`, `Tmsg`, `Rmsg`, the message types, `hdrlen`, `utflen`,
`packdirsize` and `packedsize`. A number field is its bit pattern: an
`int` is a number below `2^32`, negative when its top bit is set.
-/

namespace Infernode.Styx

open Text

def VERSION : Str := str "9P2000"
def MAXWELEM : Nat := 16
def STATFIXLEN : Nat := 49
def IOHDRSZ : Nat := 24
def MAXFDATA : Nat := 8192
def MAXRPC : Nat := IOHDRSZ + MAXFDATA

def QTDIR : Nat := 0x80
def QTFILE : Nat := 0x00
def DMDIR : Nat := 0x80000000

def OREAD : Nat := 0
def OWRITE : Nat := 1
def ORDWR : Nat := 2
def OEXEC : Nat := 3
def OTRUNC : Nat := 16
def ORCLOSE : Nat := 64

structure Qid where
  path : Nat
  vers : Nat
  qtype : Nat
deriving DecidableEq, Repr

structure Dir where
  name : Str
  uid : Str
  gid : Str
  muid : Str
  qid : Qid
  mode : Nat
  atime : Nat
  mtime : Nat
  length : Nat
  dtype : Nat
  dev : Nat
deriving DecidableEq, Repr

def zerodir : Dir := ⟨[], [], [], [], ⟨0, 0, 0⟩, 0, 0, 0, 0, 0, 0⟩

inductive TPick where
  | readerror (error : Str)
  | version (msize : Nat) (version : Str)
  | auth (afid : Nat) (uname aname : Str)
  | attach (fid afid : Nat) (uname aname : Str)
  | flush (oldtag : Nat)
  | walk (fid newfid : Nat) (names : List Str)
  | «open» (fid mode : Nat)
  | create (fid : Nat) (name : Str) (perm mode : Nat)
  | read (fid offset count : Nat)
  | write (fid offset : Nat) (data : List Nat)
  | clunk (fid : Nat)
  | stat (fid : Nat)
  | remove (fid : Nat)
  | wstat (fid : Nat) (stat : Dir)
deriving DecidableEq, Repr

structure Tmsg where
  tag : Nat
  pick : TPick
deriving DecidableEq, Repr

inductive RPick where
  | readerror (error : Str)
  | version (msize : Nat) (version : Str)
  | auth (aqid : Qid)
  | attach (qid : Qid)
  | flush
  | error (ename : Str)
  | clunk
  | remove
  | wstat
  | walk (qids : List Qid)
  | create (qid : Qid) (iounit : Nat)
  | «open» (qid : Qid) (iounit : Nat)
  | read (data : List Nat)
  | write (count : Nat)
  | stat (stat : Dir)
deriving DecidableEq, Repr

structure Rmsg where
  tag : Nat
  pick : RPick
deriving DecidableEq, Repr

/-! ### Types -/

def Tversion : Nat := 100
def Rversion : Nat := 101
def Tauth : Nat := 102
def Rauth : Nat := 103
def Tattach : Nat := 104
def Rattach : Nat := 105
def Terror : Nat := 106
def Rerror : Nat := 107
def Tflush : Nat := 108
def Rflush : Nat := 109
def Twalk : Nat := 110
def Rwalk : Nat := 111
def Topen : Nat := 112
def Ropen : Nat := 113
def Tcreate : Nat := 114
def Rcreate : Nat := 115
def Tread : Nat := 116
def Rread : Nat := 117
def Twrite : Nat := 118
def Rwrite : Nat := 119
def Tclunk : Nat := 120
def Rclunk : Nat := 121
def Tremove : Nat := 122
def Rremove : Nat := 123
def Tstat : Nat := 124
def Rstat : Nat := 125
def Twstat : Nat := 126
def Rwstat : Nat := 127
def Tmax : Nat := 128

def H : Nat := 7

/-- The table `hdrlen`: the length of a message of the type without its variable
parts, 0 where there is no such type. -/
def hdrlen (mtype : Nat) : Nat :=
  if mtype = Tversion ∨ mtype = Rversion then H + 4 + 2
  else if mtype = Tauth then H + 4 + 2 + 2
  else if mtype = Rauth then H + 13
  else if mtype = Rerror then H + 2
  else if mtype = Tflush then H + 2
  else if mtype = Rflush then H
  else if mtype = Tattach then H + 4 + 4 + 2 + 2
  else if mtype = Rattach then H + 13
  else if mtype = Twalk then H + 4 + 4 + 2
  else if mtype = Rwalk then H + 2
  else if mtype = Topen then H + 4 + 1
  else if mtype = Ropen then H + 13 + 4
  else if mtype = Tcreate then H + 4 + 2 + 4 + 1
  else if mtype = Rcreate then H + 13 + 4
  else if mtype = Tread then H + 4 + 8 + 4
  else if mtype = Rread then H + 4
  else if mtype = Twrite then H + 4 + 8 + 4
  else if mtype = Rwrite then H + 4
  else if mtype = Tclunk ∨ mtype = Tremove ∨ mtype = Tstat then H + 4
  else if mtype = Rclunk ∨ mtype = Rremove ∨ mtype = Rwstat then H
  else if mtype = Rstat then H + 2
  else if mtype = Twstat then H + 4 + 2
  else 0

def TPick.mtype : TPick → Nat
  | .readerror _ => 0
  | .version _ _ => Tversion
  | .auth _ _ _ => Tauth
  | .attach _ _ _ _ => Tattach
  | .flush _ => Tflush
  | .walk _ _ _ => Twalk
  | .«open» _ _ => Topen
  | .create _ _ _ _ => Tcreate
  | .read _ _ _ => Tread
  | .write _ _ _ => Twrite
  | .clunk _ => Tclunk
  | .stat _ => Tstat
  | .remove _ => Tremove
  | .wstat _ _ => Twstat

def Tmsg.mtype (t : Tmsg) : Nat := t.pick.mtype

def RPick.mtype : RPick → Nat
  | .readerror _ => 0
  | .version _ _ => Rversion
  | .auth _ => Rauth
  | .attach _ => Rattach
  | .flush => Rflush
  | .error _ => Rerror
  | .clunk => Rclunk
  | .remove => Rremove
  | .wstat => Rwstat
  | .walk _ => Rwalk
  | .create _ _ => Rcreate
  | .«open» _ _ => Ropen
  | .read _ => Rread
  | .write _ => Rwrite
  | .stat _ => Rstat

def Rmsg.mtype (r : Rmsg) : Nat := r.pick.mtype

/-! ### Sizes -/

/-- The sum of an `int` addition, as a pattern. -/
def int32 (n : Nat) : Nat := n % 4294967296

def utflen (s : Str) : Nat :=
  s.length + (s.countP fun c => decide (0x7F < c)) + (s.countP fun c => decide (0x7FF < c))

def packdirsize (d : Dir) : Nat :=
  int32 (STATFIXLEN + utflen d.name + utflen d.uid + utflen d.gid + utflen d.muid)

/-- What the variable parts add to the length of the header. -/
def TPick.varsize : TPick → Nat
  | .version _ v => utflen v
  | .auth _ uname aname => utflen uname + utflen aname
  | .attach _ _ uname aname => utflen uname + utflen aname
  | .walk _ _ names => (names.map fun name => 2 + utflen name).sum
  | .create _ name _ _ => utflen name
  | .write _ _ data => data.length
  | .wstat _ d => packdirsize d
  | _ => 0

def Tmsg.packedsize (t : Tmsg) : Nat :=
  if t.mtype = 0 then 0 else int32 (hdrlen t.mtype + t.pick.varsize)

def RPick.varsize : RPick → Nat
  | .version _ v => utflen v
  | .error e => utflen e
  | .walk qids => 13 * qids.length
  | .read data => data.length
  | .stat d => packdirsize d
  | _ => 0

def Rmsg.packedsize (r : Rmsg) : Nat :=
  if r.mtype = 0 then 0 else int32 (hdrlen r.mtype + r.pick.varsize)

end Infernode.Styx
