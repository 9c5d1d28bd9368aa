import Infernode.Styx.Pack
import Infernode.Table.Buckets

/-!
The file server library `appl/lib/styxservers.b`, with `compatible` of
`appl/lib/styx.b`. A handler takes the server and a message, and returns the server
after it, the fid that the source returns, and the reply that is written. `none` is an
exception, an exit, or a loop that does not end within the fuel.

Owns: `Fid`, `Navigator`, `Styxserver` with its fid table and its handlers, `openok`,
`openmode`, and the handling of a create and of a remove that the manual prescribes to
an application with `cancreate` and `canremove`.

Does not own: reading messages from the connection, the data of files, and the
application data of a fid beyond its copy.
-/

namespace Infernode.Styx

open Text Wire

def Einuse : Str := str "fid already in use"
def Ebadfid : Str := str "bad fid"
def Eopen : Str := str "fid already opened"
def Enotdir : Str := str "not a directory"
def Eperm : Str := str "permission denied"
def Ebadarg : Str := str "bad argument"
def Eexists : Str := str "file already exists"
def Eoffset : Str := str "read/write -- bad offset"
def Ecount : Str := str "read/write -- count negative or exceeds msgsize"
def Enotopen : Str := str "read/write -- on non open fid"
def Eaccess : Str := str "read/write -- not open in suitable mode"
def Ename : Str := str "bad character in file name"
def Edot : Str := str ". and .. are illegal names"

def CHANHASHSIZE : Nat := 32
def DIRREADSIZE : Nat := STATFIXLEN + 4 * 20

/-- The value of an `int` for a number: its low 32 bits with their sign. -/
def toint (n : Int) : Int := Int.bmod n 4294967296

structure Fid where
  fid : Nat
  path : Nat
  qtype : Nat
  isopen : Bool
  mode : Nat
  doffset : Int × Nat
  uname : Str
  param : Str
  data : Bytes
deriving DecidableEq, Repr

/-- The number of `c` stays, the other values come from `oc`. -/
def Fid.clone (oc c : Fid) : Fid := { oc with fid := c.fid }

def Fid.walk (c : Fid) (qid : Qid) : Fid := { c with path := qid.path, qtype := qid.qtype }

def Fid.open (c : Fid) (mode : Nat) (qid : Qid) : Fid :=
  { c with isopen := true, mode := mode, doffset := (0, 0), path := qid.path, qtype := qid.qtype }

/-- What a file server answers, with a state that its answers may depend on and change:
the navigator, and the application that creates and removes files. A directory that is
`none` comes with an error. -/
structure Navigator (σ : Type) where
  stat : σ → Nat → (Option Dir × Str) × σ
  walk : σ → Nat → Str → (Option Dir × Str) × σ
  readdir : σ → Nat → Nat → Nat → List Dir × σ
  create : σ → Fid → Dir → (Option Qid × Str) × σ
  remove : σ → Fid → Option Str × σ

structure Styxserver (σ : Type) where
  fids : Buckets.Table Fid
  msize : Int
  t : σ

def Styxserver.new {σ : Type} (t : σ) : Styxserver σ := ⟨fun _ => [], 0, t⟩

/-- The state after a message, the fid that the handler returns, and the reply. -/
structure Handled (σ : Type) where
  srv : Styxserver σ
  fid : Option Fid
  reply : Rmsg

/-! ### Permissions -/

def openmode (o : Nat) : Option Nat :=
  let o := o &&& (4294967295 - (OTRUNC + ORCLOSE))
  if ORDWR < o then none else some o

def access (mode : Nat) : Nat :=
  if mode = 0 then 0o400 else if mode = 1 then 0o200 else if mode = 2 then 0o600 else 0o100

def openok (uname : Str) (omode perm : Nat) (fuid fgid : Str) : Bool :=
  let t := access (omode &&& 3)
  if omode &&& OTRUNC ≠ 0 ∧ perm &&& DMDIR ≠ 0 then false
  else
    let t := if omode &&& OTRUNC ≠ 0 then t ||| 0o200 else t
    (uname == fuid && t &&& perm == t) || (uname == fgid && t &&& perm <<< 3 == t) ||
      t &&& perm <<< 6 == t

/-! ### The table -/

section Table

variable {σ : Type}

def Styxserver.getfid (srv : Styxserver σ) (fid : Nat) : Option Fid :=
  Buckets.get Fid.fid CHANHASHSIZE srv.fids fid

def Styxserver.delfid (srv : Styxserver σ) (c : Fid) : Styxserver σ :=
  { srv with fids := Buckets.erase Fid.fid CHANHASHSIZE srv.fids c.fid }

def Styxserver.newfid (srv : Styxserver σ) (fid : Nat) : Option (Styxserver σ × Fid) :=
  match srv.getfid fid with
  | some _ => none
  | none =>
    let c : Fid := ⟨fid, 18446744073709551615, 0, false, 0, (0, 0), [], [], []⟩
    some ({ srv with fids := Buckets.insert Fid.fid CHANHASHSIZE srv.fids c }, c)

def Styxserver.setfid (srv : Styxserver σ) (c : Fid) : Styxserver σ :=
  { srv with fids := Buckets.set Fid.fid CHANHASHSIZE srv.fids c }

/-! ### Replies -/

def Styxserver.replydirect (srv : Styxserver σ) (m : Rmsg) : Option Rmsg := do
  let m := if srv.msize = 0 then ⟨m.tag, .error (str "Tversion not seen")⟩ else m
  let d ← m.pack
  if srv.msize ≠ 0 ∧ srv.msize < d.length then
    let m : Rmsg := ⟨m.tag, .error (str "Styx reply didn't fit")⟩
    let _ ← m.pack
    return m
  else return m

def Styxserver.reply (srv : Styxserver σ) (fid : Option Fid) (m : Rmsg) : Option (Handled σ) :=
  (srv.replydirect m).map fun m => ⟨srv, fid, m⟩

def Styxserver.error (srv : Styxserver σ) (tag : Nat) (msg : Str) : Option (Handled σ) :=
  srv.reply none ⟨tag, .error msg⟩

def Styxserver.iounit (srv : Styxserver σ) : Nat :=
  let n := srv.msize - IOHDRSZ
  if n ≤ 0 then 0 else n.toNat

end Table

/-! ### Handlers -/

section Handlers

variable {σ : Type} (nav : Navigator σ)

def Styxserver.attach (srv : Styxserver σ) (rootpath tag fid : Nat) (uname aname : Str) :
    Option (Handled σ) :=
  let ((d, err), t) := nav.stat srv.t rootpath
  let srv := { srv with t := t }
  match d with
  | none => srv.error tag err
  | some d =>
    if d.qid.qtype &&& QTDIR = 0 then srv.error tag Enotdir
    else
      match srv.newfid fid with
      | none => srv.error tag Einuse
      | some (srv, c) =>
        let c := { c with uname := uname, param := aname, path := d.qid.path, qtype := d.qid.qtype }
        (srv.setfid c).reply (some c) ⟨tag, .attach d.qid⟩

def walk1 (t : σ) (c : Fid) (name : Str) : (Option Dir × Str) × σ :=
  let ((d, err), t) := nav.stat t c.path
  match d with
  | none => ((none, err), t)
  | some d =>
    if d.qid.qtype &&& QTDIR = 0 then ((none, Enotdir), t)
    else if openok c.uname OEXEC d.mode d.uid d.gid = false then ((none, Eperm), t)
    else
      let ((d, err), t) := nav.walk t d.qid.path name
      match d with
      | none => ((none, err), t)
      | some d => ((some d, []), t)

def walknames (srv : Styxserver σ) (c : Fid) : List Str → Styxserver σ × Fid × List Qid × Option Str
  | [] => (srv, c, [], none)
  | name :: names =>
    let ((d, err), t) := walk1 nav srv.t c name
    let srv := { srv with t := t }
    match d with
    | none => (srv, c, [], some err)
    | some d =>
      let c := c.walk d.qid
      let (srv, c, qids, err) := walknames (srv.setfid c) c names
      (srv, c, d.qid :: qids, err)

def Styxserver.walk (srv : Styxserver σ) (tag fid newfid : Nat) (names : List Str) :
    Option (Handled σ) :=
  match srv.getfid fid with
  | none => srv.error tag Ebadfid
  | some c =>
    if c.isopen then srv.error tag Eopen
    else
      let start : Option (Styxserver σ × Fid) :=
        if newfid ≠ fid then
          (srv.newfid newfid).map fun (srv, nc) => (srv.setfid (c.clone nc), c.clone nc)
        else some (srv, c)
      match start with
      | none => srv.error tag Einuse
      | some (srv, c) =>
        let (srv, walked, qids, err) := walknames nav srv c names
        match err with
        | none => srv.reply (some walked) ⟨tag, .walk qids⟩
        | some err =>
          let restored := { walked with path := c.path, qtype := c.qtype }
          let srv := srv.setfid restored
          let srv := if newfid ≠ fid then srv.delfid restored else srv
          if qids = [] then srv.error tag err else srv.reply none ⟨tag, .walk qids⟩

def Styxserver.canopen (srv : Styxserver σ) (fid omode : Nat) :
    Except Str (Fid × Nat × Dir) × Styxserver σ :=
  match srv.getfid fid with
  | none => (.error Ebadfid, srv)
  | some c =>
    if c.isopen then (.error Eopen, srv)
    else
      let ((f, err), t) := nav.stat srv.t c.path
      let srv := { srv with t := t }
      match f with
      | none => (.error err, srv)
      | some f =>
        match openmode omode with
        | none => (.error Ebadarg, srv)
        | some mode =>
          if mode ≠ OREAD ∧ f.qid.qtype &&& QTDIR ≠ 0 then (.error Eperm, srv)
          else if openok c.uname omode f.mode f.uid f.gid = false then (.error Eperm, srv)
          else if omode &&& ORCLOSE ≠ 0 then
            let ((dir, _), t) := nav.walk srv.t c.path (str "..")
            let srv := { srv with t := t }
            match dir with
            | none => (.error Eperm, srv)
            | some dir =>
              if (dir.qid.path = f.qid.path ∧ dir.qid.qtype = f.qid.qtype) ∨
                  openok c.uname OWRITE dir.mode dir.uid dir.gid = false then
                (.error Eperm, srv)
              else (.ok (c, mode ||| ORCLOSE, f), srv)
          else (.ok (c, mode, f), srv)

def Styxserver.open (srv : Styxserver σ) (tag fid omode : Nat) : Option (Handled σ) :=
  match srv.canopen nav fid omode with
  | (.error err, srv) => srv.error tag err
  | (.ok (c, mode, f), srv) =>
    let c := c.open mode f.qid
    (srv.setfid c).reply (some c) ⟨tag, .«open» f.qid srv.iounit⟩

def Styxserver.cancreate (srv : Styxserver σ) (fid : Nat) (name : Str) (perm omode : Nat) :
    Except Str (Fid × Nat × Dir) × Styxserver σ :=
  match srv.getfid fid with
  | none => (.error Ebadfid, srv)
  | some c =>
    if c.isopen then (.error Eopen, srv)
    else
      let ((d, err), t) := nav.stat srv.t c.path
      let srv := { srv with t := t }
      match d with
      | none => (.error err, srv)
      | some d =>
        if d.mode &&& DMDIR = 0 then (.error Enotdir, srv)
        else if name = [] then (.error Ename, srv)
        else if name = str "." ∨ name = str ".." then (.error Edot, srv)
        else if openok c.uname OWRITE d.mode d.uid d.gid = false then (.error Eperm, srv)
        else
          let ((there, _), t) := nav.walk srv.t d.qid.path name
          let srv := { srv with t := t }
          match there, openmode omode with
          | some _, _ => (.error Eexists, srv)
          | none, none => (.error Ebadarg, srv)
          | none, some mode =>
            let isdir := perm &&& DMDIR ≠ 0
            let bits := if isdir then 0o777 else 0o666
            let f : Dir :=
              { zerodir with
                mode := perm &&& (4294967295 - bits ||| d.mode &&& bits)
                qid := ⟨0, 0, if isdir then QTDIR else QTFILE⟩
                name := name
                uid := c.uname
                muid := c.uname
                gid := d.gid
                dtype := d.dtype
                dev := d.dev }
            (.ok (c, mode ||| (omode &&& ORCLOSE), f), srv)

def Styxserver.create (srv : Styxserver σ) (tag fid : Nat) (name : Str) (perm omode : Nat) :
    Option (Handled σ) :=
  match srv.cancreate nav fid name perm omode with
  | (.error err, srv) => srv.error tag err
  | (.ok (c, mode, f), srv) =>
    let ((qid, err), t) := nav.create srv.t c f
    let srv := { srv with t := t }
    match qid with
    | none => srv.error tag err
    | some qid =>
      let c := c.open mode qid
      (srv.setfid c).reply (some c) ⟨tag, .create qid srv.iounit⟩

def Styxserver.canread (srv : Styxserver σ) (fid offset count : Nat) : Except Str Fid :=
  match srv.getfid fid with
  | none => .error Ebadfid
  | some c =>
    if c.isopen = false then .error Enotopen
    else if c.mode &&& 3 ≠ OREAD ∧ c.mode &&& 3 ≠ ORDWR then .error Eaccess
    else if toint count < 0 ∨ srv.msize - IOHDRSZ < toint count then .error Ecount
    else if 9223372036854775808 ≤ offset then .error Eoffset
    else .ok c

def Styxserver.canwrite (srv : Styxserver σ) (fid offset : Nat) : Except Str Fid :=
  match srv.getfid fid with
  | none => .error Ebadfid
  | some c =>
    if c.isopen = false then .error Enotopen
    else if c.qtype &&& QTDIR ≠ 0 then .error Eperm
    else if c.mode &&& 3 ≠ OWRITE ∧ c.mode &&& 3 ≠ ORDWR then .error Eaccess
    else if 9223372036854775808 ≤ offset then .error Eoffset
    else .ok c

/-- Where the loop over the directory stands. -/
structure Reading where
  offset : Int
  index : Nat
  count : Int
  p : Nat
  a : Bytes

/-- The entries of one chunk; the flag says that one did not fit. -/
def readentries (moffset : Int) (r : Reading) : List Dir → Option (Bool × Reading)
  | [] => some (false, r)
  | d :: ds =>
    let size : Int := toint (packdirsize d)
    let r : Reading := { r with offset := toint (r.offset + size), index := r.index + 1 }
    if r.offset < moffset then readentries moffset r ds
    else
      let r : Reading := { r with count := r.count - size }
      if r.count < 0 then some (true, { r with offset := toint (r.offset - size), index := r.index - 1 })
      else do
        let de ← packdir d
        let a ← put r.a r.p de
        readentries moffset { r with a := a, p := r.p + size.toNat } ds

def readchunks (path : Nat) (moffset : Int) : Nat → σ → Reading → Option (Reading × σ)
  | 0, _, _ => none
  | fuel + 1, t, r =>
    let chunk := (r.count.toNat + DIRREADSIZE - 1) / DIRREADSIZE
    let (d, t) := nav.readdir t path r.index chunk
    match d.take chunk with
    | [] => some (r, t)
    | ds => do
        let (full, r) ← readentries moffset r ds
        if full then return (r, t) else readchunks path moffset fuel t r

def Styxserver.read (srv : Styxserver σ) (fuel tag fid offset count : Nat) : Option (Handled σ) :=
  match srv.canread fid offset count with
  | .error err => srv.error tag err
  | .ok c =>
    if c.qtype &&& QTDIR = 0 then srv.error tag Eperm
    else if toint count ≤ 0 then srv.reply (some c) ⟨tag, .read []⟩
    else
      let start := if toint offset ≠ c.doffset.1 then (0, 0) else c.doffset
      match readchunks nav c.path (toint offset) fuel srv.t
          ⟨start.1, start.2, toint count, 0, List.replicate (toint count).toNat 0⟩ with
      | none => none
      | some (r, t) =>
        let c := { c with doffset := (r.offset, r.index) }
        let srv := { srv with t := t }
        (srv.setfid c).reply (some c) ⟨tag, .read (r.a.take r.p)⟩

def Styxserver.stat (srv : Styxserver σ) (tag fid : Nat) : Option (Handled σ) :=
  match srv.getfid fid with
  | none => srv.error tag Ebadfid
  | some c =>
    let ((d, err), t) := nav.stat srv.t c.path
    let srv := { srv with t := t }
    match d with
    | none => srv.error tag err
    | some d => srv.reply none ⟨tag, .stat d⟩

def Styxserver.canremove (srv : Styxserver σ) (fid : Nat) :
    Except Str (Fid × Nat) × Styxserver σ :=
  match srv.getfid fid with
  | none => (.error Ebadfid, srv)
  | some c =>
    let ((dir, _), t) := nav.walk srv.t c.path (str "..")
    let srv := { srv with t := t }
    match dir with
    | none => (.error (str "can't find parent directory"), srv)
    | some dir =>
      if (dir.qid.path = c.path ∧ dir.qid.qtype = c.qtype) ∨
          openok c.uname OWRITE dir.mode dir.uid dir.gid = false then (.error Eperm, srv)
      else (.ok (c, dir.qid.path), srv)

/-- A remove that is refused whatever the file, and always clunks the fid. -/
def Styxserver.remove (srv : Styxserver σ) (tag fid : Nat) : Option (Handled σ) :=
  match srv.getfid fid with
  | none => srv.error tag Ebadfid
  | some c => (srv.delfid c).reply (some c) ⟨tag, .error Eperm⟩

def Styxserver.doremove (srv : Styxserver σ) (tag fid : Nat) : Option (Handled σ) :=
  let (able, srv) := srv.canremove nav fid
  let (err, srv) : Option Str × Styxserver σ :=
    match able with
    | .error err => (some err, srv)
    | .ok (c, _) =>
      let (err, t) := nav.remove srv.t c
      (err, { srv with t := t })
  let srv :=
    match srv.getfid fid with
    | none => srv
    | some c => srv.delfid c
  match err with
  | some err => srv.error tag err
  | none => srv.reply none ⟨tag, .remove⟩

def Styxserver.clunk (srv : Styxserver σ) (tag fid : Nat) : Option (Handled σ) :=
  match srv.getfid fid with
  | none => srv.error tag Ebadfid
  | some c => (srv.delfid c).reply (some c) ⟨tag, .clunk⟩

/-- The digits of a version, up to its first period; another character ends it as
unknown. -/
def versiondigits : Str → Option Str
  | [] => some []
  | c :: v =>
    if c = 46 then some []
    else if c < 48 ∨ 57 < c then none
    else (versiondigits v).map (c :: ·)

/-- The message size and the version for a request, `compatible` of `styx.b`. -/
def compatible (tmsize : Nat) (tversion : Str) (msize : Int) (version : Str) : Int × Str :=
  let version := if version = [] then VERSION else version
  let msize := if toint tmsize < msize then toint tmsize else msize
  if tversion.length < 2 ∨ tversion.take 2 ≠ str "9P" then (msize, str "unknown")
  else
    match versiondigits (tversion.drop 2) with
    | none => (msize, str "unknown")
    | some digits =>
      let v := tversion.take 2 ++ digits
      if v < VERSION then (msize, str "unknown")
      else if v < version then (msize, v) else (msize, version)

def Styxserver.version (srv : Styxserver σ) (tag tmsize : Nat) (tversion : Str) :
    Option (Handled σ) :=
  let srv := { srv with msize := if srv.msize ≤ 0 then MAXRPC else srv.msize }
  let (msize, version) := compatible tmsize tversion srv.msize VERSION
  if msize < 256 then srv.error tag (str "message size too small")
  else { srv with msize := msize }.reply none ⟨tag, .version msize.toNat version⟩

def Styxserver.default (srv : Styxserver σ) (rootpath fuel : Nat) (gm : Tmsg) : Option (Handled σ) :=
  match gm.pick with
  | .readerror _ => none
  | .version msize version => srv.version gm.tag msize version
  | .auth _ _ _ => srv.error gm.tag (str "authentication not required")
  | .flush _ => srv.reply none ⟨gm.tag, .flush⟩
  | .walk fid newfid names => srv.walk nav gm.tag fid newfid names
  | .«open» fid mode => srv.open nav gm.tag fid mode
  | .create _ _ _ _ => srv.error gm.tag Eperm
  | .read fid offset count => srv.read nav fuel gm.tag fid offset count
  | .write _ _ _ => srv.error gm.tag Eperm
  | .clunk fid => srv.clunk gm.tag fid
  | .stat fid => srv.stat nav gm.tag fid
  | .remove fid => srv.remove gm.tag fid
  | .wstat _ _ => srv.error gm.tag Eperm
  | .attach fid _ uname aname => srv.attach nav rootpath gm.tag fid uname aname

/-- A message is left to the library, or is a create or a remove that the application
handles. -/
inductive Handler where
  | library
  | application

def Styxserver.handle (srv : Styxserver σ) (rootpath fuel : Nat) (who : Handler) (gm : Tmsg) :
    Option (Handled σ) :=
  match who, gm.pick with
  | .application, .create fid name perm mode => srv.create nav gm.tag fid name perm mode
  | .application, .remove fid => srv.doremove nav gm.tag fid
  | _, _ => srv.default nav rootpath fuel gm

end Handlers

end Infernode.Styx
