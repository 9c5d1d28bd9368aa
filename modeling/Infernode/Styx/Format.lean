import Infernode.Styx.ConvM2S

/-!
Contract: the format of messages, apart from any program that packs or unpacks them.

Owns: the bytes of a string, a qid, a stat record and a message, the readers of these
from a byte stream, the ranges of the fields, and the round trip of bytes and readers.
-/

namespace Infernode.Styx

open Text Lib9 Wire Option

/-! ### Ranges -/

/-- A string whose bytes fit a 16-bit count. -/
def Text16 (s : Str) : Prop := Runes s ∧ utflen s < 65536

def Qid.InRange (q : Qid) : Prop := q.path < 2 ^ 64 ∧ q.vers < 2 ^ 32 ∧ q.qtype < 2 ^ 8

def Dir.size (d : Dir) : Nat :=
  STATFIXLEN + utflen d.name + utflen d.uid + utflen d.gid + utflen d.muid

/-- A record whose size fits the 16-bit count in front of it. -/
structure Dir.InRange (d : Dir) : Prop where
  name : Text16 d.name
  uid : Text16 d.uid
  gid : Text16 d.gid
  muid : Text16 d.muid
  qid : d.qid.InRange
  mode : d.mode < 2 ^ 32
  atime : d.atime < 2 ^ 32
  mtime : d.mtime < 2 ^ 32
  length : d.length < 2 ^ 64
  dtype : d.dtype < 2 ^ 16
  dev : d.dev < 2 ^ 32
  size : d.size < 2 ^ 16

def Data (data : Bytes) : Prop := IsBytes data ∧ data.length < 2147483648

def TPick.InRange : TPick → Prop
  | .readerror _ => True
  | .version msize v => msize < 2 ^ 32 ∧ Text16 v
  | .auth afid uname aname => afid < 2 ^ 32 ∧ Text16 uname ∧ Text16 aname
  | .attach fid afid uname aname => fid < 2 ^ 32 ∧ afid < 2 ^ 32 ∧ Text16 uname ∧ Text16 aname
  | .flush oldtag => oldtag < 2 ^ 16
  | .walk fid newfid names =>
    fid < 2 ^ 32 ∧ newfid < 2 ^ 32 ∧ names.length ≤ MAXWELEM ∧ ∀ name ∈ names, Text16 name
  | .«open» fid mode => fid < 2 ^ 32 ∧ mode < 2 ^ 8
  | .create fid name perm mode => fid < 2 ^ 32 ∧ Text16 name ∧ perm < 2 ^ 32 ∧ mode < 2 ^ 8
  | .read fid offset count => fid < 2 ^ 32 ∧ offset < 2 ^ 64 ∧ count < 2 ^ 32
  | .write fid offset data => fid < 2 ^ 32 ∧ offset < 2 ^ 64 ∧ Data data
  | .clunk fid => fid < 2 ^ 32
  | .stat fid => fid < 2 ^ 32
  | .remove fid => fid < 2 ^ 32
  | .wstat fid d => fid < 2 ^ 32 ∧ d.InRange

def Tmsg.InRange (t : Tmsg) : Prop := t.tag < 2 ^ 16 ∧ t.pick.InRange

def RPick.InRange : RPick → Prop
  | .readerror _ => True
  | .version msize v => msize < 2 ^ 32 ∧ Text16 v
  | .auth aqid => aqid.InRange
  | .attach qid => qid.InRange
  | .flush => True
  | .error ename => Text16 ename
  | .clunk => True
  | .remove => True
  | .wstat => True
  | .walk qids => qids.length ≤ MAXWELEM ∧ ∀ q ∈ qids, q.InRange
  | .create qid iounit => qid.InRange ∧ iounit < 2 ^ 32
  | .«open» qid iounit => qid.InRange ∧ iounit < 2 ^ 32
  | .read data => Data data
  | .write count => count < 2 ^ 32
  | .stat d => d.InRange

def Rmsg.InRange (r : Rmsg) : Prop := r.tag < 2 ^ 16 ∧ r.pick.InRange

/-! ### Bytes -/

def wstr (s : Str) : Bytes := le 2 (cvtca s).length ++ cvtca s

def wqid (q : Qid) : Bytes := le 1 q.qtype ++ (le 4 q.vers ++ le 8 q.path)

def wdir (d : Dir) : Bytes :=
  le 2 (d.size - 2) ++ (le 2 d.dtype ++ (le 4 d.dev ++ (wqid d.qid ++ (le 4 d.mode ++
    (le 4 d.atime ++ (le 4 d.mtime ++ (le 8 d.length ++ (wstr d.name ++ (wstr d.uid ++
      (wstr d.gid ++ wstr d.muid))))))))))

def TPick.wire : TPick → Bytes
  | .readerror _ => []
  | .version msize v => le 4 msize ++ wstr v
  | .auth afid uname aname => le 4 afid ++ (wstr uname ++ wstr aname)
  | .attach fid afid uname aname => le 4 fid ++ (le 4 afid ++ (wstr uname ++ wstr aname))
  | .flush oldtag => le 2 oldtag
  | .walk fid newfid names =>
    le 4 fid ++ (le 4 newfid ++ (le 2 names.length ++ names.flatMap wstr))
  | .«open» fid mode => le 4 fid ++ le 1 mode
  | .create fid name perm mode => le 4 fid ++ (wstr name ++ (le 4 perm ++ le 1 mode))
  | .read fid offset count => le 4 fid ++ (le 8 offset ++ le 4 count)
  | .write fid offset data => le 4 fid ++ (le 8 offset ++ (le 4 data.length ++ data))
  | .clunk fid => le 4 fid
  | .stat fid => le 4 fid
  | .remove fid => le 4 fid
  | .wstat fid d => le 4 fid ++ (le 2 d.size ++ wdir d)

def RPick.wire : RPick → Bytes
  | .readerror _ => []
  | .version msize v => le 4 msize ++ wstr v
  | .auth aqid => wqid aqid
  | .attach qid => wqid qid
  | .flush => []
  | .error ename => wstr ename
  | .clunk => []
  | .remove => []
  | .wstat => []
  | .walk qids => le 2 qids.length ++ qids.flatMap wqid
  | .create qid iounit => wqid qid ++ le 4 iounit
  | .«open» qid iounit => wqid qid ++ le 4 iounit
  | .read data => le 4 data.length ++ data
  | .write count => le 4 count
  | .stat d => le 2 d.size ++ wdir d

def wmsg (mtype tag : Nat) (fields : Bytes) : Bytes :=
  le 4 (H + fields.length) ++ (le 1 mtype ++ (le 2 tag ++ fields))

theorem length_wmsg (mtype tag : Nat) (fields : Bytes) :
    (wmsg mtype tag fields).length = H + fields.length := by
  simp only [wmsg, List.length_append, length_le, H]
  omega

/-! ### Readers -/

def rstr (r : Bytes) : Option (Str × Bytes) := do
  let (n, r) ← rd 2 r
  let (bytes, r) ← take n r
  return (c2string bytes, r)

def rqid (r : Bytes) : Option (Qid × Bytes) := do
  let (qtype, r) ← rd 1 r
  let (vers, r) ← rd 4 r
  let (path, r) ← rd 8 r
  return (⟨path, vers, qtype⟩, r)

/-- A stat record, with the number of bytes it takes, which its count must give. -/
def rdir (r : Bytes) : Option (Nat × Dir × Bytes) := do
  let (size, r1) ← rd 2 r
  let (dtype, r2) ← rd 2 r1
  let (dev, r3) ← rd 4 r2
  let (qid, r4) ← rqid r3
  let (mode, r5) ← rd 4 r4
  let (atime, r6) ← rd 4 r5
  let (mtime, r7) ← rd 4 r6
  let (length, r8) ← rd 8 r7
  let (name, r9) ← rstr r8
  let (uid, r10) ← rstr r9
  let (gid, r11) ← rstr r10
  let (muid, r12) ← rstr r11
  if r.length = size + 2 + r12.length then
    return (size + 2, ⟨name, uid, gid, muid, qid, mode, atime, mtime, length, dtype, dev⟩, r12)
  else none

def rstat (r : Bytes) : Option (Dir × Bytes) := do
  let (n, r) ← rd 2 r
  let (size, d, r) ← rdir r
  if size = n then return (d, r) else none

def rnames : Nat → Bytes → Option (List Str × Bytes)
  | 0, r => some ([], r)
  | n + 1, r => do
      let (name, r) ← rstr r
      let (names, r) ← rnames n r
      return (name :: names, r)

def rqids : Nat → Bytes → Option (List Qid × Bytes)
  | 0, r => some ([], r)
  | n + 1, r => do
      let (q, r) ← rqid r
      let (qids, r) ← rqids n r
      return (q :: qids, r)

/-- The fields of a T-message of the type at the front of a stream. -/
def readT (mtype : Nat) (r : Bytes) : Option (TPick × Bytes) :=
  if mtype = Tversion then do
    let (msize, r) ← rd 4 r
    let (v, r) ← rstr r
    return (.version msize v, r)
  else if mtype = Tauth then do
    let (afid, r) ← rd 4 r
    let (uname, r) ← rstr r
    let (aname, r) ← rstr r
    return (.auth afid uname aname, r)
  else if mtype = Tflush then do
    let (oldtag, r) ← rd 2 r
    return (.flush oldtag, r)
  else if mtype = Tattach then do
    let (fid, r) ← rd 4 r
    let (afid, r) ← rd 4 r
    let (uname, r) ← rstr r
    let (aname, r) ← rstr r
    return (.attach fid afid uname aname, r)
  else if mtype = Twalk then do
    let (fid, r) ← rd 4 r
    let (newfid, r) ← rd 4 r
    let (n, r) ← rd 2 r
    if MAXWELEM < n then none
    else do
      let (names, r) ← rnames n r
      return (.walk fid newfid names, r)
  else if mtype = Topen then do
    let (fid, r) ← rd 4 r
    let (mode, r) ← rd 1 r
    return (.«open» fid mode, r)
  else if mtype = Tcreate then do
    let (fid, r) ← rd 4 r
    let (name, r) ← rstr r
    let (perm, r) ← rd 4 r
    let (mode, r) ← rd 1 r
    return (.create fid name perm mode, r)
  else if mtype = Tread then do
    let (fid, r) ← rd 4 r
    let (offset, r) ← rd 8 r
    let (count, r) ← rd 4 r
    return (.read fid offset count, r)
  else if mtype = Twrite then do
    let (fid, r) ← rd 4 r
    let (offset, r) ← rd 8 r
    let (count, r) ← rd 4 r
    let (data, r) ← take count r
    return (.write fid offset data, r)
  else if mtype = Tclunk then do
    let (fid, r) ← rd 4 r
    return (.clunk fid, r)
  else if mtype = Tremove then do
    let (fid, r) ← rd 4 r
    return (.remove fid, r)
  else if mtype = Tstat then do
    let (fid, r) ← rd 4 r
    return (.stat fid, r)
  else if mtype = Twstat then do
    let (fid, r) ← rd 4 r
    let (d, r) ← rstat r
    return (.wstat fid d, r)
  else none

/-- The fields of an R-message of the type at the front of a stream. -/
def readR (mtype : Nat) (r : Bytes) : Option (RPick × Bytes) :=
  if mtype = Rversion then do
    let (msize, r) ← rd 4 r
    let (v, r) ← rstr r
    return (.version msize v, r)
  else if mtype = Rauth then do
    let (aqid, r) ← rqid r
    return (.auth aqid, r)
  else if mtype = Rflush then some (.flush, r)
  else if mtype = Rerror then do
    let (ename, r) ← rstr r
    return (.error ename, r)
  else if mtype = Rclunk then some (.clunk, r)
  else if mtype = Rremove then some (.remove, r)
  else if mtype = Rwstat then some (.wstat, r)
  else if mtype = Rattach then do
    let (qid, r) ← rqid r
    return (.attach qid, r)
  else if mtype = Rwalk then do
    let (n, r) ← rd 2 r
    let (qids, r) ← rqids n r
    return (.walk qids, r)
  else if mtype = Ropen then do
    let (qid, r) ← rqid r
    let (iounit, r) ← rd 4 r
    return (.«open» qid iounit, r)
  else if mtype = Rcreate then do
    let (qid, r) ← rqid r
    let (iounit, r) ← rd 4 r
    return (.create qid iounit, r)
  else if mtype = Rread then do
    let (count, r) ← rd 4 r
    let (data, r) ← take count r
    return (.read data, r)
  else if mtype = Rwrite then do
    let (count, r) ← rd 4 r
    return (.write count, r)
  else if mtype = Rstat then do
    let (d, r) ← rstat r
    return (.stat d, r)
  else none

/-! ### Sizes -/

theorem length_runetochar (c : Nat) :
    (runetochar c).length = 1 + (if 0x7F < c then 1 else 0) + (if 0x7FF < c then 1 else 0) := by
  unfold runetochar
  split_ifs <;> first | rfl | omega

theorem utflen_eq (s : Str) : utflen s = (cvtca s).length := by
  induction s with
  | nil => rfl
  | cons c rest ih =>
    have shape : cvtca (c :: rest) = runetochar c ++ cvtca rest := by simp [cvtca]
    rw [shape, List.length_append, ← ih, length_runetochar]
    simp only [utflen, List.length_cons, List.countP_cons, decide_eq_true_eq]
    omega

variable {s : Str} {r rest : Bytes} {γ : Type} {n : Nat}

theorem Text16.length (text : Text16 s) : (cvtca s).length < 256 ^ 2 := by
  rw [← utflen_eq]
  exact text.2

@[simp] theorem length_wstr (s : Str) : (wstr s).length = 2 + utflen s := by
  rw [wstr, List.length_append, length_le, utflen_eq]

@[simp] theorem length_wqid (q : Qid) : (wqid q).length = 13 := by
  simp [wqid]

theorem length_wdir (d : Dir) : (wdir d).length = d.size := by
  simp only [wdir, List.length_append, length_le, length_wqid, length_wstr, Dir.size, STATFIXLEN]
  omega

theorem Dir.le_size (d : Dir) : STATFIXLEN ≤ d.size := by
  unfold Dir.size
  omega

/-! ### Reading what was written -/

theorem rstr_wstr (text : Text16 s) (rest : Bytes) : rstr (wstr s ++ rest) = some (s, rest) := by
  unfold rstr wstr
  rw [List.append_assoc, rd_le 2 _ text.length]
  simp only [bind_eq_bind, bind_some]
  rw [take_append]
  simp only [bind_some, c2string_cvtca text.1]
  rfl

theorem rqid_wqid {q : Qid} (inRange : q.InRange) (rest : Bytes) :
    rqid (wqid q ++ rest) = some (q, rest) := by
  have ⟨path, vers, qtype⟩ := inRange
  unfold rqid wqid
  rw [List.append_assoc, List.append_assoc, rd_le 1 _ qtype]
  simp only [bind_eq_bind, bind_some]
  rw [rd_le 4 _ vers]
  simp only [bind_some]
  rw [rd_le 8 _ path]
  rfl

theorem rdir_wdir {d : Dir} (inRange : d.InRange) (rest : Bytes) :
    rdir (wdir d ++ rest) = some (d.size, d, rest) := by
  have atLeast := d.le_size
  have size := inRange.size
  have inner : d.size - 2 < 256 ^ 2 := by omega
  have whole : (wdir d ++ rest).length = d.size - 2 + 2 + rest.length := by
    rw [List.length_append, length_wdir]
    unfold STATFIXLEN at atLeast
    omega
  have same : d.size - 2 + 2 = d.size := by
    unfold STATFIXLEN at atLeast
    omega
  unfold rdir
  rw [whole]
  simp only [wdir, List.append_assoc]
  refine andThen (rd_le 2 _ inner) ?_
  refine andThen (rd_le 2 _ inRange.dtype) ?_
  refine andThen (rd_le 4 _ inRange.dev) ?_
  refine andThen (rqid_wqid inRange.qid _) ?_
  refine andThen (rd_le 4 _ inRange.mode) ?_
  refine andThen (rd_le 4 _ inRange.atime) ?_
  refine andThen (rd_le 4 _ inRange.mtime) ?_
  refine andThen (rd_le 8 _ inRange.length) ?_
  refine andThen (rstr_wstr inRange.name _) ?_
  refine andThen (rstr_wstr inRange.uid _) ?_
  refine andThen (rstr_wstr inRange.gid _) ?_
  refine andThen (rstr_wstr inRange.muid _) ?_
  rw [if_pos rfl, same]
  rfl

theorem rstat_wdir {d : Dir} (inRange : d.InRange) (rest : Bytes) :
    rstat (le 2 d.size ++ (wdir d ++ rest)) = some (d, rest) := by
  unfold rstat
  rw [rd_le 2 _ inRange.size]
  simp only [bind_eq_bind, bind_some]
  rw [rdir_wdir inRange]
  simp

theorem rnames_wstr {names : List Str} (texts : ∀ name ∈ names, Text16 name) (rest : Bytes) :
    rnames names.length (names.flatMap wstr ++ rest) = some (names, rest) := by
  induction names with
  | nil => rfl
  | cons name _ ih =>
    have later := ih (List.forall_mem_cons.1 texts).2
    rw [List.length_cons, List.flatMap_cons, List.append_assoc, rnames,
      rstr_wstr (texts name (by simp))]
    simp only [bind_eq_bind, bind_some]
    rw [later]
    rfl

theorem rqids_wqid {qids : List Qid} (inRange : ∀ q ∈ qids, q.InRange) (rest : Bytes) :
    rqids qids.length (qids.flatMap wqid ++ rest) = some (qids, rest) := by
  induction qids with
  | nil => rfl
  | cons q _ ih =>
    have later := ih (List.forall_mem_cons.1 inRange).2
    rw [List.length_cons, List.flatMap_cons, List.append_assoc, rqids,
      rqid_wqid (inRange q (by simp))]
    simp only [bind_eq_bind, bind_some]
    rw [later]
    rfl

section Messages

attribute [local irreducible] rd le Wire.take rstr rqid rstat rnames rqids wstr wqid wdir

/-- The fields of a message are read back from its bytes. -/
theorem readT_wire {pick : TPick} (inRange : pick.InRange) (real : pick.mtype ≠ 0) (rest : Bytes) :
    readT pick.mtype (pick.wire ++ rest) = some (pick, rest) := by
  cases pick with
  | readerror _ => exact absurd rfl real
  | version _ _ =>
    simp only [TPick.wire, List.append_assoc]
    exact andThen (rd_le 4 _ inRange.1) (andThen (rstr_wstr inRange.2 _) rfl)
  | auth _ _ _ =>
    simp only [TPick.wire, List.append_assoc]
    exact andThen (rd_le 4 _ inRange.1) (andThen (rstr_wstr inRange.2.1 _)
      (andThen (rstr_wstr inRange.2.2 _) rfl))
  | attach _ _ _ _ =>
    simp only [TPick.wire, List.append_assoc]
    exact andThen (rd_le 4 _ inRange.1) (andThen (rd_le 4 _ inRange.2.1)
      (andThen (rstr_wstr inRange.2.2.1 _) (andThen (rstr_wstr inRange.2.2.2 _) rfl)))
  | flush _ =>
    simp only [TPick.wire]
    exact andThen (rd_le 2 _ inRange) rfl
  | walk _ _ names =>
    simp only [TPick.wire, List.append_assoc]
    have few : names.length < 256 ^ 2 := lt_of_le_of_lt inRange.2.2.1 (by decide)
    refine andThen (rd_le 4 _ inRange.1) (andThen (rd_le 4 _ inRange.2.1)
      (andThen (rd_le 2 _ few) ?_))
    simp only [if_neg (Nat.not_lt.2 inRange.2.2.1)]
    exact andThen (rnames_wstr inRange.2.2.2 _) rfl
  | «open» _ _ =>
    simp only [TPick.wire, List.append_assoc]
    exact andThen (rd_le 4 _ inRange.1) (andThen (rd_le 1 _ inRange.2) rfl)
  | create _ _ _ _ =>
    simp only [TPick.wire, List.append_assoc]
    exact andThen (rd_le 4 _ inRange.1) (andThen (rstr_wstr inRange.2.1 _)
      (andThen (rd_le 4 _ inRange.2.2.1) (andThen (rd_le 1 _ inRange.2.2.2) rfl)))
  | read _ _ _ =>
    simp only [TPick.wire, List.append_assoc]
    exact andThen (rd_le 4 _ inRange.1) (andThen (rd_le 8 _ inRange.2.1)
      (andThen (rd_le 4 _ inRange.2.2) rfl))
  | write _ _ data =>
    simp only [TPick.wire, List.append_assoc]
    have counted : data.length < 256 ^ 4 := lt_of_lt_of_le inRange.2.2.2 (by decide)
    exact andThen (rd_le 4 _ inRange.1) (andThen (rd_le 8 _ inRange.2.1)
      (andThen (rd_le 4 _ counted) (andThen (take_append _ _) rfl)))
  | clunk _ => exact andThen (rd_le 4 _ inRange) rfl
  | stat _ => exact andThen (rd_le 4 _ inRange) rfl
  | remove _ => exact andThen (rd_le 4 _ inRange) rfl
  | wstat _ _ =>
    simp only [TPick.wire, List.append_assoc]
    exact andThen (rd_le 4 _ inRange.1) (andThen (rstat_wdir inRange.2 _) rfl)

theorem readR_wire {pick : RPick} (inRange : pick.InRange) (real : pick.mtype ≠ 0) (rest : Bytes) :
    readR pick.mtype (pick.wire ++ rest) = some (pick, rest) := by
  cases pick with
  | readerror _ => exact absurd rfl real
  | version _ _ =>
    simp only [RPick.wire, List.append_assoc]
    exact andThen (rd_le 4 _ inRange.1) (andThen (rstr_wstr inRange.2 _) rfl)
  | auth _ => exact andThen (rqid_wqid inRange _) rfl
  | attach _ => exact andThen (rqid_wqid inRange _) rfl
  | flush => rfl
  | error _ => exact andThen (rstr_wstr inRange _) rfl
  | clunk => rfl
  | remove => rfl
  | wstat => rfl
  | walk qids =>
    simp only [RPick.wire, List.append_assoc]
    have few : qids.length < 256 ^ 2 := lt_of_le_of_lt inRange.1 (by decide)
    exact andThen (rd_le 2 _ few) (andThen (rqids_wqid inRange.2 _) rfl)
  | create _ _ =>
    simp only [RPick.wire, List.append_assoc]
    exact andThen (rqid_wqid inRange.1 _) (andThen (rd_le 4 _ inRange.2) rfl)
  | «open» _ _ =>
    simp only [RPick.wire, List.append_assoc]
    exact andThen (rqid_wqid inRange.1 _) (andThen (rd_le 4 _ inRange.2) rfl)
  | read data =>
    simp only [RPick.wire, List.append_assoc]
    have counted : data.length < 256 ^ 4 := lt_of_lt_of_le inRange.2 (by decide)
    exact andThen (rd_le 4 _ counted) (andThen (take_append _ _) rfl)
  | write _ => exact andThen (rd_le 4 _ inRange) rfl
  | stat _ =>
    simp only [RPick.wire, List.append_assoc]
    exact andThen (rstat_wdir inRange _) rfl

end Messages

/-! ### Lengths -/

theorem rstr_length (read : rstr r = some (s, rest)) : rest.length + 2 ≤ r.length := by
  have ⟨⟨n, r1⟩, counted, read⟩ := bind_eq_some_iff.1 read
  have ⟨⟨bytes, r2⟩, taken, read⟩ := bind_eq_some_iff.1 read
  cases read
  have length1 := rd_length counted
  obtain ⟨_, rfl, _⟩ := take_eq_some taken
  rw [List.length_drop]
  omega

theorem rqid_length {q : Qid} (read : rqid r = some (q, rest)) : r.length = 13 + rest.length := by
  have ⟨⟨qtype, r1⟩, first, read⟩ := bind_eq_some_iff.1 read
  have ⟨⟨vers, r2⟩, second, read⟩ := bind_eq_some_iff.1 read
  have ⟨⟨path, r3⟩, third, read⟩ := bind_eq_some_iff.1 read
  cases read
  have length1 := rd_length first
  have length2 := rd_length second
  have length3 := rd_length third
  omega

theorem rtext_needs {next : Str × Bytes → Option γ}
    (later : ∀ s rest, Needs n rest (next (s, rest))) : Needs (2 + n) r ((rstr r).bind next) :=
  Needs.bind (fun _ _ read => rstr_length read) later

theorem rqid_needs {next : Qid × Bytes → Option γ} (later : ∀ q rest, Needs n rest (next (q, rest)))
    : Needs (13 + n) r ((rqid r).bind next) := by
  refine Needs.bind (fun q rest read => ?_) later
  rw [rqid_length read]
  omega

theorem rstat_needs {next : Dir × Bytes → Option γ} : Needs 2 r ((rstat r).bind next) := by
  intro _ read
  have ⟨_, counted, _⟩ := bind_eq_some_iff.1 read
  exact Needs.rd (fun _ _ => needs_zero) _ counted

section Fixed

attribute [local irreducible] rd Wire.take rstr rqid rstat rnames rqids

def Read (kind mtype : Nat) (r : Bytes) {γ : Type} (read : Option γ) : Prop :=
  ∀ found, read = some found → mtype % 2 = kind ∧ mtype < Tmax ∧ hdrlen mtype ≤ H + r.length

variable {mtype : Nat}

theorem Read.ite {kind type : Nat} {yes no : Option γ} (needs : Needs n r yes)
    (of : type % 2 = kind ∧ type < Tmax ∧ hdrlen type ≤ H + n) (others : Read kind mtype r no) :
    Read kind mtype r (if mtype = type then yes else no) := by
  intro found read
  split at read
  · rename_i same
    have enough := needs found read
    rw [same]
    exact ⟨of.1, of.2.1, by omega⟩
  · exact others found read

/-- Only the messages of its types are read, and they have their fixed parts. -/
theorem readT_length {pick : TPick} (read : readT mtype r = some (pick, rest)) :
    mtype % 2 = 0 ∧ mtype < Tmax ∧ hdrlen mtype ≤ H + r.length := by
  have known : Read 0 mtype r (readT mtype r) := by
    unfold readT
    refine Read.ite (Needs.rd fun _ _ => rtext_needs fun _ _ => needs_zero) (by decide) ?_
    refine Read.ite (Needs.rd fun _ _ => rtext_needs fun _ _ => rtext_needs fun _ _ => needs_zero)
      (by decide) ?_
    refine Read.ite (Needs.rd fun _ _ => needs_zero) (by decide) ?_
    refine Read.ite (Needs.rd fun _ _ => Needs.rd fun _ _ => rtext_needs fun _ _ =>
      rtext_needs fun _ _ => needs_zero) (by decide) ?_
    refine Read.ite (Needs.rd fun _ _ => Needs.rd fun _ _ => Needs.rd fun _ _ => needs_zero)
      (by decide) ?_
    refine Read.ite (Needs.rd fun _ _ => Needs.rd fun _ _ => needs_zero) (by decide) ?_
    refine Read.ite (Needs.rd fun _ _ => rtext_needs fun _ _ => Needs.rd fun _ _ =>
      Needs.rd fun _ _ => needs_zero) (by decide) ?_
    refine Read.ite (Needs.rd fun _ _ => Needs.rd fun _ _ => Needs.rd fun _ _ => needs_zero)
      (by decide) ?_
    refine Read.ite (Needs.rd fun _ _ => Needs.rd fun _ _ => Needs.rd fun _ _ => needs_zero)
      (by decide) ?_
    iterate 3 refine Read.ite (Needs.rd fun _ _ => needs_zero) (by decide) ?_
    refine Read.ite (Needs.rd fun _ _ => rstat_needs) (by decide) ?_
    exact fun _ nothing => nomatch nothing
  exact known _ read

/-- Only the messages of its types are read, and they have their fixed parts. -/
theorem readR_length {pick : RPick} (read : readR mtype r = some (pick, rest)) :
    mtype % 2 = 1 ∧ mtype < Tmax ∧ hdrlen mtype ≤ H + r.length := by
  have known : Read 1 mtype r (readR mtype r) := by
    unfold readR
    refine Read.ite (Needs.rd fun _ _ => rtext_needs fun _ _ => needs_zero) (by decide) ?_
    refine Read.ite (rqid_needs fun _ _ => needs_zero) (by decide) ?_
    refine Read.ite needs_zero (by decide) ?_
    refine Read.ite (rtext_needs fun _ _ => needs_zero) (by decide) ?_
    iterate 3 refine Read.ite needs_zero (by decide) ?_
    refine Read.ite (rqid_needs fun _ _ => needs_zero) (by decide) ?_
    refine Read.ite (Needs.rd fun _ _ => needs_zero) (by decide) ?_
    iterate 2
      refine Read.ite (rqid_needs fun _ _ => Needs.rd fun _ _ => needs_zero) (by decide) ?_
    iterate 2 refine Read.ite (Needs.rd fun _ _ => needs_zero) (by decide) ?_
    refine Read.ite rstat_needs (by decide) ?_
    exact fun _ nothing => nomatch nothing
  exact known _ read

end Fixed

end Infernode.Styx
