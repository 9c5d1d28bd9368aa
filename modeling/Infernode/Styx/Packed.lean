import Infernode.Styx.Pack
import Infernode.Styx.Format

/-!
Packing gives the bytes of the format.

Owns: what each write of `pack` leaves in the array, and `pack` as the bytes of a
message of positive size.
-/

namespace Infernode.Styx

open Text Lib9 Wire List

section Writes

attribute [local irreducible] put le wstr wqid

variable {done : Bytes} {o size : Nat}

theorem put_next {bytes : Bytes} (start : done.length = o) (fits : o + bytes.length ≤ size) :
    put (filled done size) o bytes = some (filled (done ++ bytes) size) :=
  put_filled start.symm (by omega)

theorem put_le {k v : Nat} (start : done.length = o) (fits : o + k ≤ size) :
    put (filled done size) o (le k v) = some (filled (done ++ le k v) size) :=
  put_next start (by rw [length_le]; exact fits)

theorem p32_filled {v : Nat} (start : done.length = o) (fits : o + 4 ≤ size) :
    p32 (filled done size) o v = some (filled (done ++ le 4 v) size) := put_le start fits

theorem p64_filled {v : Nat} (start : done.length = o) (fits : o + 8 ≤ size) :
    p64 (filled done size) o v = some (filled (done ++ le 8 v) size) := put_le start fits

theorem pqid_filled {q : Qid} (start : done.length = o) (fits : o + 13 ≤ size) :
    pqid (filled done size) o q = some (filled (done ++ wqid q) size) := by
  have shape : done ++ wqid q = done ++ le 1 q.qtype ++ le 4 q.vers ++ le 8 q.path := by
    simp [wqid]
  rw [shape]
  exact andThen (put_le start (by omega)) (andThen (put_le (by simp [start]) (by omega))
    (put_le (by simp [start]) (by omega)))

theorem pstring_filled {s : Str} (start : done.length = o) (fits : o + 2 + utflen s ≤ size) :
    pstring (filled done size) o s = some (filled (done ++ wstr s) size, o + 2 + utflen s) := by
  rw [utflen_eq] at *
  have shape : done ++ wstr s = done ++ le 2 (cvtca s).length ++ cvtca s := by
    simp [wstr]
  rw [shape]
  exact andThen (put_le start (by omega)) (andThen (put_next (by simp [start]) fits) rfl)

theorem pnames_filled (names : List Str) : ∀ {done : Bytes} {o : Nat}, done.length = o →
    o + (names.flatMap wstr).length ≤ size →
    pnames (filled done size) o names = some (filled (done ++ names.flatMap wstr) size) := by
  induction names with
  | nil =>
    intro done o _ _
    simp [pnames]
  | cons _ _ ih =>
    intro _ _ start fits
    rw [flatMap_cons, length_append, length_wstr] at fits
    rw [flatMap_cons, ← append_assoc]
    exact andThen (pstring_filled start (by omega))
      (ih (by simp [start]; omega) (by omega))

theorem pqids_filled (qids : List Qid) : ∀ {done : Bytes} {o : Nat}, done.length = o →
    o + (qids.flatMap wqid).length ≤ size →
    pqids (filled done size) o qids = some (filled (done ++ qids.flatMap wqid) size) := by
  induction qids with
  | nil =>
    intro done o _ _
    simp [pqids]
  | cons _ _ ih =>
    intro _ _ start fits
    rw [flatMap_cons, length_append, length_wqid] at fits
    rw [flatMap_cons, ← append_assoc]
    exact andThen (pqid_filled start (by omega))
      (ih (by simp [start]) (by omega))

/-- The array is the bytes written once they are all there. -/
theorem filled_done {bytes : Bytes} (full : bytes.length = size) (same : bytes = done) :
    some (filled bytes size) = some done := by
  rw [filled_full full, same]

theorem packdirsize_eq {d : Dir} (inRange : d.InRange) : packdirsize d = d.size :=
  Nat.mod_eq_of_lt (lt_trans inRange.size (by decide))

theorem le_two_mod {n m : Nat} (same : n % 65536 = m % 65536) : le 2 n = le 2 m := by
  simp only [le]
  congr 1
  · omega
  · congr 1
    omega

theorem packdir_eq {d : Dir} (inRange : d.InRange) : packdir d = some (wdir d) := by
  have size := inRange.size
  have whole := length_wdir d
  have dirSize : d.size = 49 + utflen d.name + utflen d.uid + utflen d.gid + utflen d.muid := rfl
  have shape : wdir d = [] ++ le 2 (d.size + 4294967296 - 2) ++ le 2 d.dtype ++ le 4 d.dev ++
      wqid d.qid ++ le 4 d.mode ++ le 4 d.atime ++ le 4 d.mtime ++ le 8 d.length ++ wstr d.name ++
      wstr d.uid ++ wstr d.gid ++ wstr d.muid := by
    rw [le_two_mod (by omega : (d.size + 4294967296 - 2) % 65536 = (d.size - 2) % 65536)]
    simp [wdir]
  rw [packdir, packdirsize_eq inRange]
  have array : newarray d.size = some (filled [] d.size) := by
    rw [newarray, if_pos (by omega), filled_nil]
  refine andThen array ?_
  refine andThen (put_le rfl (by omega)) ?_
  refine andThen (put_le (by simp) (by omega)) ?_
  refine andThen (put_le (by simp) (by omega)) ?_
  refine andThen (pqid_filled (by simp) (by omega)) ?_
  refine andThen (put_le (by simp) (by omega)) ?_
  refine andThen (put_le (by simp) (by omega)) ?_
  refine andThen (put_le (by simp) (by omega)) ?_
  refine andThen (p64_filled (by simp) (by omega)) ?_
  refine andThen (pstring_filled (by simp) (by omega)) ?_
  refine andThen (pstring_filled (by simp; omega) (by omega)) ?_
  refine andThen (pstring_filled (by simp; omega) (by omega)) ?_
  refine andThen (pstring_filled (by simp; omega) (by omega)) ?_
  rw [← shape, filled_full whole]
  exact if_neg (by rw [whole]; omega)

theorem packheader_eq {ds mtype tag : Nat} (enough : 7 ≤ ds) (small : ds < 2147483648) :
    packheader ds mtype tag = some (filled (le 4 ds ++ (le 1 mtype ++ le 2 tag)) ds) := by
  have shape : le 4 ds ++ (le 1 mtype ++ le 2 tag) = [] ++ le 4 ds ++ le 1 mtype ++ le 2 tag := by
    simp
  rw [shape]
  have array : newarray ds = some (filled [] ds) := by
    rw [newarray, if_pos small, filled_nil]
  exact andThen array (andThen (put_le rfl (by omega)) (andThen (put_le (by simp) (by omega))
    (put_le (by simp) (by omega))))

/-- The fields of a T-message go behind its header. -/
theorem TPick.pack_filled {pick : TPick} (inRange : pick.InRange) (real : pick.mtype ≠ 0)
    (start : done.length = H) (sized : size = H + pick.wire.length) :
    pick.pack (filled done size) = some (done ++ pick.wire) := by
  have header : H = 7 := rfl
  cases pick with
  | readerror _ => exact absurd rfl real
  | version _ _ =>
    simp only [TPick.wire, length_append, length_le, length_wstr] at sized
    refine andThen (p32_filled start (by omega)) ?_
    refine andThen (pstring_filled (by simp [start]) (by omega)) ?_
    exact filled_done (by simp; omega) (by simp [TPick.wire])
  | auth _ _ _ =>
    simp only [TPick.wire, length_append, length_le, length_wstr] at sized
    refine andThen (p32_filled start (by omega)) ?_
    refine andThen (pstring_filled (by simp [start]) (by omega)) ?_
    refine andThen (pstring_filled (by simp; omega) (by omega)) ?_
    exact filled_done (by simp; omega) (by simp [TPick.wire])
  | attach _ _ _ _ =>
    simp only [TPick.wire, length_append, length_le, length_wstr] at sized
    refine andThen (p32_filled start (by omega)) ?_
    refine andThen (p32_filled (by simp [start]) (by omega)) ?_
    refine andThen (pstring_filled (by simp; omega) (by omega)) ?_
    refine andThen (pstring_filled (by simp; omega) (by omega)) ?_
    exact filled_done (by simp; omega) (by simp [TPick.wire])
  | flush _ =>
    simp only [TPick.wire, length_le] at sized
    exact (put_le start (by omega)).trans (filled_done (by simp; omega) rfl)
  | walk _ _ names =>
    simp only [TPick.wire, length_append, length_le] at sized
    refine andThen (put_le start (by omega)) ?_
    refine andThen (put_le (by simp [start]) (by omega)) ?_
    refine andThen (put_le (by simp; omega) (by omega)) ?_
    refine (pnames_filled names (by simp; omega) (by omega)).trans ?_
    exact filled_done (by simp only [length_append, length_le]; omega)
      (by simp [TPick.wire])
  | «open» _ _ =>
    simp only [TPick.wire, length_append, length_le] at sized
    refine andThen (p32_filled start (by omega)) ?_
    refine (put_le (by simp [start]) (by omega)).trans ?_
    exact filled_done (by simp; omega) (by simp [TPick.wire])
  | create _ _ _ _ =>
    simp only [TPick.wire, length_append, length_le, length_wstr] at sized
    refine andThen (p32_filled start (by omega)) ?_
    refine andThen (pstring_filled (by simp [start]) (by omega)) ?_
    refine andThen (p32_filled (by simp; omega) (by omega)) ?_
    refine (put_le (by simp; omega) (by omega)).trans ?_
    exact filled_done (by simp; omega) (by simp [TPick.wire])
  | read _ _ _ =>
    simp only [TPick.wire, length_append, length_le] at sized
    refine andThen (p32_filled start (by omega)) ?_
    refine andThen (p64_filled (by simp [start]) (by omega)) ?_
    refine (p32_filled (by simp [start]) (by omega)).trans ?_
    exact filled_done (by simp; omega) (by simp [TPick.wire])
  | write _ _ _ =>
    simp only [TPick.wire, length_append, length_le] at sized
    refine andThen (p32_filled start (by omega)) ?_
    refine andThen (p64_filled (by simp [start]) (by omega)) ?_
    refine andThen (p32_filled (by simp [start]) (by omega)) ?_
    refine (put_next (by simp [start]) (by omega)).trans ?_
    exact filled_done (by simp; omega) (by simp [TPick.wire])
  | clunk _ =>
    simp only [TPick.wire, length_le] at sized
    exact (p32_filled start (by omega)).trans (filled_done (by simp; omega) rfl)
  | stat _ =>
    simp only [TPick.wire, length_le] at sized
    exact (p32_filled start (by omega)).trans (filled_done (by simp; omega) rfl)
  | remove _ =>
    simp only [TPick.wire, length_le] at sized
    exact (p32_filled start (by omega)).trans (filled_done (by simp; omega) rfl)
  | wstat _ d =>
    have whole := length_wdir d
    simp only [TPick.wire, length_append, length_le] at sized
    refine andThen (p32_filled start (by omega)) ?_
    refine andThen (packdir_eq inRange.2) ?_
    refine andThen (put_le (by simp [start]) (by omega)) ?_
    refine (put_next (by simp [start]) (by omega)).trans ?_
    exact filled_done (by simp only [length_append, length_le]; omega)
      (by simp [TPick.wire, whole])

/-- The fields of an R-message go behind its header. -/
theorem RPick.pack_filled {pick : RPick} (inRange : pick.InRange) (real : pick.mtype ≠ 0)
    (start : done.length = H) (sized : size = H + pick.wire.length) :
    pick.pack (filled done size) = some (done ++ pick.wire) := by
  have header : H = 7 := rfl
  have empty : size = H → some (filled done size) = some (done ++ []) := by
    intro _
    exact filled_done (by omega) (by simp)
  cases pick with
  | readerror _ => exact absurd rfl real
  | version _ _ =>
    simp only [RPick.wire, length_append, length_le, length_wstr] at sized
    refine andThen (p32_filled start (by omega)) ?_
    refine andThen (pstring_filled (by simp [start]) (by omega)) ?_
    exact filled_done (by simp; omega) (by simp [RPick.wire])
  | auth _ =>
    simp only [RPick.wire, length_wqid] at sized
    exact (pqid_filled start (by omega)).trans (filled_done (by simp; omega) rfl)
  | attach _ =>
    simp only [RPick.wire, length_wqid] at sized
    exact (pqid_filled start (by omega)).trans (filled_done (by simp; omega) rfl)
  | flush => exact empty sized
  | error _ =>
    simp only [RPick.wire, length_wstr] at sized
    refine andThen (pstring_filled start (by omega)) ?_
    exact filled_done (by simp; omega) rfl
  | clunk => exact empty sized
  | remove => exact empty sized
  | wstat => exact empty sized
  | walk qids =>
    simp only [RPick.wire, length_append, length_le] at sized
    refine andThen (put_le start (by omega)) ?_
    refine (pqids_filled qids (by simp [start]) (by omega)).trans ?_
    exact filled_done (by simp only [length_append, length_le]; omega)
      (by simp [RPick.wire])
  | create _ _ =>
    simp only [RPick.wire, length_append, length_le, length_wqid] at sized
    refine andThen (pqid_filled start (by omega)) ?_
    refine (p32_filled (by simp [start]) (by omega)).trans ?_
    exact filled_done (by simp; omega) (by simp [RPick.wire])
  | «open» _ _ =>
    simp only [RPick.wire, length_append, length_le, length_wqid] at sized
    refine andThen (pqid_filled start (by omega)) ?_
    refine (p32_filled (by simp [start]) (by omega)).trans ?_
    exact filled_done (by simp; omega) (by simp [RPick.wire])
  | read _ =>
    simp only [RPick.wire, length_append, length_le] at sized
    refine andThen (put_le start (by omega)) ?_
    refine (put_next (by simp [start]) (by omega)).trans ?_
    exact filled_done (by simp; omega) (by simp [RPick.wire])
  | write _ =>
    simp only [RPick.wire, length_le] at sized
    exact (put_le start (by omega)).trans (filled_done (by simp; omega) rfl)
  | stat d =>
    have whole := length_wdir d
    simp only [RPick.wire, length_append, length_le] at sized
    refine andThen (packdir_eq inRange) ?_
    refine andThen (put_le start (by omega)) ?_
    refine (put_next (by simp [start]) (by omega)).trans ?_
    exact filled_done (by simp only [length_append, length_le]; omega)
      (by simp [RPick.wire, whole])

end Writes

/-! ### Whole messages -/

/-- The header and the variable parts make up the length of the fields. -/
theorem TPick.length_wire {pick : TPick} (inRange : pick.InRange) (real : pick.mtype ≠ 0) :
    H + pick.wire.length = hdrlen pick.mtype + pick.varsize := by
  cases pick with
  | readerror _ => exact absurd rfl real
  | version msize v =>
    change 7 + (le 4 msize ++ wstr v).length = 13 + utflen v
    simp only [length_append, length_le, length_wstr]
    omega
  | auth afid uname aname =>
    change 7 + (le 4 afid ++ (wstr uname ++ wstr aname)).length =
      15 + (utflen uname + utflen aname)
    simp only [length_append, length_le, length_wstr]
    omega
  | attach fid afid uname aname =>
    change 7 + (le 4 fid ++ (le 4 afid ++ (wstr uname ++ wstr aname))).length =
      19 + (utflen uname + utflen aname)
    simp only [length_append, length_le, length_wstr]
    omega
  | flush _ => rfl
  | walk fid newfid names =>
    change 7 + (le 4 fid ++ (le 4 newfid ++ (le 2 names.length ++ names.flatMap wstr))).length =
      17 + (names.map fun name => 2 + utflen name).sum
    simp only [length_append, length_le, length_flatMap, length_wstr]
    omega
  | «open» _ _ => rfl
  | create fid name perm mode =>
    change 7 + (le 4 fid ++ (wstr name ++ (le 4 perm ++ le 1 mode))).length = 18 + utflen name
    simp only [length_append, length_le, length_wstr]
    omega
  | read _ _ _ => rfl
  | write fid offset data =>
    change 7 + (le 4 fid ++ (le 8 offset ++ (le 4 data.length ++ data))).length =
      23 + data.length
    simp only [length_append, length_le]
    omega
  | clunk _ => rfl
  | stat _ => rfl
  | remove _ => rfl
  | wstat fid d =>
    change 7 + (le 4 fid ++ (le 2 d.size ++ wdir d)).length = 13 + packdirsize d
    rw [packdirsize_eq inRange.2]
    simp only [length_append, length_le, length_wdir]
    omega

theorem RPick.length_wire {pick : RPick} (inRange : pick.InRange) (real : pick.mtype ≠ 0) :
    H + pick.wire.length = hdrlen pick.mtype + pick.varsize := by
  cases pick with
  | readerror _ => exact absurd rfl real
  | version msize v =>
    change 7 + (le 4 msize ++ wstr v).length = 13 + utflen v
    simp only [length_append, length_le, length_wstr]
    omega
  | auth _ => rfl
  | attach _ => rfl
  | flush => rfl
  | error ename =>
    change 7 + (wstr ename).length = 9 + utflen ename
    rw [length_wstr]
    omega
  | clunk => rfl
  | remove => rfl
  | wstat => rfl
  | walk qids =>
    have each : (qids.map fun q => (wqid q).length).sum = 13 * qids.length := by
      simp [Nat.mul_comm]
    change 7 + (le 2 qids.length ++ qids.flatMap wqid).length = 9 + 13 * qids.length
    rw [length_append, length_le, length_flatMap, each]
    omega
  | create _ _ => rfl
  | «open» _ _ => rfl
  | read data =>
    change 7 + (le 4 data.length ++ data).length = 11 + data.length
    simp only [length_append, length_le]
    omega
  | write _ => rfl
  | stat d =>
    change 7 + (le 2 d.size ++ wdir d).length = 9 + packdirsize d
    rw [packdirsize_eq inRange]
    simp only [length_append, length_le, length_wdir]
    omega

def Tmsg.size (t : Tmsg) : Nat := H + t.pick.wire.length

def Rmsg.size (r : Rmsg) : Nat := H + r.pick.wire.length

def Tmsg.wire (t : Tmsg) : Bytes := wmsg t.mtype t.tag t.pick.wire

def Rmsg.wire (r : Rmsg) : Bytes := wmsg r.mtype r.tag r.pick.wire

private theorem pack_wmsg {mtype tag size : Nat} {fields : Bytes}
    {packfields : Bytes → Option Bytes} (sized : size = H + fields.length)
    (small : size < 2147483648)
    (packed : ∀ done : Bytes, done.length = H →
      packfields (filled done size) = some (done ++ fields)) :
    (packheader size mtype tag).bind packfields = some (wmsg mtype tag fields) := by
  refine andThen (packheader_eq (by unfold H at sized; omega) small) ?_
  rw [packed _ (by simp [H]), sized]
  simp [wmsg]

/-- A T-message packs to its bytes where their number is an `int`. -/
theorem Tmsg.pack_eq {t : Tmsg} (inRange : t.InRange) (real : t.mtype ≠ 0)
    (small : t.size < 2147483648) : t.packedsize = t.size ∧ t.pack = some t.wire := by
  have length : t.size = hdrlen t.mtype + t.pick.varsize := TPick.length_wire inRange.2 real
  have packed : t.packedsize = t.size := by
    rw [Tmsg.packedsize, if_neg real, ← length]
    exact Nat.mod_eq_of_lt (by omega)
  refine ⟨packed, ?_⟩
  have positive : ¬(t.size = 0 ∨ 2147483648 ≤ t.size) := by
    unfold Tmsg.size H at small ⊢
    omega
  rw [Tmsg.pack, packed]
  simp only [if_neg positive]
  exact pack_wmsg rfl small fun done start => TPick.pack_filled inRange.2 real start rfl

/-- An R-message packs to its bytes where their number is an `int`. -/
theorem Rmsg.pack_eq {r : Rmsg} (inRange : r.InRange) (real : r.mtype ≠ 0)
    (small : r.size < 2147483648) : r.packedsize = r.size ∧ r.pack = some r.wire := by
  have length : r.size = hdrlen r.mtype + r.pick.varsize := RPick.length_wire inRange.2 real
  have packed : r.packedsize = r.size := by
    rw [Rmsg.packedsize, if_neg real, ← length]
    exact Nat.mod_eq_of_lt (by omega)
  refine ⟨packed, ?_⟩
  have positive : ¬(r.size = 0 ∨ 2147483648 ≤ r.size) := by
    unfold Rmsg.size H at small ⊢
    omega
  rw [Rmsg.pack, packed]
  simp only [if_neg positive]
  exact pack_wmsg rfl small fun done start => RPick.pack_filled inRange.2 real start rfl

end Infernode.Styx
