import Infernode.Program.Checks
import Infernode.Styx.ConvM2S

/-!
The bytes of the fields of a C message, as `lib9/convM2S.c` reads them.

Owns: the bytes of the fields of each type, that `convfields` reads them back, and that it reads
nothing else.
-/

namespace Infernode.Lib9

open Wire Styx Checks List Option

/-! ### The bytes of the fields -/

def wstring (s : Bytes) : Bytes := le 2 s.length ++ s

def wqidbytes (q : Qid) : Bytes := le 1 q.qtype ++ (le 4 q.vers ++ le 8 q.path)

def Fields.wire : Fields → Bytes
  | .version msize v => le 4 msize ++ wstring v
  | .flush oldtag => le 2 oldtag
  | .auth afid uname aname => le 4 afid ++ (wstring uname ++ wstring aname)
  | .attach f afid uname aname => le 4 f ++ (le 4 afid ++ (wstring uname ++ wstring aname))
  | .walk f newfid wname =>
    le 4 f ++ (le 4 newfid ++ (le 2 wname.length ++ wname.flatMap wstring))
  | .«open» f mode => le 4 f ++ le 1 mode
  | .create f name perm mode => le 4 f ++ (wstring name ++ (le 4 perm ++ le 1 mode))
  | .read f offset count => le 4 f ++ (le 8 offset ++ le 4 count)
  | .write f offset count data => le 4 f ++ (le 8 offset ++ (le 4 count ++ data))
  | .fid f => le 4 f
  | .wstat f nstat stat => le 4 f ++ (le 2 nstat ++ stat)
  | .error ename => wstring ename
  | .none => []
  | .qid q => wqidbytes q
  | .rwalk wqid => le 2 wqid.length ++ wqid.flatMap wqidbytes
  | .ropen q iounit => wqidbytes q ++ le 4 iounit
  | .rread count data => le 4 count ++ data
  | .rwrite count => le 4 count
  | .rstat nstat stat => le 2 nstat ++ stat

def Fields.types : Fields → List Nat
  | .version _ _ => [Tversion, Rversion]
  | .flush _ => [Tflush]
  | .auth _ _ _ => [Tauth]
  | .attach _ _ _ _ => [Tattach]
  | .walk _ _ _ => [Twalk]
  | .«open» _ _ => [Topen]
  | .create _ _ _ _ => [Tcreate]
  | .read _ _ _ => [Tread]
  | .write _ _ _ _ => [Twrite]
  | .fid _ => [Tclunk, Tremove, Tstat]
  | .wstat _ _ _ => [Twstat]
  | .error _ => [Rerror]
  | .none => [Rflush, Rclunk, Rremove, Rwstat]
  | .qid _ => [Rauth, Rattach]
  | .rwalk _ => [Rwalk]
  | .ropen _ _ => [Ropen, Rcreate]
  | .rread _ _ => [Rread]
  | .rwrite _ => [Rwrite]
  | .rstat _ _ => [Rstat]

def Short (s : Bytes) : Prop := s.length < 256 ^ 2

def QidFits (q : Qid) : Prop := q.qtype < 256 ^ 1 ∧ q.vers < 256 ^ 4 ∧ q.path < 256 ^ 8

def Fields.Fits : Fields → Prop
  | .version msize v => msize < 256 ^ 4 ∧ Short v
  | .flush oldtag => oldtag < 256 ^ 2
  | .auth afid uname aname => afid < 256 ^ 4 ∧ Short uname ∧ Short aname
  | .attach f afid uname aname => f < 256 ^ 4 ∧ afid < 256 ^ 4 ∧ Short uname ∧ Short aname
  | .walk f newfid wname =>
    f < 256 ^ 4 ∧ newfid < 256 ^ 4 ∧ wname.length ≤ MAXWELEM ∧ ∀ name ∈ wname, Short name
  | .«open» f mode => f < 256 ^ 4 ∧ mode < 256 ^ 1
  | .create f name perm mode => f < 256 ^ 4 ∧ Short name ∧ perm < 256 ^ 4 ∧ mode < 256 ^ 1
  | .read f offset count => f < 256 ^ 4 ∧ offset < 256 ^ 8 ∧ count < 256 ^ 4
  | .write f offset count data =>
    f < 256 ^ 4 ∧ offset < 256 ^ 8 ∧ count < 256 ^ 4 ∧ data.length = count
  | .fid f => f < 256 ^ 4
  | .wstat f nstat stat => f < 256 ^ 4 ∧ nstat < 256 ^ 2 ∧ stat.length = nstat
  | .error ename => Short ename
  | .none => True
  | .qid q => QidFits q
  | .rwalk wqid => wqid.length ≤ MAXWELEM ∧ ∀ q ∈ wqid, QidFits q
  | .ropen q iounit => QidFits q ∧ iounit < 256 ^ 4
  | .rread count data => count < 256 ^ 4 ∧ data.length = count
  | .rwrite count => count < 256 ^ 4
  | .rstat nstat stat => nstat < 256 ^ 2 ∧ stat.length = nstat

/-! ### Reading what was written -/

variable {s p rest : Bytes} {q : Qid} {type n : Nat} {fields : Fields}

theorem cgstring_wstring (short : Short s) (rest : Bytes) :
    cgstring (wstring s ++ rest) = some (s, rest) := by
  unfold cgstring
  rw [wstring, append_assoc]
  exact andThen (rd_le 2 _ short) (take_append s rest)

theorem cgqid_wqidbytes (fits : QidFits q) (rest : Bytes) :
    cgqid (wqidbytes q ++ rest) = some (q, rest) := by
  have ⟨qtype, vers, path⟩ := fits
  unfold cgqid
  simp only [wqidbytes, append_assoc]
  exact andThen (rd_le 1 _ qtype) (andThen (rd_le 4 _ vers) (andThen (rd_le 8 _ path) rfl))

theorem cgnames_wstring {names : List Bytes} (short : ∀ name ∈ names, Short name) (rest : Bytes) :
    cgnames names.length (names.flatMap wstring ++ rest) = some (names, rest) := by
  induction names with
  | nil => rfl
  | cons name _ ih =>
    have later := ih (forall_mem_cons.1 short).2
    rw [length_cons, flatMap_cons, append_assoc, cgnames]
    exact andThen (cgstring_wstring (short name (by simp)) _) (andThen later rfl)

theorem cgqids_wqidbytes {qids : List Qid} (fits : ∀ q ∈ qids, QidFits q) (rest : Bytes) :
    cgqids qids.length (qids.flatMap wqidbytes ++ rest) = some (qids, rest) := by
  induction qids with
  | nil => rfl
  | cons q _ ih =>
    have later := ih (forall_mem_cons.1 fits).2
    rw [length_cons, flatMap_cons, append_assoc, cgqids]
    exact andThen (cgqid_wqidbytes (fits q (by simp)) _) (andThen later rfl)

section Reading

attribute [local irreducible] rd le Wire.take cgstring cgqid cgnames cgqids wstring wqidbytes

theorem convfields_wire (of : type ∈ fields.types) (fits : fields.Fits) (rest : Bytes) :
    convfields type (fields.wire ++ rest) = some (fields, rest) := by
  cases fields with
  | version _ _ =>
    simp only [Fields.types, mem_cons, not_mem_nil, or_false] at of
    simp only [Fields.wire, append_assoc]
    rcases of with rfl | rfl
    · exact andThen (rd_le 4 _ fits.1) (andThen (cgstring_wstring fits.2 _) rfl)
    · exact andThen (rd_le 4 _ fits.1) (andThen (cgstring_wstring fits.2 _) rfl)
  | flush _ =>
    obtain rfl := mem_singleton.1 of
    exact andThen (rd_le 2 _ fits) rfl
  | auth _ _ _ =>
    obtain rfl := mem_singleton.1 of
    simp only [Fields.wire, append_assoc]
    exact andThen (rd_le 4 _ fits.1) (andThen (cgstring_wstring fits.2.1 _)
      (andThen (cgstring_wstring fits.2.2 _) rfl))
  | attach _ _ _ _ =>
    obtain rfl := mem_singleton.1 of
    simp only [Fields.wire, append_assoc]
    exact andThen (rd_le 4 _ fits.1) (andThen (rd_le 4 _ fits.2.1)
      (andThen (cgstring_wstring fits.2.2.1 _) (andThen (cgstring_wstring fits.2.2.2 _) rfl)))
  | walk _ _ wname =>
    obtain rfl := mem_singleton.1 of
    simp only [Fields.wire, append_assoc]
    have few : wname.length < 256 ^ 2 := lt_of_le_of_lt fits.2.2.1 (by decide)
    refine andThen (rd_le 4 _ fits.1) (andThen (rd_le 4 _ fits.2.1) (andThen (rd_le 2 _ few) ?_))
    simp only [if_neg (Nat.not_lt.2 fits.2.2.1)]
    exact andThen (cgnames_wstring fits.2.2.2 _) rfl
  | «open» _ _ =>
    obtain rfl := mem_singleton.1 of
    simp only [Fields.wire, append_assoc]
    exact andThen (rd_le 4 _ fits.1) (andThen (rd_le 1 _ fits.2) rfl)
  | create _ _ _ _ =>
    obtain rfl := mem_singleton.1 of
    simp only [Fields.wire, append_assoc]
    exact andThen (rd_le 4 _ fits.1) (andThen (cgstring_wstring fits.2.1 _)
      (andThen (rd_le 4 _ fits.2.2.1) (andThen (rd_le 1 _ fits.2.2.2) rfl)))
  | read _ _ _ =>
    obtain rfl := mem_singleton.1 of
    simp only [Fields.wire, append_assoc]
    exact andThen (rd_le 4 _ fits.1) (andThen (rd_le 8 _ fits.2.1)
      (andThen (rd_le 4 _ fits.2.2) rfl))
  | write _ _ _ _ =>
    obtain rfl := mem_singleton.1 of
    obtain ⟨fidFits, offsetFits, countFits, rfl⟩ := fits
    simp only [Fields.wire, append_assoc]
    exact andThen (rd_le 4 _ fidFits) (andThen (rd_le 8 _ offsetFits)
      (andThen (rd_le 4 _ countFits) (andThen (take_append _ _) rfl)))
  | fid _ =>
    simp only [Fields.types, mem_cons, not_mem_nil, or_false] at of
    rcases of with rfl | rfl | rfl
    · exact andThen (rd_le 4 _ fits) rfl
    · exact andThen (rd_le 4 _ fits) rfl
    · exact andThen (rd_le 4 _ fits) rfl
  | wstat _ _ _ =>
    obtain rfl := mem_singleton.1 of
    obtain ⟨fidFits, nstatFits, rfl⟩ := fits
    simp only [Fields.wire, append_assoc]
    exact andThen (rd_le 4 _ fidFits) (andThen (rd_le 2 _ nstatFits)
      (andThen (take_append _ _) rfl))
  | error _ =>
    obtain rfl := mem_singleton.1 of
    exact andThen (cgstring_wstring fits _) rfl
  | none =>
    simp only [Fields.types, mem_cons, not_mem_nil, or_false] at of
    rcases of with rfl | rfl | rfl | rfl
    · rfl
    · rfl
    · rfl
    · rfl
  | qid _ =>
    simp only [Fields.types, mem_cons, not_mem_nil, or_false] at of
    rcases of with rfl | rfl
    · exact andThen (cgqid_wqidbytes fits _) rfl
    · exact andThen (cgqid_wqidbytes fits _) rfl
  | rwalk wqid =>
    obtain rfl := mem_singleton.1 of
    simp only [Fields.wire, append_assoc]
    have few : wqid.length < 256 ^ 2 := lt_of_le_of_lt fits.1 (by decide)
    refine andThen (rd_le 2 _ few) ?_
    simp only [if_neg (Nat.not_lt.2 fits.1)]
    exact andThen (cgqids_wqidbytes fits.2 _) rfl
  | ropen _ _ =>
    simp only [Fields.types, mem_cons, not_mem_nil, or_false] at of
    simp only [Fields.wire, append_assoc]
    rcases of with rfl | rfl
    · exact andThen (cgqid_wqidbytes fits.1 _) (andThen (rd_le 4 _ fits.2) rfl)
    · exact andThen (cgqid_wqidbytes fits.1 _) (andThen (rd_le 4 _ fits.2) rfl)
  | rread _ _ =>
    obtain rfl := mem_singleton.1 of
    obtain ⟨countFits, rfl⟩ := fits
    simp only [Fields.wire, append_assoc]
    exact andThen (rd_le 4 _ countFits) (andThen (take_append _ _) rfl)
  | rwrite _ =>
    obtain rfl := mem_singleton.1 of
    exact andThen (rd_le 4 _ fits) rfl
  | rstat _ _ =>
    obtain rfl := mem_singleton.1 of
    obtain ⟨nstatFits, rfl⟩ := fits
    simp only [Fields.wire, append_assoc]
    exact andThen (rd_le 2 _ nstatFits) (andThen (take_append _ _) rfl)

end Reading


/-! ### Only what was written is read -/

theorem wstring_of_cgstring (bytes : IsBytes p) (read : cgstring p = some (s, rest)) :
    p = wstring s ++ rest ∧ Short s ∧ IsBytes rest := by
  have ⟨⟨n, p1⟩, counted, read⟩ := bind_eq_some_iff.1 read
  have taken : Wire.take n p1 = some (s, rest) := read
  have ⟨same1, small, bytes1⟩ := le_of_rd bytes counted
  have ⟨same2, length, bytes2⟩ := eq_of_take bytes1 taken
  subst length
  exact ⟨by rw [same1, same2, wstring, append_assoc], small, bytes2⟩

theorem wqidbytes_of_cgqid (bytes : IsBytes p) (read : cgqid p = some (q, rest)) :
    p = wqidbytes q ++ rest ∧ QidFits q ∧ IsBytes rest := by
  have ⟨⟨qtype, p1⟩, first, read⟩ := bind_eq_some_iff.1 read
  have ⟨⟨vers, p2⟩, second, read⟩ := bind_eq_some_iff.1 read
  have ⟨⟨path, p3⟩, third, read⟩ := bind_eq_some_iff.1 read
  cases read
  obtain ⟨rfl, fits1, bytes1⟩ := le_of_rd bytes first
  obtain ⟨rfl, fits2, bytes2⟩ := le_of_rd bytes1 second
  obtain ⟨rfl, fits3, bytes3⟩ := le_of_rd bytes2 third
  exact ⟨by simp only [wqidbytes, append_assoc], ⟨fits1, fits2, fits3⟩, bytes3⟩

theorem wstrings_of_cgnames : ∀ {p rest : Bytes} {names : List Bytes}, IsBytes p →
    cgnames n p = some (names, rest) → p = names.flatMap wstring ++ rest ∧ names.length = n ∧
      (∀ name ∈ names, Short name) ∧ IsBytes rest := by
  induction n with
  | zero =>
    intro p rest names bytes read
    cases read
    exact ⟨rfl, rfl, fun _ member => absurd member not_mem_nil, bytes⟩
  | succ _ ih =>
    intro _ _ _ bytes read
    have ⟨⟨name, p1⟩, first, read⟩ := bind_eq_some_iff.1 read
    have ⟨⟨others, p2⟩, later, read⟩ := bind_eq_some_iff.1 read
    cases read
    obtain ⟨rfl, short, bytes1⟩ := wstring_of_cgstring bytes first
    obtain ⟨rfl, rfl, shorts, bytes2⟩ := ih bytes1 later
    refine ⟨by rw [flatMap_cons, append_assoc], rfl, ?_, bytes2⟩
    exact forall_mem_cons.2 ⟨short, shorts⟩

theorem wqids_of_cgqids : ∀ {p rest : Bytes} {qids : List Qid}, IsBytes p →
    cgqids n p = some (qids, rest) → p = qids.flatMap wqidbytes ++ rest ∧ qids.length = n ∧
      (∀ q ∈ qids, QidFits q) ∧ IsBytes rest := by
  induction n with
  | zero =>
    intro p rest qids bytes read
    cases read
    exact ⟨rfl, rfl, fun _ member => absurd member not_mem_nil, bytes⟩
  | succ _ ih =>
    intro _ _ _ bytes read
    have ⟨⟨q, p1⟩, first, read⟩ := bind_eq_some_iff.1 read
    have ⟨⟨others, p2⟩, later, read⟩ := bind_eq_some_iff.1 read
    cases read
    obtain ⟨rfl, fits, bytes1⟩ := wqidbytes_of_cgqid bytes first
    obtain ⟨rfl, rfl, fitting, bytes2⟩ := ih bytes1 later
    refine ⟨by rw [flatMap_cons, append_assoc], rfl, ?_, bytes2⟩
    exact forall_mem_cons.2 ⟨fits, fitting⟩

section Written

attribute [local irreducible] rd Wire.take cgstring cgqid cgnames cgqids

/-- What is read are the bytes of the fields, which fit and are those of the type. -/
theorem wire_of_convfields (bytes : IsBytes p) (read : convfields type p = some (fields, rest)) :
    type ∈ fields.types ∧ fields.Fits ∧ p = fields.wire ++ rest := by
  unfold convfields at read
  rcases chosen read with ⟨of, read⟩ | read
  · obtain ⟨msize, p1, ⟨rfl, fits1, bytes1⟩, more1⟩ := of_bind read (le_of_rd bytes)
    obtain ⟨version, p2, ⟨rfl, fits2, -⟩, more2⟩ := of_bind more1 (wstring_of_cgstring bytes1)
    cases more2
    exact ⟨by simpa [Fields.types] using of, ⟨fits1, fits2⟩,
      by simp only [Fields.wire, append_assoc]⟩
  rcases chosen read with ⟨of, read⟩ | read
  · obtain ⟨oldtag, p1, ⟨rfl, fits1, -⟩, more1⟩ := of_bind read (le_of_rd bytes)
    cases more1
    exact ⟨mem_singleton.2 of, fits1, rfl⟩
  rcases chosen read with ⟨of, read⟩ | read
  · obtain ⟨afid, p1, ⟨rfl, fits1, bytes1⟩, more1⟩ := of_bind read (le_of_rd bytes)
    obtain ⟨uname, p2, ⟨rfl, fits2, bytes2⟩, more2⟩ := of_bind more1 (wstring_of_cgstring bytes1)
    obtain ⟨aname, p3, ⟨rfl, fits3, -⟩, more3⟩ := of_bind more2 (wstring_of_cgstring bytes2)
    cases more3
    exact ⟨mem_singleton.2 of, ⟨fits1, fits2, fits3⟩,
      by simp only [Fields.wire, append_assoc]⟩
  rcases chosen read with ⟨of, read⟩ | read
  · obtain ⟨fid, p1, ⟨rfl, fits1, bytes1⟩, more1⟩ := of_bind read (le_of_rd bytes)
    obtain ⟨afid, p2, ⟨rfl, fits2, bytes2⟩, more2⟩ := of_bind more1 (le_of_rd bytes1)
    obtain ⟨uname, p3, ⟨rfl, fits3, bytes3⟩, more3⟩ := of_bind more2 (wstring_of_cgstring bytes2)
    obtain ⟨aname, p4, ⟨rfl, fits4, -⟩, more4⟩ := of_bind more3 (wstring_of_cgstring bytes3)
    cases more4
    exact ⟨mem_singleton.2 of, ⟨fits1, fits2, fits3, fits4⟩,
      by simp only [Fields.wire, append_assoc]⟩
  rcases chosen read with ⟨of, read⟩ | read
  · obtain ⟨fid, p1, ⟨rfl, fits1, bytes1⟩, more1⟩ := of_bind read (le_of_rd bytes)
    obtain ⟨newfid, p2, ⟨rfl, fits2, bytes2⟩, more2⟩ := of_bind more1 (le_of_rd bytes1)
    obtain ⟨nwname, p3, ⟨rfl, fits3, bytes3⟩, more3⟩ := of_bind more2 (le_of_rd bytes2)
    simp only at more3
    split at more3
    · cases more3
    rename_i few
    have ⟨⟨wname, p4⟩, step4, last⟩ := bind_eq_some_iff.1 more3
    cases last
    obtain ⟨rfl, rfl, fits4, -⟩ := wstrings_of_cgnames bytes3 step4
    exact ⟨mem_singleton.2 of, ⟨fits1, fits2, Nat.not_lt.1 few, fits4⟩,
      by simp only [Fields.wire, append_assoc]⟩
  rcases chosen read with ⟨of, read⟩ | read
  · obtain ⟨fid, p1, ⟨rfl, fits1, bytes1⟩, more1⟩ := of_bind read (le_of_rd bytes)
    obtain ⟨mode, p2, ⟨rfl, fits2, -⟩, more2⟩ := of_bind more1 (le_of_rd bytes1)
    cases more2
    exact ⟨mem_singleton.2 of, ⟨fits1, fits2⟩,
      by simp only [Fields.wire, append_assoc]⟩
  rcases chosen read with ⟨of, read⟩ | read
  · obtain ⟨fid, p1, ⟨rfl, fits1, bytes1⟩, more1⟩ := of_bind read (le_of_rd bytes)
    obtain ⟨name, p2, ⟨rfl, fits2, bytes2⟩, more2⟩ := of_bind more1 (wstring_of_cgstring bytes1)
    obtain ⟨perm, p3, ⟨rfl, fits3, bytes3⟩, more3⟩ := of_bind more2 (le_of_rd bytes2)
    obtain ⟨mode, p4, ⟨rfl, fits4, -⟩, more4⟩ := of_bind more3 (le_of_rd bytes3)
    cases more4
    exact ⟨mem_singleton.2 of, ⟨fits1, fits2, fits3, fits4⟩,
      by simp only [Fields.wire, append_assoc]⟩
  rcases chosen read with ⟨of, read⟩ | read
  · obtain ⟨fid, p1, ⟨rfl, fits1, bytes1⟩, more1⟩ := of_bind read (le_of_rd bytes)
    obtain ⟨offset, p2, ⟨rfl, fits2, bytes2⟩, more2⟩ := of_bind more1 (le_of_rd bytes1)
    obtain ⟨count, p3, ⟨rfl, fits3, -⟩, more3⟩ := of_bind more2 (le_of_rd bytes2)
    cases more3
    exact ⟨mem_singleton.2 of, ⟨fits1, fits2, fits3⟩,
      by simp only [Fields.wire, append_assoc]⟩
  rcases chosen read with ⟨of, read⟩ | read
  · obtain ⟨fid, p1, ⟨rfl, fits1, bytes1⟩, more1⟩ := of_bind read (le_of_rd bytes)
    obtain ⟨offset, p2, ⟨rfl, fits2, bytes2⟩, more2⟩ := of_bind more1 (le_of_rd bytes1)
    obtain ⟨count, p3, ⟨rfl, fits3, bytes3⟩, more3⟩ := of_bind more2 (le_of_rd bytes2)
    obtain ⟨data, p4, ⟨rfl, fits4, -⟩, more4⟩ := of_bind more3 (eq_of_take bytes3)
    cases more4
    exact ⟨mem_singleton.2 of, ⟨fits1, fits2, fits3, fits4⟩,
      by simp only [Fields.wire, append_assoc]⟩
  rcases chosen read with ⟨of, read⟩ | read
  · obtain ⟨fid, p1, ⟨rfl, fits1, -⟩, more1⟩ := of_bind read (le_of_rd bytes)
    cases more1
    exact ⟨by simpa [Fields.types] using of, fits1,
      by simp only [Fields.wire, ]⟩
  rcases chosen read with ⟨of, read⟩ | read
  · obtain ⟨fid, p1, ⟨rfl, fits1, bytes1⟩, more1⟩ := of_bind read (le_of_rd bytes)
    obtain ⟨nstat, p2, ⟨rfl, fits2, bytes2⟩, more2⟩ := of_bind more1 (le_of_rd bytes1)
    obtain ⟨stat, p3, ⟨rfl, fits3, -⟩, more3⟩ := of_bind more2 (eq_of_take bytes2)
    cases more3
    exact ⟨mem_singleton.2 of, ⟨fits1, fits2, fits3⟩,
      by simp only [Fields.wire, append_assoc]⟩
  rcases chosen read with ⟨of, read⟩ | read
  · obtain ⟨ename, p1, ⟨rfl, fits1, -⟩, more1⟩ := of_bind read (wstring_of_cgstring bytes)
    cases more1
    exact ⟨mem_singleton.2 of, fits1,
      by simp only [Fields.wire]⟩
  rcases chosen read with ⟨of, read⟩ | read
  · cases read
    exact ⟨by simpa [Fields.types] using of, trivial, rfl⟩
  rcases chosen read with ⟨of, read⟩ | read
  · obtain ⟨qid, p1, ⟨rfl, fits1, -⟩, more1⟩ := of_bind read (wqidbytes_of_cgqid bytes)
    cases more1
    exact ⟨by simpa [Fields.types] using of, fits1,
      by simp only [Fields.wire]⟩
  rcases chosen read with ⟨of, read⟩ | read
  · obtain ⟨nwqid, p1, ⟨rfl, fits1, bytes1⟩, more1⟩ := of_bind read (le_of_rd bytes)
    simp only at more1
    split at more1
    · cases more1
    rename_i few
    have ⟨⟨wqid, p2⟩, step2, last⟩ := bind_eq_some_iff.1 more1
    cases last
    obtain ⟨rfl, rfl, fits2, -⟩ := wqids_of_cgqids bytes1 step2
    exact ⟨mem_singleton.2 of, ⟨Nat.not_lt.1 few, fits2⟩,
      by simp only [Fields.wire, append_assoc]⟩
  rcases chosen read with ⟨of, read⟩ | read
  · obtain ⟨qid, p1, ⟨rfl, fits1, bytes1⟩, more1⟩ := of_bind read (wqidbytes_of_cgqid bytes)
    obtain ⟨iounit, p2, ⟨rfl, fits2, -⟩, more2⟩ := of_bind more1 (le_of_rd bytes1)
    cases more2
    exact ⟨by simpa [Fields.types] using of, ⟨fits1, fits2⟩,
      by simp only [Fields.wire, append_assoc]⟩
  rcases chosen read with ⟨of, read⟩ | read
  · obtain ⟨count, p1, ⟨rfl, fits1, bytes1⟩, more1⟩ := of_bind read (le_of_rd bytes)
    obtain ⟨data, p2, ⟨rfl, fits2, -⟩, more2⟩ := of_bind more1 (eq_of_take bytes1)
    cases more2
    exact ⟨mem_singleton.2 of, ⟨fits1, fits2⟩,
      by simp only [Fields.wire, append_assoc]⟩
  rcases chosen read with ⟨of, read⟩ | read
  · obtain ⟨count, p1, ⟨rfl, fits1, -⟩, more1⟩ := of_bind read (le_of_rd bytes)
    cases more1
    exact ⟨mem_singleton.2 of, fits1,
      by simp only [Fields.wire]⟩
  rcases chosen read with ⟨of, read⟩ | read
  · obtain ⟨nstat, p1, ⟨rfl, fits1, bytes1⟩, more1⟩ := of_bind read (le_of_rd bytes)
    obtain ⟨stat, p2, ⟨rfl, fits2, -⟩, more2⟩ := of_bind more1 (eq_of_take bytes1)
    cases more2
    exact ⟨mem_singleton.2 of, ⟨fits1, fits2⟩,
      by simp only [Fields.wire, append_assoc]⟩
  cases read

end Written

end Infernode.Lib9
