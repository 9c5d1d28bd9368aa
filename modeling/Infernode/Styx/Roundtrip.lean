import Infernode.Styx.Codec

/-!
Messages that are packed and unpacked again, by `appl/lib/styx.b` and by
`lib9/convM2S.c`.

Owns: the message of the C code for a message of the Limbo code, that the C code
decodes the bytes of every message, and the exact conditions of the round trip.
-/

namespace Infernode.Styx

open Text Lib9 Wire List

/-! ### The message of the C code -/

/-- The fields of the message in C, where a string is its bytes and a stat record is
left packed. -/
def TPick.fields : TPick → Fields
  | .readerror _ => .none
  | .version msize v => .version msize (cvtca v)
  | .auth afid uname aname => .auth afid (cvtca uname) (cvtca aname)
  | .attach fid afid uname aname => .attach fid afid (cvtca uname) (cvtca aname)
  | .flush oldtag => .flush oldtag
  | .walk fid newfid names => .walk fid newfid (names.map cvtca)
  | .«open» fid mode => .«open» fid mode
  | .create fid name perm mode => .create fid (cvtca name) perm mode
  | .read fid offset count => .read fid offset count
  | .write fid offset data => .write fid offset data.length data
  | .clunk fid => .fid fid
  | .stat fid => .fid fid
  | .remove fid => .fid fid
  | .wstat fid d => .wstat fid d.size (wdir d)

def RPick.fields : RPick → Fields
  | .readerror _ => .none
  | .version msize v => .version msize (cvtca v)
  | .auth aqid => .qid aqid
  | .attach qid => .qid qid
  | .flush => .none
  | .error ename => .error (cvtca ename)
  | .clunk => .none
  | .remove => .none
  | .wstat => .none
  | .walk qids => .rwalk qids
  | .create qid iounit => .ropen qid iounit
  | .«open» qid iounit => .ropen qid iounit
  | .read data => .rread data.length data
  | .write count => .rwrite count
  | .stat d => .rstat d.size (wdir d)

def Tmsg.fcall (t : Tmsg) : Fcall := ⟨t.mtype, t.tag, t.pick.fields⟩

def Rmsg.fcall (r : Rmsg) : Fcall := ⟨r.mtype, r.tag, r.pick.fields⟩

variable {s : Str} {pick : RPick} {mtype tag : Nat} {wire : Bytes} {t : Tmsg} {r : Rmsg}

theorem cgstring_wstr (text : Text16 s) (rest : Bytes) :
    cgstring (wstr s ++ rest) = some (cvtca s, rest) := by
  unfold cgstring wstr
  rw [append_assoc]
  exact andThen (rd_le 2 _ text.length) (take_append _ _)

theorem cgqid_eq (p : Bytes) : cgqid p = rqid p := rfl

theorem cgqids_eq (n : Nat) : ∀ p, cgqids n p = rqids n p := by
  induction n with
  | zero => exact fun _ => rfl
  | succ _ ih =>
    intro _
    simp only [cgqids, rqids, ih, cgqid_eq]

theorem cgnames_wstr {names : List Str} (texts : ∀ name ∈ names, Text16 name) (rest : Bytes) :
    cgnames names.length (names.flatMap wstr ++ rest) = some (names.map cvtca, rest) := by
  induction names with
  | nil => rfl
  | cons name _ ih =>
    have later := ih (forall_mem_cons.1 texts).2
    rw [length_cons, flatMap_cons, append_assoc, cgnames]
    exact andThen (cgstring_wstr (texts name (by simp)) _) (andThen later rfl)

section Fields

attribute [local irreducible] rd le Wire.take cgstring cgqid cgnames cgqids wstr wqid wdir

theorem TPick.convfields_wire {pick : TPick} (inRange : pick.InRange) (real : pick.mtype ≠ 0)
    (rest : Bytes) : convfields pick.mtype (pick.wire ++ rest) = some (pick.fields, rest) := by
  cases pick with
  | readerror _ => exact absurd rfl real
  | version _ _ =>
    simp only [TPick.wire, append_assoc]
    exact andThen (rd_le 4 _ inRange.1) (andThen (cgstring_wstr inRange.2 _) rfl)
  | auth _ _ _ =>
    simp only [TPick.wire, append_assoc]
    exact andThen (rd_le 4 _ inRange.1) (andThen (cgstring_wstr inRange.2.1 _)
      (andThen (cgstring_wstr inRange.2.2 _) rfl))
  | attach _ _ _ _ =>
    simp only [TPick.wire, append_assoc]
    exact andThen (rd_le 4 _ inRange.1) (andThen (rd_le 4 _ inRange.2.1)
      (andThen (cgstring_wstr inRange.2.2.1 _) (andThen (cgstring_wstr inRange.2.2.2 _) rfl)))
  | flush _ => exact andThen (rd_le 2 _ inRange) rfl
  | walk _ _ names =>
    simp only [TPick.wire, append_assoc]
    have few : names.length < 256 ^ 2 := lt_of_le_of_lt inRange.2.2.1 (by decide)
    refine andThen (rd_le 4 _ inRange.1) (andThen (rd_le 4 _ inRange.2.1)
      (andThen (rd_le 2 _ few) ?_))
    simp only [if_neg (Nat.not_lt.2 inRange.2.2.1)]
    exact andThen (cgnames_wstr inRange.2.2.2 _) rfl
  | «open» _ _ =>
    simp only [TPick.wire, append_assoc]
    exact andThen (rd_le 4 _ inRange.1) (andThen (rd_le 1 _ inRange.2) rfl)
  | create _ _ _ _ =>
    simp only [TPick.wire, append_assoc]
    exact andThen (rd_le 4 _ inRange.1) (andThen (cgstring_wstr inRange.2.1 _)
      (andThen (rd_le 4 _ inRange.2.2.1) (andThen (rd_le 1 _ inRange.2.2.2) rfl)))
  | read _ _ _ =>
    simp only [TPick.wire, append_assoc]
    exact andThen (rd_le 4 _ inRange.1) (andThen (rd_le 8 _ inRange.2.1)
      (andThen (rd_le 4 _ inRange.2.2) rfl))
  | write _ _ data =>
    simp only [TPick.wire, append_assoc]
    have counted : data.length < 256 ^ 4 := lt_of_lt_of_le inRange.2.2.2 (by decide)
    exact andThen (rd_le 4 _ inRange.1) (andThen (rd_le 8 _ inRange.2.1)
      (andThen (rd_le 4 _ counted) (andThen (take_append _ _) rfl)))
  | clunk _ => exact andThen (rd_le 4 _ inRange) rfl
  | stat _ => exact andThen (rd_le 4 _ inRange) rfl
  | remove _ => exact andThen (rd_le 4 _ inRange) rfl
  | wstat _ d =>
    simp only [TPick.wire, append_assoc]
    have record : Wire.take d.size (wdir d ++ rest) = some (wdir d, rest) := by
      rw [← length_wdir d]
      exact take_append _ _
    exact andThen (rd_le 4 _ inRange.1) (andThen (rd_le 2 _ inRange.2.size) (andThen record rfl))

theorem RPick.convfields_wire (inRange : pick.InRange) (real : pick.mtype ≠ 0) (rest : Bytes) :
    convfields pick.mtype (pick.wire ++ rest) = some (pick.fields, rest) := by
  cases pick with
  | readerror _ => exact absurd rfl real
  | version _ _ =>
    simp only [RPick.wire, append_assoc]
    exact andThen (rd_le 4 _ inRange.1) (andThen (cgstring_wstr inRange.2 _) rfl)
  | auth _ => exact andThen ((cgqid_eq _).trans (rqid_wqid inRange _)) rfl
  | attach _ => exact andThen ((cgqid_eq _).trans (rqid_wqid inRange _)) rfl
  | flush => rfl
  | error _ => exact andThen (cgstring_wstr inRange _) rfl
  | clunk => rfl
  | remove => rfl
  | wstat => rfl
  | walk qids =>
    simp only [RPick.wire, append_assoc]
    have few : qids.length < 256 ^ 2 := lt_of_le_of_lt inRange.1 (by decide)
    refine andThen (rd_le 2 _ few) ?_
    simp only [if_neg (Nat.not_lt.2 inRange.1)]
    exact andThen ((cgqids_eq _ _).trans (rqids_wqid inRange.2 _)) rfl
  | create _ _ =>
    simp only [RPick.wire, append_assoc]
    exact andThen ((cgqid_eq _).trans (rqid_wqid inRange.1 _)) (andThen (rd_le 4 _ inRange.2) rfl)
  | «open» _ _ =>
    simp only [RPick.wire, append_assoc]
    exact andThen ((cgqid_eq _).trans (rqid_wqid inRange.1 _)) (andThen (rd_le 4 _ inRange.2) rfl)
  | read data =>
    simp only [RPick.wire, append_assoc]
    have counted : data.length < 256 ^ 4 := lt_of_lt_of_le inRange.2 (by decide)
    exact andThen (rd_le 4 _ counted) (andThen (take_append _ _) rfl)
  | write _ => exact andThen (rd_le 4 _ inRange) rfl
  | stat d =>
    simp only [RPick.wire, append_assoc]
    have record : Wire.take d.size (wdir d ++ rest) = some (wdir d, rest) := by
      rw [← length_wdir d]
      exact take_append _ _
    exact andThen (rd_le 2 _ inRange.size) (andThen record rfl)

end Fields

theorem convM2S_wmsg {fields : Fields} (type : mtype < 256) (tagged : tag < 65536)
    (small : H + wire.length < 2147483648) (decoded : convfields mtype wire = some (fields, [])) :
    convM2S (wmsg mtype tag wire) = some ((wmsg mtype tag wire).length, ⟨mtype, tag, fields⟩) := by
  have long : ¬H + wire.length < 4 + 1 + 2 := by
    unfold H
    omega
  have counted : H + wire.length < 256 ^ 4 := lt_trans small (by decide)
  unfold convM2S
  rw [length_wmsg]
  refine andThen (rd_le 4 _ counted) ?_
  simp only [if_neg long]
  exact andThen (rd_le 1 _ type) (andThen (rd_le 2 _ tagged) (andThen decoded (if_pos rfl)))

/-! ### Unpacking what was packed -/

theorem wmsg_at {k i v : Nat} (front : Bytes) {rest : Bytes} (start : front.length = i) (small : v < 256 ^ k) :
    num k i (front ++ (le k v ++ rest)) = v := by
  subst start
  have read : rd k ((front ++ (le k v ++ rest)).drop front.length) = some (v, rest) := by
    rw [drop_left]
    exact rd_le k rest small
  exact num_of_rd read

theorem wmsg_size (small : H + wire.length < 2147483648) :
    num 4 0 (wmsg mtype tag wire) = H + wire.length :=
  wmsg_at [] rfl (lt_trans small (by decide))

theorem wmsg_type (mtype : Nat) (type : mtype < 256) : num 1 4 (wmsg mtype tag wire) = mtype :=
  wmsg_at _ (length_le 4 _) type

theorem wmsg_tag (tagged : tag < 65536) : num 2 5 (wmsg mtype tag wire) = tag := by
  rw [wmsg, ← append_assoc]
  exact wmsg_at _ (by simp) tagged

theorem wmsg_drop (mtype tag : Nat) (wire : Bytes) : (wmsg mtype tag wire).drop H = wire := by
  rw [wmsg, ← append_assoc, ← append_assoc]
  exact drop_left' (by simp [H])

/-- The bytes of a message are what its unpacking should return the message for. -/
theorem expected_wmsg {α : Type} {read : Nat → Bytes → Option (α × Bytes)} {pick : α}
    (type : mtype < 256) (tagged : tag < 65536) (small : H + wire.length < 2147483648)
    (found : read mtype wire = some (pick, [])) :
    Styx.expected read (wmsg mtype tag wire) =
      (((wmsg mtype tag wire).length : Int), some (tag, pick)) := by
  have length := length_wmsg mtype tag wire
  have whole : (wmsg mtype tag wire).take (H + wire.length) = wmsg mtype tag wire := by
    rw [← length, take_length]
  rw [Styx.expected, wmsg_size small, if_neg (by omega), whole, decode, if_neg (by omega),
    wmsg_type _ type, wmsg_drop, found, wmsg_tag tagged, length]

theorem headerSound_wmsg {reply : Bool} {FieldsSound : Bytes → Prop}
    (small : H + wire.length < 2147483648) (known : mtype < Tmax)
    (parity : decide (mtype % 2 = 1) = reply) (enough : hdrlen mtype ≤ H + wire.length) :
    HeaderSound reply FieldsSound (wmsg mtype tag wire) ↔ FieldsSound (wmsg mtype tag wire) := by
  have length := length_wmsg mtype tag wire
  have whole : (wmsg mtype tag wire).take (H + wire.length) = wmsg mtype tag wire := by
    rw [← length, take_length]
  have type : mtype < 256 := lt_trans known (by decide)
  have accepted : ¬Refused reply (wmsg mtype tag wire) := by
    unfold Refused
    rw [wmsg_type _ type, length]
    simp only [not_or, not_not]
    exact ⟨Nat.not_le.2 known, parity, Nat.not_lt.2 enough⟩
  unfold HeaderSound
  rw [wmsg_size small, whole, length]
  constructor
  · rintro (short | ⟨_, incomplete | ⟨_, refused | ⟨_, sound⟩⟩⟩)
    · omega
    · omega
    · exact absurd refused accepted
    · exact sound
  · intro sound
    unfold H at small ⊢
    exact Or.inr ⟨small, Or.inr ⟨by omega, Or.inr ⟨by omega, sound⟩⟩⟩

/-! ### Bytes -/

theorem isBytes_cvtca (runes : Runes s) : IsBytes (cvtca s) := by
  intro _ member
  have ⟨c, inside, byte⟩ := mem_flatMap.1 member
  have rune := runes c inside
  unfold runetochar at byte
  split_ifs at byte <;> simp only [mem_cons, not_mem_nil, or_false] at byte <;> omega

theorem isBytes_wstr (text : Text16 s) : IsBytes (wstr s) :=
  IsBytes.append (isBytes_le 2 _) (isBytes_cvtca text.1)

theorem isBytes_wqid (q : Qid) : IsBytes (wqid q) :=
  IsBytes.append (isBytes_le 1 _) (IsBytes.append (isBytes_le 4 _) (isBytes_le 8 _))

theorem isBytes_wdir {d : Dir} (inRange : d.InRange) : IsBytes (wdir d) := by
  unfold wdir
  refine IsBytes.append (isBytes_le 2 _) (IsBytes.append (isBytes_le 2 _)
    (IsBytes.append (isBytes_le 4 _) (IsBytes.append (isBytes_wqid _) (IsBytes.append (isBytes_le 4 _)
      (IsBytes.append (isBytes_le 4 _) (IsBytes.append (isBytes_le 4 _)
        (IsBytes.append (isBytes_le 8 _) ?_)))))))
  exact IsBytes.append (isBytes_wstr inRange.name) (IsBytes.append (isBytes_wstr inRange.uid)
    (IsBytes.append (isBytes_wstr inRange.gid) (isBytes_wstr inRange.muid)))

theorem isBytes_flatMap {α : Type} {f : α → Bytes} {values : List α}
    (each : ∀ value ∈ values, IsBytes (f value)) : IsBytes (values.flatMap f) := by
  intro b member
  have ⟨value, inside, byte⟩ := mem_flatMap.1 member
  exact each value inside b byte

theorem isBytes_wmsg (bytes : IsBytes wire) : IsBytes (wmsg mtype tag wire) :=
  IsBytes.append (isBytes_le 4 _) (IsBytes.append (isBytes_le 1 _) (IsBytes.append (isBytes_le 2 _) bytes))

theorem TPick.isBytes_wire {pick : TPick} (inRange : pick.InRange) : IsBytes pick.wire := by
  cases pick with
  | readerror _ => exact fun b member => absurd member not_mem_nil
  | version _ _ => exact IsBytes.append (isBytes_le 4 _) (isBytes_wstr inRange.2)
  | auth _ _ _ =>
    exact IsBytes.append (isBytes_le 4 _)
      (IsBytes.append (isBytes_wstr inRange.2.1) (isBytes_wstr inRange.2.2))
  | attach _ _ _ _ =>
    exact IsBytes.append (isBytes_le 4 _) (IsBytes.append (isBytes_le 4 _)
      (IsBytes.append (isBytes_wstr inRange.2.2.1) (isBytes_wstr inRange.2.2.2)))
  | walk _ _ _ =>
    exact IsBytes.append (isBytes_le 4 _) (IsBytes.append (isBytes_le 4 _)
      (IsBytes.append (isBytes_le 2 _)
        (isBytes_flatMap fun name member => isBytes_wstr (inRange.2.2.2 name member))))
  | «open» _ _ => exact IsBytes.append (isBytes_le 4 _) (isBytes_le 1 _)
  | create _ _ _ _ =>
    exact IsBytes.append (isBytes_le 4 _) (IsBytes.append (isBytes_wstr inRange.2.1)
      (IsBytes.append (isBytes_le 4 _) (isBytes_le 1 _)))
  | read _ _ _ =>
    exact IsBytes.append (isBytes_le 4 _) (IsBytes.append (isBytes_le 8 _) (isBytes_le 4 _))
  | write _ _ _ =>
    exact IsBytes.append (isBytes_le 4 _) (IsBytes.append (isBytes_le 8 _)
      (IsBytes.append (isBytes_le 4 _) inRange.2.2.1))
  | flush _ => exact isBytes_le 2 _
  | clunk fid | stat fid | remove fid => exact isBytes_le 4 _
  | wstat _ _ =>
    exact IsBytes.append (isBytes_le 4 _)
      (IsBytes.append (isBytes_le 2 _) (isBytes_wdir inRange.2))

theorem RPick.isBytes_wire (inRange : pick.InRange) : IsBytes pick.wire := by
  cases pick with
  | readerror error | flush | clunk | remove | wstat =>
    exact fun b member => absurd member not_mem_nil
  | version _ _ => exact IsBytes.append (isBytes_le 4 _) (isBytes_wstr inRange.2)
  | auth qid | attach qid => exact isBytes_wqid qid
  | error _ => exact isBytes_wstr inRange
  | walk _ =>
    exact IsBytes.append (isBytes_le 2 _) (isBytes_flatMap fun q _ => isBytes_wqid q)
  | create qid iounit | «open» qid iounit =>
    exact IsBytes.append (isBytes_wqid qid) (isBytes_le 4 _)
  | read _ => exact IsBytes.append (isBytes_le 4 _) inRange.1
  | write _ => exact isBytes_le 4 _
  | stat _ => exact IsBytes.append (isBytes_le 2 _) (isBytes_wdir inRange)

/-! ### The round trip -/

/-- The message packs to as many bytes as its packed size says, these unpack to the
message, and the C code decodes them to the same message. -/
def Tmsg.RoundTrips (t : Tmsg) : Prop :=
  ∃ d, t.pack = some d ∧ t.packedsize = d.length ∧ Tmsg.unpack d = some ((d.length : Int), some t) ∧
    convM2S d = some (d.length, t.fcall)

def Rmsg.RoundTrips (r : Rmsg) : Prop :=
  ∃ d, r.pack = some d ∧ r.packedsize = d.length ∧ Rmsg.unpack d = some ((d.length : Int), some r) ∧
    convM2S d = some (d.length, r.fcall)

/-- It is a message of the protocol, its size is an `int`, and a stat record in a wstat
takes fewer than 256 bytes. -/
def TPick.Fits : TPick → Prop
  | .readerror _ => False
  | .write _ _ data => H + 16 + data.length < 2 ^ 31
  | .wstat _ d => d.size < 256
  | _ => True

def RPick.Fits : RPick → Prop
  | .readerror _ => False
  | .read data => H + 4 + data.length < 2 ^ 31
  | _ => True

theorem length_names {names : List Str} (texts : ∀ name ∈ names, Text16 name) :
    (names.flatMap wstr).length ≤ names.length * (2 + 65536) := by
  induction names with
  | nil => exact Nat.zero_le _
  | cons name _ ih =>
    have first := (texts name (by simp)).2
    have later := ih (forall_mem_cons.1 texts).2
    rw [flatMap_cons, length_append, length_cons, length_wstr]
    omega

theorem length_qids (qids : List Qid) : (qids.flatMap wqid).length = qids.length * 13 := by
  induction qids with
  | nil => rfl
  | cons _ _ ih =>
    rw [flatMap_cons, length_append, length_cons, ih]
    simp only [wqid, length_append, length_le]
    omega

/-- A write is the only T-message that can be too large. -/
theorem TPick.wire_small {pick : TPick} (inRange : pick.InRange)
    (write : ∀ fid offset data, pick = .write fid offset data → H + 16 + data.length < 2147483648) :
    H + pick.wire.length < 2147483648 := by
  unfold H at *
  cases pick with
  | readerror _ => exact of_decide_eq_true rfl
  | version _ _ =>
    have text1 := inRange.2.2
    simp only [TPick.wire, length_append, length_le, length_wstr]
    omega
  | auth _ _ _ =>
    have text1 := inRange.2.1.2
    have text2 := inRange.2.2.2
    simp only [TPick.wire, length_append, length_le, length_wstr]
    omega
  | attach _ _ _ _ =>
    have text1 := inRange.2.2.1.2
    have text2 := inRange.2.2.2.2
    simp only [TPick.wire, length_append, length_le, length_wstr]
    omega
  | walk _ _ names =>
    have few : names.length ≤ 16 := inRange.2.2.1
    have length1 := length_names inRange.2.2.2
    simp only [TPick.wire, length_append, length_le]
    omega
  | create _ _ _ _ =>
    have text1 := inRange.2.1.2
    simp only [TPick.wire, length_append, length_le, length_wstr]
    omega
  | write fid offset data =>
    have small := write fid offset data rfl
    simp only [TPick.wire, length_append, length_le]
    omega
  | wstat _ _ =>
    have small := inRange.2.size
    simp only [TPick.wire, length_append, length_le, length_wdir]
    omega
  | flush oldtag | «open» fid mode | read fid offset count | clunk fid | stat fid | remove fid =>
    simp only [TPick.wire, length_append, length_le]
    omega

theorem RPick.wire_small (inRange : pick.InRange)
    (read : ∀ data, pick = .read data → H + 4 + data.length < 2147483648) :
    H + pick.wire.length < 2147483648 := by
  unfold H at *
  cases pick with
  | readerror error | flush | clunk | remove | wstat => exact of_decide_eq_true rfl
  | version _ _ =>
    have text1 := inRange.2.2
    simp only [RPick.wire, length_append, length_le, length_wstr]
    omega
  | error _ =>
    have text1 := inRange.2
    simp only [RPick.wire, length_wstr]
    omega
  | walk qids =>
    have few : qids.length ≤ 16 := inRange.1
    have length1 := length_qids qids
    simp only [RPick.wire, length_append, length_le]
    omega
  | read data =>
    have small := read data rfl
    simp only [RPick.wire, length_append, length_le]
    omega
  | stat _ =>
    have small := inRange.size
    simp only [RPick.wire, length_append, length_le, length_wdir]
    omega
  | auth qid | attach qid | create qid iounit | «open» qid iounit | write count =>
    simp only [RPick.wire, length_wqid, length_append, length_le]
    omega

theorem TPick.mtype_known (pick : TPick) : pick.mtype < Tmax ∧ pick.mtype % 2 = 0 := by
  cases pick <;> simp +decide only [TPick.mtype]

theorem RPick.mtype_known (real : pick.mtype ≠ 0) : pick.mtype < Tmax ∧ pick.mtype % 2 = 1 := by
  cases pick <;> first | exact absurd rfl real | simp +decide only [RPick.mtype]

/-- A wstat is sound in its bytes if its record takes fewer than 256 bytes. -/
theorem Tmsg.fieldsSound_wstat {fid : Nat} {d : Dir} (inRange : d.InRange) :
    Tmsg.FieldsSound (Tmsg.wire ⟨tag, .wstat fid d⟩) ↔ d.size < 256 := by
  have atLeast := d.le_size
  unfold STATFIXLEN at atLeast
  have record := rdir_wdir inRange []
  rw [append_nil] at record
  have front : statfront (wdir d) = d.size := by
    rw [statfront, record]
    rfl
  have split : Tmsg.wire ⟨tag, .wstat fid d⟩ =
      (le 4 (H + (TPick.wstat fid d).wire.length) ++ (le 1 Twstat ++ (le 2 tag ++ le 4 fid))) ++
        (le 2 d.size ++ wdir d) := by
    simp only [Tmsg.wire, wmsg, TPick.wire, append_assoc]
    rfl
  have type : num 1 4 (Tmsg.wire ⟨tag, .wstat fid d⟩) = Twstat := wmsg_type Twstat (by decide)
  have count : num 2 11 (Tmsg.wire ⟨tag, .wstat fid d⟩) = d.size := by
    rw [split]
    exact wmsg_at _ (by simp) inRange.size
  have behind : (Tmsg.wire ⟨tag, .wstat fid d⟩).drop 13 = wdir d := by
    rw [split, ← append_assoc]
    exact drop_left' (by simp)
  have length : (Tmsg.wire ⟨tag, .wstat fid d⟩).length = 13 + d.size := by
    rw [Tmsg.wire, length_wmsg]
    simp only [TPick.wire, length_append, length_le, length_wdir, H]
    omega
  rw [Tmsg.FieldsSound, if_pos type, behind, count, front, length, if_pos (by omega)]

theorem Tmsg.mtype_write (isWrite : t.mtype = Twrite) :
    ∃ tag fid offset data, t = ⟨tag, .write fid offset data⟩ := by
  have ⟨tag, pick⟩ := t
  cases pick with
  | write fid offset data => exact ⟨tag, fid, offset, data, rfl⟩
  | _ => simp +decide only [Tmsg.mtype, TPick.mtype] at isWrite

theorem Rmsg.mtype_read (isRead : r.mtype = Rread) : ∃ tag data, r = ⟨tag, .read data⟩ := by
  have ⟨tag, pick⟩ := r
  cases pick with
  | read data => exact ⟨tag, data, rfl⟩
  | _ => simp +decide only [Rmsg.mtype, RPick.mtype] at isRead

/-- The other messages are sound in their bytes. -/
theorem Tmsg.fieldsSound_wire (inRange : t.InRange) (real : t.mtype ≠ 0)
    (notWstat : t.mtype ≠ Twstat) : Tmsg.FieldsSound t.wire := by
  have type : t.mtype < 256 := lt_trans (TPick.mtype_known t.pick).1 (by decide)
  have found : readT t.mtype (t.pick.wire ++ []) = some (t.pick, []) := readT_wire inRange.2 real []
  rw [append_nil] at found
  rw [Tmsg.FieldsSound, Tmsg.wire, wmsg_type _ type, wmsg_drop, if_neg notWstat, found]
  refine ⟨fun isWrite => ?_, fun other rest which => by cases which; rfl⟩
  obtain ⟨tag, fid, offset, data, rfl⟩ := Tmsg.mtype_write isWrite
  have counted : data.length < 2 ^ 31 := inRange.2.2.2.2
  have split : ∀ size mtype, le 4 size ++ (le 1 mtype ++ (le 2 tag ++
      TPick.wire (.write fid offset data))) =
      (le 4 size ++ (le 1 mtype ++ (le 2 tag ++ (le 4 fid ++ le 8 offset)))) ++
        (le 4 data.length ++ data) := by
    intro _ _
    simp only [TPick.wire, append_assoc]
  rw [wmsg, split, wmsg_at _ (by simp) (lt_trans counted (by decide))]
  exact counted

theorem Rmsg.fieldsSound_wire (inRange : r.InRange) (real : r.mtype ≠ 0)
    (small : r.size < 2147483648) : Rmsg.FieldsSound r.wire := by
  have type : r.mtype < 256 := lt_trans (RPick.mtype_known real).1 (by decide)
  have found : readR r.mtype (r.pick.wire ++ []) = some (r.pick, []) := readR_wire inRange.2 real []
  rw [append_nil] at found
  rw [Rmsg.FieldsSound, Rmsg.wire, wmsg_type _ type, wmsg_drop, found]
  refine ⟨fun isRead => ?_, fun other rest which => by cases which; rfl⟩
  obtain ⟨tag, data, rfl⟩ := Rmsg.mtype_read isRead
  have split : ∀ size mtype, le 4 size ++ (le 1 mtype ++ (le 2 tag ++ RPick.wire (.read data))) =
      (le 4 size ++ (le 1 mtype ++ le 2 tag)) ++ (le 4 data.length ++ data) := by
    intro _ _
    simp only [RPick.wire, append_assoc]
  simp only [Rmsg.size, RPick.wire, length_append, length_le, H] at small
  rw [wmsg, split, wmsg_at _ (by simp [H]) (by omega)]
  omega

theorem Tmsg.wire_iff (inRange : t.InRange) (real : t.mtype ≠ 0) (small : t.size < 2147483648)
    (bytes : IsBytes t.wire) :
    (Tmsg.unpack t.wire = some ((t.wire.length : Int), some t) ↔ Tmsg.FieldsSound t.wire) ∧
      convM2S t.wire = some (t.wire.length, t.fcall) := by
  have known := TPick.mtype_known t.pick
  have type : t.mtype < 256 := lt_trans known.1 (by decide)
  have found : readT t.mtype (t.pick.wire ++ []) = some (t.pick, []) := readT_wire inRange.2 real []
  have decoded : convfields t.mtype (t.pick.wire ++ []) = some (t.pick.fields, []) :=
    TPick.convfields_wire inRange.2 real []
  rw [append_nil] at found decoded
  have result : Tmsg.expected t.wire = ((t.wire.length : Int), some t) := by
    rw [Tmsg.expected, Tmsg.wire, expected_wmsg type inRange.1 small found]
    rfl
  refine ⟨?_, convM2S_wmsg type inRange.1 small decoded⟩
  have sized : t.wire.length < 2147483648 := by
    rw [Tmsg.wire, length_wmsg]
    exact small
  rw [← result, Tmsg.unpack_iff bytes sized]
  have length : hdrlen t.mtype ≤ H + t.pick.wire.length := (readT_length found).2.2
  exact headerSound_wmsg small known.1 (decide_eq_false (by rw [Tmsg.mtype]; omega)) length

theorem Rmsg.wire_iff (inRange : r.InRange) (real : r.mtype ≠ 0) (small : r.size < 2147483648)
    (bytes : IsBytes r.wire) :
    (Rmsg.unpack r.wire = some ((r.wire.length : Int), some r) ↔ Rmsg.FieldsSound r.wire) ∧
      convM2S r.wire = some (r.wire.length, r.fcall) := by
  have known := RPick.mtype_known real
  have type : r.mtype < 256 := lt_trans known.1 (by decide)
  have found : readR r.mtype (r.pick.wire ++ []) = some (r.pick, []) := readR_wire inRange.2 real []
  have decoded : convfields r.mtype (r.pick.wire ++ []) = some (r.pick.fields, []) :=
    RPick.convfields_wire inRange.2 real []
  rw [append_nil] at found decoded
  have result : Rmsg.expected r.wire = ((r.wire.length : Int), some r) := by
    rw [Rmsg.expected, Rmsg.wire, expected_wmsg type inRange.1 small found]
    rfl
  refine ⟨?_, convM2S_wmsg type inRange.1 small decoded⟩
  have sized : r.wire.length < 2147483648 := by
    rw [Rmsg.wire, length_wmsg]
    exact small
  rw [← result, Rmsg.unpack_iff bytes sized]
  have length : hdrlen r.mtype ≤ H + r.pick.wire.length := (readR_length found).2.2
  exact headerSound_wmsg small known.1 (decide_eq_true known.2) length

theorem Tmsg.not_roundTrips_nil (nothing : t.pack = some []) : ¬t.RoundTrips := by
  rintro ⟨d, packed, size, unpacked, _⟩
  rw [nothing] at packed
  cases packed
  cases unpacked

theorem Rmsg.not_roundTrips_nil (nothing : r.pack = some []) : ¬r.RoundTrips := by
  rintro ⟨d, packed, size, unpacked, _⟩
  rw [nothing] at packed
  cases packed
  cases unpacked

/-- A message whose size is no `int` packs to nothing. -/
theorem Tmsg.pack_large (inRange : t.InRange) (real : t.mtype ≠ 0) (large : 2147483648 ≤ t.size)
    (word : t.size < 4294967296) : t.pack = some [] := by
  have length : t.size = hdrlen t.mtype + t.pick.varsize := TPick.length_wire inRange.2 real
  have packed : t.packedsize = t.size := by
    rw [Tmsg.packedsize, if_neg real, ← length]
    exact Nat.mod_eq_of_lt word
  rw [Tmsg.pack, packed]
  exact if_pos (Or.inr large)

theorem Rmsg.pack_large (inRange : r.InRange) (real : r.mtype ≠ 0) (large : 2147483648 ≤ r.size)
    (word : r.size < 4294967296) : r.pack = some [] := by
  have length : r.size = hdrlen r.mtype + r.pick.varsize := RPick.length_wire inRange.2 real
  have packed : r.packedsize = r.size := by
    rw [Rmsg.packedsize, if_neg real, ← length]
    exact Nat.mod_eq_of_lt word
  rw [Rmsg.pack, packed]
  exact if_pos (Or.inr large)

/-- A message of a size that is an `int` comes back if its fields are sound. -/
theorem Tmsg.roundTrips_of_small (inRange : t.InRange) (real : t.mtype ≠ 0)
    (small : t.size < 2147483648) : t.RoundTrips ↔ Tmsg.FieldsSound t.wire := by
  have ⟨sized, packed⟩ := Tmsg.pack_eq inRange real small
  have ⟨unpacked, decoded⟩ := Tmsg.wire_iff inRange real small
    (isBytes_wmsg (TPick.isBytes_wire inRange.2))
  have length : t.wire.length = t.size := length_wmsg _ _ _
  rw [← unpacked]
  constructor
  · rintro ⟨d, same, _, result, _⟩
    rw [packed] at same
    cases same
    exact result
  · exact fun result => ⟨t.wire, packed, by rw [sized, length], result, decoded⟩

theorem Rmsg.roundTrips_of_small (inRange : r.InRange) (real : r.mtype ≠ 0)
    (small : r.size < 2147483648) : r.RoundTrips := by
  have ⟨sized, packed⟩ := Rmsg.pack_eq inRange real small
  have ⟨unpacked, decoded⟩ := Rmsg.wire_iff inRange real small
    (isBytes_wmsg (RPick.isBytes_wire inRange.2))
  have length : r.wire.length = r.size := length_wmsg _ _ _
  exact ⟨r.wire, packed, by rw [sized, length],
    unpacked.2 (Rmsg.fieldsSound_wire inRange real small), decoded⟩

theorem Tmsg.roundTrips_iff (inRange : t.InRange) : t.RoundTrips ↔ t.pick.Fits := by
  have ⟨tag, pick⟩ := t
  cases pick with
  | readerror _ => exact iff_of_false (Tmsg.not_roundTrips_nil rfl) id
  | write fid offset data =>
    have counted : data.length < 2147483648 := inRange.2.2.2.2
    have size : Tmsg.size ⟨tag, .write fid offset data⟩ = 23 + data.length := by
      simp only [Tmsg.size, TPick.wire, length_append, length_le, H]
      omega
    have real : Tmsg.mtype ⟨tag, .write fid offset data⟩ ≠ 0 := by
      change Twrite ≠ 0
      decide
    change _ ↔ 23 + data.length < 2147483648
    rw [← size]
    by_cases small : Tmsg.size ⟨tag, .write fid offset data⟩ < 2147483648
    · rw [Tmsg.roundTrips_of_small inRange real small]
      exact iff_of_true (Tmsg.fieldsSound_wire inRange real (by change Twrite ≠ Twstat; decide)) small
    · exact iff_of_false (Tmsg.not_roundTrips_nil
        (Tmsg.pack_large inRange real (Nat.not_lt.1 small) (by omega))) small
  | wstat _ _ =>
    have small := TPick.wire_small inRange.2 (by intro _ _ _ same; cases same)
    rw [Tmsg.roundTrips_of_small inRange (by change Twstat ≠ 0; decide) small]
    exact Tmsg.fieldsSound_wstat inRange.2.2
  | _ =>
    have small := TPick.wire_small inRange.2 (by intro _ _ _ same; cases same)
    refine (Tmsg.roundTrips_of_small inRange ?_ small).trans
      (iff_of_true (Tmsg.fieldsSound_wire inRange ?_ ?_) trivial)
    all_goals simp +decide only [Tmsg.mtype, TPick.mtype]

theorem Rmsg.roundTrips_iff (inRange : r.InRange) : r.RoundTrips ↔ r.pick.Fits := by
  have ⟨tag, pick⟩ := r
  cases pick with
  | readerror _ => exact iff_of_false (Rmsg.not_roundTrips_nil rfl) id
  | read data =>
    have counted : data.length < 2147483648 := inRange.2.2
    have size : Rmsg.size ⟨tag, .read data⟩ = 11 + data.length := by
      simp only [Rmsg.size, RPick.wire, length_append, length_le, H]
      omega
    have real : Rmsg.mtype ⟨tag, .read data⟩ ≠ 0 := by
      change Rread ≠ 0
      decide
    change _ ↔ 11 + data.length < 2147483648
    rw [← size]
    by_cases small : Rmsg.size ⟨tag, .read data⟩ < 2147483648
    · exact iff_of_true (Rmsg.roundTrips_of_small inRange real small) small
    · exact iff_of_false (Rmsg.not_roundTrips_nil
        (Rmsg.pack_large inRange real (Nat.not_lt.1 small) (by omega))) small
  | _ =>
    have small := RPick.wire_small inRange.2 (by intro _ same; cases same)
    refine iff_of_true (Rmsg.roundTrips_of_small inRange ?_ small) trivial
    simp +decide only [Rmsg.mtype, RPick.mtype]

/-! ### The codec -/

/-- A message in range survives packing exactly if it fits, and an array is unpacked as
it should be exactly if its header and its fields are sound. -/
theorem codec_iff (t : Tmsg) (r : Rmsg) (b : Bytes) :
    (t.InRange → (t.RoundTrips ↔ t.pick.Fits)) ∧
    (r.InRange → (r.RoundTrips ↔ r.pick.Fits)) ∧
    (IsBytes b → b.length < 2147483648 →
      (Tmsg.unpack b = some (Tmsg.expected b) ↔ HeaderSound false Tmsg.FieldsSound b) ∧
      (Rmsg.unpack b = some (Rmsg.expected b) ↔ HeaderSound true Rmsg.FieldsSound b)) :=
  ⟨fun inRange => Tmsg.roundTrips_iff inRange, fun inRange => Rmsg.roundTrips_iff inRange,
    fun bytes short => ⟨Tmsg.unpack_iff bytes short, Rmsg.unpack_iff bytes short⟩⟩

theorem codec_iff_clunk :
    (Tmsg.RoundTrips ⟨7, .clunk 5⟩ ↔ TPick.Fits (.clunk 5)) ∧
    (Rmsg.RoundTrips ⟨7, .write 3⟩ ↔ RPick.Fits (.write 3)) ∧
    (Tmsg.unpack [11, 0, 0, 0, 120, 7, 0, 5, 0, 0, 0] =
        some (Tmsg.expected [11, 0, 0, 0, 120, 7, 0, 5, 0, 0, 0]) ↔
      HeaderSound false Tmsg.FieldsSound [11, 0, 0, 0, 120, 7, 0, 5, 0, 0, 0]) ∧
    (Rmsg.unpack [11, 0, 0, 0, 120, 7, 0, 5, 0, 0, 0] =
        some (Rmsg.expected [11, 0, 0, 0, 120, 7, 0, 5, 0, 0, 0]) ↔
      HeaderSound true Rmsg.FieldsSound [11, 0, 0, 0, 120, 7, 0, 5, 0, 0, 0]) :=
  have sound := codec_iff ⟨7, .clunk 5⟩ ⟨7, .write 3⟩ [11, 0, 0, 0, 120, 7, 0, 5, 0, 0, 0]
  ⟨sound.1 ⟨by decide, (by decide : 5 < 2 ^ 32)⟩, sound.2.1 ⟨by decide, (by decide : 3 < 2 ^ 32)⟩,
    sound.2.2 (by decide) (by decide)⟩

def longStat : Dir := { zerodir with name := List.replicate 207 97 }

theorem longStat_inRange : longStat.InRange where
  name := by unfold Text16 Runes; decide +kernel
  uid := by unfold Text16 Runes; decide
  gid := by unfold Text16 Runes; decide
  muid := by unfold Text16 Runes; decide
  qid := by unfold Qid.InRange; decide
  mode := by decide
  atime := by decide
  mtime := by decide
  length := by decide
  dtype := by decide
  dev := by decide
  size := by decide +kernel

/-- A size with the top bit set and a tiny size raise an exception, a message with a byte
behind its fields is returned with another count than its size, and a wstat with a stat
record of 256 bytes does not come back. -/
theorem codec_fails :
    Tmsg.unpack [0, 0, 0, 128, 120, 0, 0] = none ∧ Rmsg.unpack [0, 0, 0, 0, 121, 0, 0] = none ∧
    Rmsg.unpack [8, 0, 0, 0, 121, 0, 0, 0] = some (7, some ⟨0, .clunk⟩) ∧
    ¬Tmsg.RoundTrips ⟨0, .wstat 0 longStat⟩ := by
  refine ⟨by decide, by decide, by decide, fun comesBack => ?_⟩
  have inRange : Tmsg.InRange ⟨0, .wstat 0 longStat⟩ := ⟨by decide, by decide, longStat_inRange⟩
  have short : longStat.size < 256 := (Tmsg.roundTrips_iff inRange).1 comesBack
  exact absurd short (by decide +kernel)

end Infernode.Styx
