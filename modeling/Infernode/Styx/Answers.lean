import Infernode.Styx.Fidtable
import Infernode.Styx.Format

/-!
That a file server answers.

Owns: when packing a reply cannot fail; that every message that the library handles gets one
reply, with its own tag, when the navigator's texts are short.

Does not own: the fid table, and what an application does with a message itself.
-/

namespace Infernode.Styx

open Text Wire Lib9

/-! ### Packing -/

variable {d : Bytes} {o : Nat} {pick : RPick}

theorem put_some (bytes : Bytes) (fits : o + bytes.length ≤ d.length) :
    ∃ after, put d o bytes = some after ∧ after.length = d.length := by
  have written : put d o bytes = some (d.take o ++ bytes ++ d.drop (o + bytes.length)) :=
    if_pos fits
  exact ⟨_, written, length_put written⟩

theorem pqid_some (q : Qid) (fits : o + 13 ≤ d.length) :
    ∃ after, pqid d o q = some after ∧ after.length = d.length := by
  have ⟨d1, first, _⟩ := put_some (d := d) (o := o) (le 1 q.qtype)
    (by rw [length_le]; omega)
  have ⟨d2, second, _⟩ := put_some (d := d1) (o := o + 1) (le 4 q.vers)
    (by rw [length_le]; omega)
  have ⟨d3, third, _⟩ := put_some (d := d2) (o := o + 5) (le 8 q.path)
    (by rw [length_le]; omega)
  exact ⟨d3, andThen first (andThen second third), by omega⟩

theorem pstring_some {s : Str} (fits : o + 2 + utflen s ≤ d.length) :
    ∃ after, pstring d o s = some (after, o + 2 + utflen s) ∧ after.length = d.length := by
  rw [utflen_eq] at fits ⊢
  have ⟨d1, first, _⟩ := put_some (d := d) (o := o) (le 2 (cvtca s).length)
    (by rw [length_le]; omega)
  have ⟨d2, second, _⟩ := put_some (d := d1) (o := o + 2) (cvtca s) (by omega)
  exact ⟨d2, andThen first (andThen second rfl), by omega⟩

theorem pqids_some (qids : List Qid) : ∀ {d : Bytes} {o : Nat},
    o + 13 * qids.length ≤ d.length → ∃ after, pqids d o qids = some after := by
  induction qids with
  | nil => exact fun _ => ⟨_, rfl⟩
  | cons q _ ih =>
    intro d o fits
    rw [List.length_cons] at fits
    have ⟨d1, first, _⟩ := pqid_some (d := d) (o := o) q (by omega)
    have ⟨d2, rest⟩ := ih (d := d1) (o := o + 13) (by omega)
    exact ⟨d2, andThen first rest⟩

def Short (s : Str) : Prop := utflen s < 65536

instance (s : Str) : Decidable (Short s) := inferInstanceAs (Decidable (utflen s < 65536))

structure Dir.Short (d : Dir) : Prop where
  name : Styx.Short d.name
  uid : Styx.Short d.uid
  gid : Styx.Short d.gid
  muid : Styx.Short d.muid

theorem packdirsize_short {d : Dir} (short : d.Short) : packdirsize d =
    49 + utflen d.name + utflen d.uid + utflen d.gid + utflen d.muid ∧ packdirsize d < 262193 := by
  have name : utflen d.name < 65536 := short.name
  have uid : utflen d.uid < 65536 := short.uid
  have gid : utflen d.gid < 65536 := short.gid
  have muid : utflen d.muid < 65536 := short.muid
  have sized : packdirsize d =
      49 + utflen d.name + utflen d.uid + utflen d.gid + utflen d.muid := by
    unfold packdirsize int32 STATFIXLEN
    exact Nat.mod_eq_of_lt (by omega)
  omega

theorem packdir_some {d : Dir} (short : d.Short) :
    ∃ a, packdir d = some a ∧ a.length = packdirsize d := by
  have ⟨_, _⟩ := packdirsize_short short
  have made : newarray (packdirsize d) = some (List.replicate (packdirsize d) 0) :=
    if_pos (by omega)
  have length0 : (List.replicate (packdirsize d) (0 : Nat)).length = packdirsize d :=
    List.length_replicate
  have ⟨a1, put1, _⟩ := put_some (d := List.replicate (packdirsize d) 0) (o := 0)
    (le 2 (packdirsize d + 4294967296 - 2)) (by rw [length_le]; omega)
  have ⟨a2, put2, _⟩ := put_some (d := a1) (o := 2) (le 2 d.dtype)
    (by rw [length_le]; omega)
  have ⟨a3, put3, _⟩ := put_some (d := a2) (o := 4) (le 4 d.dev) (by rw [length_le]; omega)
  have ⟨a4, put4, _⟩ := pqid_some (d := a3) (o := 8) d.qid (by omega)
  have ⟨a5, put5, _⟩ := put_some (d := a4) (o := 21) (le 4 d.mode)
    (by rw [length_le]; omega)
  have ⟨a6, put6, _⟩ := put_some (d := a5) (o := 25) (le 4 d.atime)
    (by rw [length_le]; omega)
  have ⟨a7, put7, _⟩ := put_some (d := a6) (o := 29) (le 4 d.mtime)
    (by rw [length_le]; omega)
  have ⟨a8, put8, _⟩ := put_some (d := a7) (o := 33) (le 8 d.length)
    (by rw [length_le]; omega)
  have ⟨a9, put9, _⟩ := pstring_some (d := a8) (o := 41) (s := d.name) (by omega)
  have ⟨a10, put10, _⟩ := pstring_some (d := a9) (o := 41 + 2 + utflen d.name)
    (s := d.uid) (by omega)
  have ⟨a11, put11, _⟩ := pstring_some (d := a10)
    (o := 41 + 2 + utflen d.name + 2 + utflen d.uid) (s := d.gid) (by omega)
  have ⟨a12, put12, _⟩ := pstring_some (d := a11)
    (o := 41 + 2 + utflen d.name + 2 + utflen d.uid + 2 + utflen d.gid) (s := d.muid) (by omega)
  refine ⟨a12, ?_, by omega⟩
  unfold packdir
  refine andThen made (andThen put1 (andThen put2 (andThen put3 (andThen put4 (andThen put5
    (andThen put6 (andThen put7 (andThen put8 (andThen put9 (andThen put10 (andThen put11
    (andThen put12 ?_))))))))))))
  exact if_neg (by omega)

def RPick.Short : RPick → Prop
  | .readerror _ => False
  | .version _ v => Styx.Short v
  | .error ename => Styx.Short ename
  | .walk qids => qids.length < 65536
  | .read data => data.length ≤ 2147483648
  | .stat d => d.Short
  | _ => True

theorem packheader_some {ds : Nat} (mtype tag : Nat) (enough : 7 ≤ ds) (small : ds < 2147483648) :
    ∃ d, packheader ds mtype tag = some d ∧ d.length = ds := by
  have made : newarray ds = some (List.replicate ds 0) := if_pos small
  have length0 : (List.replicate ds (0 : Nat)).length = ds := List.length_replicate
  have ⟨d1, put1, _⟩ := put_some (d := List.replicate ds 0) (o := 0)
    (le 4 ds) (by rw [length_le]; omega)
  have ⟨d2, put2, _⟩ := put_some (d := d1) (o := 4) (le 1 mtype) (by rw [length_le]; omega)
  have ⟨d3, put3, _⟩ := put_some (d := d2) (o := 5) (le 2 tag) (by rw [length_le]; omega)
  exact ⟨d3, andThen made (andThen put1 (andThen put2 put3)), by omega⟩

theorem RPick.pack_some (short : pick.Short) (sized : d.length = hdrlen pick.mtype + pick.varsize) :
    ∃ after, pick.pack d = some after := by
  cases pick with
  | readerror _ => exact short.elim
  | flush => exact ⟨d, rfl⟩
  | clunk => exact ⟨d, rfl⟩
  | remove => exact ⟨d, rfl⟩
  | wstat => exact ⟨d, rfl⟩
  | auth q =>
    have size : d.length = 20 + 0 := sized
    obtain ⟨after, written, -⟩ := pqid_some (d := d) (o := 7) q (by omega)
    exact ⟨after, written⟩
  | attach q =>
    have size : d.length = 20 + 0 := sized
    obtain ⟨after, written, -⟩ := pqid_some (d := d) (o := 7) q (by omega)
    exact ⟨after, written⟩
  | version msize v =>
    have size : d.length = 13 + utflen v := sized
    obtain ⟨d1, put1, length1⟩ := put_some (d := d) (o := 7) (le 4 msize)
      (by rw [length_le]; omega)
    obtain ⟨d2, put2, -⟩ := pstring_some (d := d1) (o := 11) (s := v) (by omega)
    exact ⟨d2, andThen put1 (andThen put2 rfl)⟩
  | error ename =>
    have size : d.length = 9 + utflen ename := sized
    obtain ⟨d1, put1, -⟩ := pstring_some (d := d) (o := 7) (s := ename) (by omega)
    exact ⟨d1, andThen put1 rfl⟩
  | walk qids =>
    have size : d.length = 9 + 13 * qids.length := sized
    obtain ⟨d1, put1, length1⟩ := put_some (d := d) (o := 7) (le 2 qids.length)
      (by rw [length_le]; omega)
    obtain ⟨d2, put2⟩ := pqids_some qids (d := d1) (o := 9) (by omega)
    exact ⟨d2, andThen put1 put2⟩
  | create q iounit =>
    have size : d.length = 24 + 0 := sized
    obtain ⟨d1, put1, length1⟩ := pqid_some (d := d) (o := 7) q (by omega)
    obtain ⟨d2, put2, -⟩ := put_some (d := d1) (o := 20) (le 4 iounit) (by rw [length_le]; omega)
    exact ⟨d2, andThen put1 put2⟩
  | «open» q iounit =>
    have size : d.length = 24 + 0 := sized
    obtain ⟨d1, put1, length1⟩ := pqid_some (d := d) (o := 7) q (by omega)
    obtain ⟨d2, put2, -⟩ := put_some (d := d1) (o := 20) (le 4 iounit) (by rw [length_le]; omega)
    exact ⟨d2, andThen put1 put2⟩
  | read data =>
    have size : d.length = 11 + data.length := sized
    obtain ⟨d1, put1, length1⟩ := put_some (d := d) (o := 7) (le 4 data.length)
      (by rw [length_le]; omega)
    obtain ⟨d2, put2, -⟩ := put_some (d := d1) (o := 11) data (by omega)
    exact ⟨d2, andThen put1 put2⟩
  | write count =>
    have size : d.length = 11 + 0 := sized
    obtain ⟨d1, put1, -⟩ := put_some (d := d) (o := 7) (le 4 count) (by rw [length_le]; omega)
    exact ⟨d1, put1⟩
  | stat f =>
    have size : d.length = 9 + packdirsize f := sized
    obtain ⟨stat, packed, _⟩ := packdir_some short
    obtain ⟨d1, put1, _⟩ := put_some (d := d) (o := 7) (le 2 stat.length)
      (by rw [length_le]; omega)
    obtain ⟨d2, put2, -⟩ := put_some (d := d1) (o := 9) stat (by omega)
    exact ⟨d2, andThen packed (andThen put1 put2)⟩

theorem RPick.varsize_short (short : pick.Short) :
    pick.mtype ≠ 0 ∧ 7 ≤ hdrlen pick.mtype ∧
      hdrlen pick.mtype + pick.varsize < 4294967296 := by
  cases pick with
  | readerror _ => exact short.elim
  | version _ v =>
    have bound : utflen v < 65536 := short
    refine ⟨Nat.succ_ne_zero _, Nat.le_of_ble_eq_true rfl, ?_⟩
    show 13 + utflen v < _
    omega
  | error ename =>
    have bound : utflen ename < 65536 := short
    refine ⟨Nat.succ_ne_zero _, Nat.le_of_ble_eq_true rfl, ?_⟩
    show 9 + utflen ename < _
    omega
  | walk qids =>
    have bound : qids.length < 65536 := short
    refine ⟨Nat.succ_ne_zero _, Nat.le_of_ble_eq_true rfl, ?_⟩
    show 9 + 13 * qids.length < _
    omega
  | read data =>
    have bound : data.length ≤ 2147483648 := short
    refine ⟨Nat.succ_ne_zero _, Nat.le_of_ble_eq_true rfl, ?_⟩
    show 11 + data.length < _
    omega
  | stat d =>
    have bound := (packdirsize_short short).2
    refine ⟨Nat.succ_ne_zero _, Nat.le_of_ble_eq_true rfl, ?_⟩
    show 9 + packdirsize d < _
    omega
  | auth _ | attach _ | flush | clunk | remove | wstat | create _ _ | «open» _ _ | write _ =>
    exact ⟨Nat.succ_ne_zero _, Nat.le_of_ble_eq_true rfl, Nat.le_of_ble_eq_true rfl⟩

theorem Rmsg.pack_some {r : Rmsg} (short : r.pick.Short) : ∃ d, r.pack = some d := by
  have ⟨real, header, small⟩ := RPick.varsize_short short
  have sized : r.packedsize = hdrlen r.mtype + r.pick.varsize := by
    unfold Rmsg.packedsize int32
    rw [if_neg (show r.mtype ≠ 0 from real)]
    exact Nat.mod_eq_of_lt small
  unfold Rmsg.pack
  dsimp only
  by_cases nothing : r.packedsize = 0 ∨ 2147483648 ≤ r.packedsize
  · exact ⟨[], if_pos nothing⟩
  rw [if_neg nothing]
  have enough : 7 ≤ r.packedsize := le_trans header (sized ▸ Nat.le_add_right _ _)
  have ⟨d, headed, length⟩ := packheader_some r.mtype r.tag enough (by omega)
  have ⟨after, packed⟩ := RPick.pack_some short (d := d) (by rw [length, sized]; rfl)
  exact ⟨after, andThen headed packed⟩

/-! ### Handlers -/

section Handlers

variable {σ : Type} {nav : Navigator σ} {srv : Styxserver σ} {tag : Nat}

theorem Styxserver.replydirect_some (srv : Styxserver σ) {m : Rmsg} (short : m.pick.Short) :
    ∃ r, srv.replydirect m = some r ∧ r.tag = m.tag := by
  have unfit : Styx.Short (str "Styx reply didn't fit") := by decide
  have unseen : Styx.Short (str "Tversion not seen") := by decide
  unfold Styxserver.replydirect
  by_cases early : srv.msize = 0
  · have ⟨d, packed⟩ := Rmsg.pack_some (r := ⟨m.tag, .error (str "Tversion not seen")⟩) unseen
    refine ⟨⟨m.tag, .error (str "Tversion not seen")⟩, ?_, rfl⟩
    rw [if_pos early]
    refine andThen packed ?_
    exact if_neg fun both => both.1 early
  have ⟨d, packed⟩ := Rmsg.pack_some short
  rw [if_neg early]
  by_cases fits : srv.msize < d.length
  · have ⟨_, packed'⟩ :=
      Rmsg.pack_some (r := ⟨m.tag, .error (str "Styx reply didn't fit")⟩) unfit
    refine ⟨⟨m.tag, .error (str "Styx reply didn't fit")⟩, andThen packed ?_, rfl⟩
    rw [if_pos ⟨early, fits⟩]
    exact andThen packed' rfl
  · refine ⟨m, andThen packed ?_, rfl⟩
    exact if_neg fun both => fits both.2

/-- There is one reply, with this tag, and the application's state is this one. -/
def Answers (handled : Option (Handled σ)) (tag : Nat) (t : σ) : Prop :=
  ∃ h, handled = some h ∧ h.reply.tag = tag ∧ h.srv.t = t

theorem reply_answers {fid : Option Fid} {m : Rmsg} (short : m.pick.Short) :
    Answers (srv.reply fid m) m.tag srv.t := by
  have ⟨r, replied, same⟩ := srv.replydirect_some short
  refine ⟨⟨srv, fid, r⟩, ?_, same, rfl⟩
  unfold Styxserver.reply
  rw [replied]
  rfl

theorem error_answers {msg : Str} (short : Short msg) :
    Answers (srv.error tag msg) tag srv.t := reply_answers (m := ⟨tag, .error msg⟩) short

def Fine : Option Dir × Str → Prop
  | (some d, _) => d.Short
  | (none, err) => Short err

/-- The answers of the navigator are fine, and leave the state as it is. -/
structure Navigator.Polite (nav : Navigator σ) (t : σ) : Prop where
  stat_same : ∀ path, (nav.stat t path).2 = t
  stat_fine : ∀ path, Fine (nav.stat t path).1
  walk_same : ∀ path name, (nav.walk t path name).2 = t
  walk_fine : ∀ path name, Fine (nav.walk t path name).1

theorem attach_answers (polite : nav.Polite srv.t) (rootpath fid : Nat) (uname aname : Str) :
    Answers (srv.attach nav rootpath tag fid uname aname) tag srv.t := by
  have same := polite.stat_same rootpath
  have fine := polite.stat_fine rootpath
  unfold Styxserver.attach
  generalize nav.stat srv.t rootpath = answer at same fine ⊢
  have ⟨⟨d, err⟩, t⟩ := answer
  have same' : t = srv.t := same
  subst same'
  cases d with
  | none => exact error_answers fine
  | some d =>
    dsimp only
    by_cases file : d.qid.qtype &&& QTDIR = 0
    · rw [if_pos file]
      exact error_answers (by decide)
    rw [if_neg file]
    cases created : ({ srv with t := srv.t } : Styxserver σ).newfid fid with
    | none => exact error_answers (by decide)
    | some made =>
      have kept : made.1.t = srv.t := newfid_t (c := made.2) created
      rw [← kept]
      exact reply_answers (m := ⟨tag, .attach d.qid⟩) trivial

theorem walk1_fine {t : σ} (polite : nav.Polite t) (c : Fid) (name : Str) :
    (walk1 nav t c name).2 = t ∧
      ((walk1 nav t c name).1.1 = none → Short (walk1 nav t c name).1.2) := by
  have same := polite.stat_same c.path
  have fine := polite.stat_fine c.path
  rcases answer : nav.stat t c.path with ⟨⟨d, err⟩, t'⟩
  rw [answer] at same fine
  have same' : t' = t := same
  subst same'
  unfold walk1
  cases d with
  | none =>
    simp only [answer]
    exact ⟨trivial, fun _ => fine⟩
  | some d =>
    have walked := polite.walk_same d.qid.path name
    have short := polite.walk_fine d.qid.path name
    rcases answer' : nav.walk t' d.qid.path name with ⟨⟨e, err'⟩, t''⟩
    rw [answer'] at walked short
    have walked' : t'' = t' := walked
    subst walked'
    simp only [answer, answer']
    by_cases file : d.qid.qtype &&& QTDIR = 0
    · rw [if_pos file]
      exact ⟨rfl, fun _ => (by decide : Short Enotdir)⟩
    rw [if_neg file]
    by_cases refused : openok c.uname OEXEC d.mode d.uid d.gid = false
    · rw [if_pos refused]
      exact ⟨rfl, fun _ => (by decide : Short Eperm)⟩
    rw [if_neg refused]
    cases e with
    | none => exact ⟨rfl, fun _ => short⟩
    | some _ => exact ⟨rfl, nofun⟩

/-- The loop of a walk: one qid at most for a name, and a short error. -/
theorem walknames_fine (names : List Str) : ∀ (srv : Styxserver σ), nav.Polite srv.t →
    ∀ c : Fid, (walknames nav srv c names).1.t = srv.t ∧
      (walknames nav srv c names).2.2.1.length ≤ names.length ∧
      ∀ err, (walknames nav srv c names).2.2.2 = some err → Short err := by
  induction names with
  | nil => exact fun _ _ _ => ⟨rfl, le_rfl, nofun⟩
  | cons name _ ih =>
    intro srv polite c
    obtain ⟨same, short⟩ := walk1_fine polite c name
    unfold walknames
    generalize walk1 nav srv.t c name = answer at same short ⊢
    obtain ⟨⟨d, err⟩, t⟩ := answer
    have same' : t = srv.t := same
    subst same'
    cases d with
    | none =>
      refine ⟨rfl, Nat.zero_le _, ?_⟩
      intro _ is
      cases is
      exact short rfl
    | some d =>
      obtain ⟨kept, few, short'⟩ := ih
        (({ srv with t := srv.t } : Styxserver σ).setfid (c.walk d.qid)) polite
        (c.walk d.qid)
      exact ⟨kept, Nat.succ_le_succ few, short'⟩

theorem walk_answers (polite : nav.Polite srv.t) (fid newfid : Nat) {names : List Str}
    (few : names.length < 65536) : Answers (srv.walk nav tag fid newfid names) tag srv.t := by
  unfold Styxserver.walk
  cases srv.getfid fid with
  | none => exact error_answers (by decide)
  | some c =>
    dsimp only
    by_cases opened : c.isopen = true
    · rw [if_pos opened]
      exact error_answers (by decide)
    rw [if_neg opened]
    split
    · exact error_answers (by decide)
    · rename_i begun start begins
      have kept := start_t begins
      obtain ⟨same, length, short⟩ := walknames_fine names
        begun (by rw [kept]; exact polite) start
      generalize walknames nav begun start names = answer at same length short ⊢
      obtain ⟨after, _, qids, err⟩ := answer
      have same' : after.t = srv.t := Eq.trans same kept
      have length' : qids.length ≤ names.length := length
      have short' : ∀ e, err = some e → Short e := short
      have bounded : qids.length < 65536 := by omega
      cases err with
      | none =>
        rw [← same']
        exact reply_answers (m := ⟨tag, .walk qids⟩) bounded
      | some e =>
        have shortened := short' e rfl
        dsimp only
        by_cases other : newfid ≠ fid
        · rw [if_pos other]
          by_cases nothing : qids = []
          · rw [if_pos nothing, ← same']
            exact error_answers shortened
          · rw [if_neg nothing, ← same']
            exact reply_answers (m := ⟨tag, .walk qids⟩) bounded
        · rw [if_neg other]
          by_cases nothing : qids = []
          · rw [if_pos nothing, ← same']
            exact error_answers shortened
          · rw [if_neg nothing, ← same']
            exact reply_answers (m := ⟨tag, .walk qids⟩) bounded

/-- What `canopen` says: a short error, and the state is as it was. -/
theorem canopen_fine (polite : nav.Polite srv.t) (fid omode : Nat) :
    (srv.canopen nav fid omode).2.t = srv.t ∧
      ∀ err, (srv.canopen nav fid omode).1 = .error err → Short err := by
  have refused : ∀ {msg : Str} {after : Styxserver σ}, Short msg → after.t = srv.t →
      ∀ {able : Except Str (Fid × Nat × Dir) × Styxserver σ}, able = (.error msg, after) →
      able.2.t = srv.t ∧ ∀ err, able.1 = .error err → Short err := by
    rintro msg after short same able rfl
    refine ⟨same, ?_⟩
    intro err is
    cases is
    exact short
  unfold Styxserver.canopen
  cases srv.getfid fid with
  | none => exact refused (by decide : Short Ebadfid) rfl rfl
  | some c =>
    dsimp only
    by_cases opened : c.isopen = true
    · rw [if_pos opened]
      exact refused (by decide : Short Eopen) rfl rfl
    rw [if_neg opened]
    have same := polite.stat_same c.path
    have fine := polite.stat_fine c.path
    have walked := polite.walk_same c.path (str "..")
    rcases answer : nav.stat srv.t c.path with ⟨⟨f, err⟩, t⟩
    rw [answer] at same fine
    have same' : t = srv.t := same
    subst same'
    cases f with
    | none =>
      simp only [answer]
      refine ⟨trivial, ?_⟩
      intro err' is
      cases is
      exact fine
    | some _ =>
      rcases answer' : nav.walk srv.t c.path (str "..") with ⟨⟨dir, err'⟩, t'⟩
      rw [answer'] at walked
      have walked' : t' = srv.t := walked
      subst walked'
      simp only [answer, answer']
      cases openmode omode with
      | none => exact refused (by decide : Short Ebadarg) rfl rfl
      | some _ =>
        dsimp only
        split_ifs
        · exact refused (by decide : Short Eperm) rfl rfl
        · exact refused (by decide : Short Eperm) rfl rfl
        · cases dir with
          | none => exact refused (by decide : Short Eperm) rfl rfl
          | some _ =>
            dsimp only
            split_ifs
            · exact refused (by decide : Short Eperm) rfl rfl
            · exact ⟨rfl, nofun⟩
        · exact ⟨rfl, nofun⟩

theorem open_answers (polite : nav.Polite srv.t) (fid omode : Nat) :
    Answers (srv.open nav tag fid omode) tag srv.t := by
  have ⟨same, short⟩ := canopen_fine polite fid omode
  unfold Styxserver.open
  generalize srv.canopen nav fid omode = answer at same short ⊢
  have ⟨able, after⟩ := answer
  have same' : after.t = srv.t := same
  cases able with
  | error err =>
    rw [← same']
    exact error_answers (short err rfl)
  | ok opened =>
    rw [← same']
    exact reply_answers (m := ⟨tag, .«open» opened.2.2.qid after.iounit⟩) trivial

theorem stat_answers (polite : nav.Polite srv.t) (fid : Nat) :
    Answers (srv.stat nav tag fid) tag srv.t := by
  unfold Styxserver.stat
  cases srv.getfid fid with
  | none => exact error_answers (by decide)
  | some c =>
    have same := polite.stat_same c.path
    have fine := polite.stat_fine c.path
    rcases answer : nav.stat srv.t c.path with ⟨⟨d, err⟩, t⟩
    rw [answer] at same fine
    have same' : t = srv.t := same
    subst same'
    simp only [answer]
    cases d with
    | none => exact error_answers fine
    | some d => exact reply_answers (m := ⟨tag, .stat d⟩) fine

theorem clunk_answers (fid : Nat) : Answers (srv.clunk tag fid) tag srv.t := by
  unfold Styxserver.clunk
  cases srv.getfid fid with
  | none => exact error_answers (by decide)
  | some _ => exact reply_answers (m := ⟨tag, .clunk⟩) trivial

theorem remove_answers (fid : Nat) : Answers (srv.remove tag fid) tag srv.t := by
  unfold Styxserver.remove
  cases srv.getfid fid with
  | none => exact error_answers (by decide)
  | some _ => exact reply_answers (m := ⟨tag, .error Eperm⟩) (by decide : Short Eperm)

theorem compatible_short (tmsize : Nat) (tversion : Str) (msize : Int) :
    Short (compatible tmsize tversion msize VERSION).2 := by
  have unknown : Short (str "unknown") := by decide
  have version : Short VERSION := by decide
  unfold compatible
  dsimp only
  rw [if_neg (by decide : ¬VERSION = [])]
  split_ifs
  · exact unknown
  · exact unknown
  · cases versiondigits (tversion.drop 2) with
    | none => exact unknown
    | some _ =>
      dsimp only
      split_ifs
      · exact unknown
      · exact version
  · cases versiondigits (tversion.drop 2) with
    | none => exact unknown
    | some _ =>
      dsimp only
      split_ifs
      · exact unknown
      · exact version

theorem version_answers (tmsize : Nat) (tversion : Str) :
    Answers (srv.version tag tmsize tversion) tag srv.t := by
  unfold Styxserver.version
  dsimp only
  have short := compatible_short tmsize tversion (if srv.msize ≤ 0 then MAXRPC else srv.msize)
  generalize compatible tmsize tversion (if srv.msize ≤ 0 then MAXRPC else srv.msize) VERSION =
    agreed at short ⊢
  have ⟨msize, version⟩ := agreed
  dsimp only
  by_cases small : msize < 256
  · rw [if_pos small]
    exact error_answers (by decide : Short (str "message size too small"))
  · rw [if_neg small]
    exact reply_answers (m := ⟨tag, .version msize.toNat version⟩) short

/-- A request that the library handles without the directories. -/
def Handles (gm : Tmsg) : Prop :=
  (∀ error, gm.pick ≠ .readerror error) ∧ (∀ fid offset count, gm.pick ≠ .read fid offset count) ∧
    ∀ fid newfid names, gm.pick = .walk fid newfid names → names.length < 65536

theorem default_answers (polite : nav.Polite srv.t) (rootpath fuel : Nat) {gm : Tmsg}
    (handles : Handles gm) : Answers (srv.default nav rootpath fuel gm) gm.tag srv.t := by
  have ⟨tag, pick⟩ := gm
  have ⟨real, noRead, few⟩ := handles
  cases pick with
  | readerror error => exact absurd rfl (real error)
  | read fid offset count => exact absurd rfl (noRead fid offset count)
  | version msize version => exact version_answers msize version
  | auth _ _ _ => exact error_answers (by decide : Short (str "authentication not required"))
  | flush _ => exact reply_answers (m := ⟨tag, .flush⟩) trivial
  | walk fid newfid names => exact walk_answers polite fid newfid (few fid newfid names rfl)
  | «open» fid mode => exact open_answers polite fid mode
  | create _ _ _ _ => exact error_answers (by decide : Short Eperm)
  | write _ _ _ => exact error_answers (by decide : Short Eperm)
  | clunk fid => exact clunk_answers fid
  | stat fid => exact stat_answers polite fid
  | remove fid => exact remove_answers fid
  | wstat _ _ => exact error_answers (by decide : Short Eperm)
  | attach fid _ uname aname => exact attach_answers polite rootpath fid uname aname

end Handlers

end Infernode.Styx
