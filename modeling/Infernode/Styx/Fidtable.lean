import Infernode.Styx.Styxservers
import Infernode.Styx.Unpack

/-!
The fid table of a file server over the messages of a connection.

Owns: what each handler does to the lookups of the table and with which reply, the
invariant of the table, and the runs in which the table keeps to the protocol.
-/

namespace Infernode.Styx

open Text Wire Option

variable {σ : Type}

/-! ### Lookups -/

def Styxserver.Keyed (srv : Styxserver σ) : Prop := Buckets.Keyed Fid.fid CHANHASHSIZE srv.fids

def SameFids (srv after : Styxserver σ) : Prop := ∀ n, after.getfid n = srv.getfid n

theorem Styxserver.getfid_setfid (srv : Styxserver σ) (c : Fid) (n : Nat) :
    (srv.setfid c).getfid n =
      if n = c.fid then (srv.getfid n).map fun _ => c else srv.getfid n :=
  Buckets.get_set c n

theorem Styxserver.getfid_delfid (srv : Styxserver σ) (keyed : srv.Keyed) (c : Fid) (n : Nat) :
    (srv.delfid c).getfid n = if n = c.fid then none else srv.getfid n :=
  Buckets.get_erase keyed c.fid n

variable {d : Bytes} {o fuel : Nat} {m : Rmsg} {gm : Tmsg}

variable {n : Nat} {msg : Str}

theorem Styxserver.fid_of_getfid {srv : Styxserver σ} {c : Fid} (found : srv.getfid n = some c) :
    c.fid = n := Buckets.number_of_get found

theorem Styxserver.newfid_eq (srv : Styxserver σ) {after : Styxserver σ} {fid : Nat} {c : Fid} (keyed : srv.Keyed)
    (created : srv.newfid fid = some (after, c)) :
    srv.getfid fid = none ∧ c.fid = fid ∧ after.msize = srv.msize ∧ after.Keyed ∧
      ∀ n, after.getfid n = if n = fid then some c else srv.getfid n := by
  unfold Styxserver.newfid at created
  split at created
  · cases created
  · rename_i free
    cases created
    exact ⟨free, rfl, rfl, Buckets.Keyed.insert keyed free, fun n => Buckets.get_insert _ n⟩

/-- A fid that is in the table is changed there. -/
theorem Styxserver.getfid_setfid_of (srv : Styxserver σ) {c old : Fid}
    (present : srv.getfid c.fid = some old) (n : Nat) :
    (srv.setfid c).getfid n = if n = c.fid then some c else srv.getfid n := by
  rw [Styxserver.getfid_setfid]
  split_ifs with same
  · rw [same, present]
    rfl
  · rfl

/-! ### Lengths of replies -/

theorem length_put {after bytes : Bytes} (written : put d o bytes = some after) :
    after.length = d.length := by
  unfold put at written
  split_ifs at written with fits
  cases written
  simp only [List.length_append, List.length_take, List.length_drop]
  omega

theorem length_pqid {after : Bytes} {q : Qid} (written : pqid d o q = some after) :
    after.length = d.length := by
  have ⟨_, first, written⟩ := bind_eq_some_iff.1 written
  have ⟨_, second, third⟩ := bind_eq_some_iff.1 written
  rw [length_put third, length_put second, length_put first]

theorem length_pstring {after : Bytes} {e : Nat} {s : Str}
    (written : pstring d o s = some (after, e)) : after.length = d.length := by
  have ⟨_, first, written⟩ := bind_eq_some_iff.1 written
  have ⟨_, second, same⟩ := bind_eq_some_iff.1 written
  cases same
  rw [length_put second, length_put first]

theorem length_pqids (qids : List Qid) : ∀ {d after : Bytes} {o : Nat},
    pqids d o qids = some after → after.length = d.length := by
  induction qids with
  | nil =>
    intro d after o written
    cases written
    rfl
  | cons _ _ ih =>
    intro _ _ _ written
    have ⟨_, first, later⟩ := bind_eq_some_iff.1 written
    rw [ih later, length_pqid first]

theorem length_rpack {pick : RPick} {after : Bytes} (written : pick.pack d = some after) :
    after.length = d.length := by
  cases pick with
  | readerror _ => cases written
  | flush | clunk | remove | wstat =>
    cases written
    rfl
  | version _ _ =>
    have ⟨d1, first, written⟩ := bind_eq_some_iff.1 written
    have ⟨⟨d2, e⟩, second, same⟩ := bind_eq_some_iff.1 written
    cases same
    rw [length_pstring second, length_put first]
  | error _ =>
    have ⟨⟨d1, e⟩, first, same⟩ := bind_eq_some_iff.1 written
    cases same
    exact length_pstring first
  | auth qid | attach qid => exact length_pqid written
  | walk qids =>
    have ⟨d1, first, written⟩ := bind_eq_some_iff.1 written
    rw [length_pqids qids written, length_put first]
  | create qid iounit | «open» qid iounit =>
    have ⟨d1, first, written⟩ := bind_eq_some_iff.1 written
    rw [length_put written, length_pqid first]
  | read _ =>
    have ⟨d1, first, written⟩ := bind_eq_some_iff.1 written
    rw [length_put written, length_put first]
  | write _ => exact length_put written
  | stat _ =>
    have ⟨_, _, written⟩ := bind_eq_some_iff.1 written
    have ⟨_, first, written⟩ := bind_eq_some_iff.1 written
    rw [length_put written, length_put first]

theorem Rmsg.length_pack {r : Rmsg} (packed : r.pack = some d) : d.length ≤ r.packedsize := by
  unfold Rmsg.pack at packed
  simp only at packed
  split_ifs at packed with empty
  · cases packed
    exact Nat.zero_le _
  have ⟨_, header, packed⟩ := bind_eq_some_iff.1 packed
  have ⟨_, new, header⟩ := bind_eq_some_iff.1 header
  have ⟨_, first, header⟩ := bind_eq_some_iff.1 header
  have ⟨_, second, third⟩ := bind_eq_some_iff.1 header
  rw [length_rpack packed, length_put third, length_put second, length_put first]
  unfold newarray at new
  split_ifs at new
  cases new
  simp

/-! ### Replies -/

def Rmsg.IsError (r : Rmsg) : Prop := ∃ ename, r.pick = .error ename

variable {h : Handled σ}

theorem Styxserver.reply_eq {srv : Styxserver σ} {fid : Option Fid}
    (replied : srv.reply fid m = some h) : h.srv = srv ∧ (h.reply = m ∨ h.reply.IsError) := by
  have ⟨_, written, same⟩ := map_eq_some_iff.1 replied
  subst same
  refine ⟨rfl, ?_⟩
  have ⟨d, _, written⟩ := bind_eq_some_iff.1 written
  split at written
  · have ⟨_, _, same⟩ := bind_eq_some_iff.1 written
    cases same
    exact Or.inr ⟨_, rfl⟩
  cases written
  by_cases early : srv.msize = 0
  · rw [if_pos early]
    exact Or.inr ⟨_, rfl⟩
  · exact Or.inl (if_neg early)

theorem Styxserver.reply_fits {srv : Styxserver σ} {fid : Option Fid}
    (replied : srv.reply fid m = some h) (begun : 256 ≤ srv.msize)
    (fits : m.packedsize ≤ srv.msize) :
    h.reply = m := by
  have ⟨_, written, same⟩ := map_eq_some_iff.1 replied
  subst same
  have session : srv.msize ≠ 0 := by omega
  have ⟨_, packed, written⟩ := bind_eq_some_iff.1 written
  simp only [if_neg session] at packed written
  have length := Rmsg.length_pack packed
  split at written
  · omega
  · cases written
    rfl

theorem Styxserver.error_eq {srv : Styxserver σ} {tag : Nat} (replied : srv.error tag msg = some h)
    : h.srv = srv ∧ h.reply.IsError := by
  obtain ⟨same, reply | error⟩ := Styxserver.reply_eq replied
  · exact ⟨same, reply ▸ ⟨msg, rfl⟩⟩
  · exact ⟨same, error⟩

/-! ### What a message may do to the table -/

/-- No number has two fids, and there is none before the session has begun. -/
structure Styxserver.Inv (srv : Styxserver σ) : Prop where
  keyed : srv.Keyed
  session : 256 ≤ srv.msize ∨ (srv.msize = 0 ∧ ∀ n, srv.getfid n = none)

/-- The rules of the protocol for one message. -/
structure Tidy (srv : Styxserver σ) (gm : Tmsg) (h : Handled σ) : Prop where
  /-- A walk that fails or walks only some of the names changes no fid and makes none. -/
  walk : ∀ fid newfid names, gm.pick = .walk fid newfid names →
    (∃ qids, h.reply.pick = .walk qids ∧ qids.length = names.length) ∨ SameFids srv h.srv
  /-- An open fid is not walked. -/
  notOpen : ∀ fid newfid names c, gm.pick = .walk fid newfid names → srv.getfid fid = some c →
    c.isopen = true → SameFids srv h.srv ∧ h.reply.IsError
  /-- An open fid stays on its file. -/
  stays : ∀ n c c', srv.getfid n = some c → c.isopen = true → h.srv.getfid n = some c' →
    c'.path = c.path ∧ c'.qtype = c.qtype ∧ c'.isopen = true
  /-- A clunk and a remove retire their fid, and only it. -/
  retire : ∀ fid, gm.pick = .clunk fid ∨ gm.pick = .remove fid →
    ∀ n, h.srv.getfid n = if n = fid then none else srv.getfid n
  /-- Another message that is answered by an error changes nothing. -/
  refused : (∀ fid, gm.pick ≠ .clunk fid ∧ gm.pick ≠ .remove fid) → h.reply.IsError →
    SameFids srv h.srv
  /-- A new session starts without fids. -/
  session : ∀ msize version, gm.pick = .version msize version → ¬h.reply.IsError →
    ∀ n, h.srv.getfid n = none

theorem Tidy.same {srv : Styxserver σ} {gm : Tmsg} {h : Handled σ} (same : SameFids srv h.srv)
    (retire : ∀ fid, gm.pick ≠ .clunk fid ∧ gm.pick ≠ .remove fid)
    (session : ∀ msize version, gm.pick ≠ .version msize version)
    (walked : ∀ fid newfid names c, gm.pick = .walk fid newfid names → srv.getfid fid = some c →
      c.isopen = true → h.reply.IsError) : Tidy srv gm h where
  walk := fun _ _ _ _ => Or.inr same
  notOpen := fun fid newfid names c which found opened =>
    ⟨same, walked fid newfid names c which found opened⟩
  stays := by
    intro _ _ _ found opened after
    rw [same, found] at after
    cases after
    exact ⟨rfl, rfl, opened⟩
  retire := fun fid which => which.elim (fun clunk => absurd clunk (retire fid).1)
    fun remove => absurd remove (retire fid).2
  refused := fun _ _ => same
  session := fun msize version which => absurd which (session msize version)

theorem Tidy.put {srv : Styxserver σ} {c : Fid}
    (after : ∀ n, h.srv.getfid n = if n = c.fid then some c else srv.getfid n)
    (before : ∀ old, srv.getfid c.fid = some old → old.isopen = true →
      c.path = old.path ∧ c.qtype = old.qtype ∧ c.isopen = true) (answered : ¬h.reply.IsError)
    (retire : ∀ fid, gm.pick ≠ .clunk fid ∧ gm.pick ≠ .remove fid)
    (session : ∀ msize version, gm.pick ≠ .version msize version)
    (walked : ∀ fid newfid names, gm.pick = .walk fid newfid names →
      (∃ qids, h.reply.pick = .walk qids ∧ qids.length = names.length) ∧
        ∀ old, srv.getfid fid = some old → old.isopen = false) : Tidy srv gm h where
  walk := fun fid newfid names which => Or.inl (walked fid newfid names which).1
  notOpen := by
    intro fid newfid names old which found opened
    rw [(walked fid newfid names which).2 old found] at opened
    cases opened
  stays := by
    intro _ old _ found opened put
    rw [after] at put
    split_ifs at put with same
    · cases put
      exact before old (same ▸ found) opened
    · rw [found] at put
      cases put
      exact ⟨rfl, rfl, opened⟩
  retire := fun fid which => which.elim (fun clunk => absurd clunk (retire fid).1)
    fun remove => absurd remove (retire fid).2
  refused := fun _ error => absurd error answered
  session := fun msize version which => absurd which (session msize version)

theorem Tidy.retired {srv : Styxserver σ} {fid : Nat}
    (which : gm.pick = .clunk fid ∨ gm.pick = .remove fid)
    (after : ∀ n, h.srv.getfid n = if n = fid then none else srv.getfid n) : Tidy srv gm h where
  walk := fun _ _ _ other => by rcases which with is | is <;> simp [is] at other
  notOpen := fun _ _ _ _ other => by rcases which with is | is <;> simp [is] at other
  stays := by
    intro n _ _ found opened put
    rw [after] at put
    split_ifs at put
    rw [found] at put
    cases put
    exact ⟨rfl, rfl, opened⟩
  retire := by
    intro other same n
    obtain rfl : fid = other := by
      rcases which with is | is <;> rcases same with is' | is' <;> simp_all
    exact after n
  refused := fun not => by
    rcases which with is | is
    · exact absurd is (not fid).1
    · exact absurd is (not fid).2
  session := fun _ _ other => by rcases which with is | is <;> simp [is] at other

/-! ### Handlers -/

/-- The invariant and the rules after a message. -/
def Kept (srv : Styxserver σ) (gm : Tmsg) (h : Handled σ) : Prop := h.srv.Inv ∧ Tidy srv gm h

theorem newfid_t {srv after : Styxserver σ} {fid : Nat} {c : Fid}
    (created : srv.newfid fid = some (after, c)) : after.t = srv.t := by
  unfold Styxserver.newfid at created
  split at created
  · cases created
  · cases created
    rfl

section Handlers

variable {nav : Navigator σ} {srv : Styxserver σ} {h : Handled σ} {tag : Nat}

/-- The state of the navigator is no part of the table. -/
theorem Styxserver.Inv.navigator (inv : srv.Inv) (t : σ) : ({ srv with t := t } : Styxserver σ).Inv :=
  ⟨inv.keyed, inv.session⟩

theorem Styxserver.Inv.begun (inv : srv.Inv) {c : Fid} (found : srv.getfid n = some c) :
    256 ≤ srv.msize :=
  inv.session.elim id fun ⟨_, none_⟩ => by
    rw [none_] at found
    cases found

theorem Kept.error {t : σ} (inv : srv.Inv)
    (refused : ({ srv with t := t } : Styxserver σ).error tag msg = some h)
    (retire : ∀ fid, gm.pick ≠ .clunk fid ∧ gm.pick ≠ .remove fid)
    (session : ∀ msize version, gm.pick ≠ .version msize version) : Kept srv gm h := by
  have ⟨same, error⟩ := Styxserver.error_eq refused
  refine ⟨same ▸ inv.navigator t, Tidy.same (fun n => by rw [same]; rfl) retire session ?_⟩
  exact fun _ _ _ _ _ _ _ => error

/-- A message that is answered and changes no fid. -/
theorem Kept.reply {fid : Option Fid} {t : σ} (inv : srv.Inv)
    (replied : ({ srv with t := t } : Styxserver σ).reply fid m = some h)
    (retire : ∀ fid, gm.pick ≠ .clunk fid ∧ gm.pick ≠ .remove fid)
    (session : ∀ msize version, gm.pick ≠ .version msize version)
    (noWalk : ∀ fid newfid names, gm.pick ≠ .walk fid newfid names) : Kept srv gm h := by
  have ⟨same, _⟩ := Styxserver.reply_eq replied
  refine ⟨same ▸ inv.navigator t, Tidy.same (fun n => by rw [same]; rfl) retire session ?_⟩
  exact fun fid newfid names _ which => absurd which (noWalk fid newfid names)

/-- A message that changes a fid of the table, in a reply that fits. -/
theorem Kept.setfid {fid : Option Fid} {t : σ} {c : Fid} (old : Fid) (inv : srv.Inv)
    (found : srv.getfid c.fid = some old)
    (replied : (({ srv with t := t } : Styxserver σ).setfid c).reply fid m = some h)
    (fits : m.packedsize ≤ srv.msize) (answered : ¬m.IsError)
    (before : old.isopen = true → c.path = old.path ∧ c.qtype = old.qtype ∧ c.isopen = true)
    (retire : ∀ fid, gm.pick ≠ .clunk fid ∧ gm.pick ≠ .remove fid)
    (session : ∀ msize version, gm.pick ≠ .version msize version)
    (noWalk : ∀ fid newfid names, gm.pick ≠ .walk fid newfid names) : Kept srv gm h := by
  have ⟨same, _⟩ := Styxserver.reply_eq replied
  have begun := inv.begun found
  have reply := Styxserver.reply_fits replied begun fits
  have after : ∀ n, h.srv.getfid n = if n = c.fid then some c else srv.getfid n := by
    intro n
    rw [same]
    exact Styxserver.getfid_setfid_of { srv with t := t } found n
  refine ⟨?_, Tidy.put after ?_ (reply ▸ answered) retire session ?_⟩
  · rw [same]
    exact ⟨Buckets.Keyed.set inv.keyed c, Or.inl begun⟩
  · intro _ which opened
    rw [found] at which
    cases which
    exact before opened
  · exact fun fid newfid names which => absurd which (noWalk fid newfid names)

def Attachable (nav : Navigator σ) (rootpath : Nat) (srv : Styxserver σ) (fid : Nat) : Prop :=
  ∃ d, (nav.stat srv.t rootpath).1.1 = some d ∧ d.qid.qtype &&& QTDIR ≠ 0 ∧ srv.getfid fid = none

theorem attach_kept {rootpath fid afid : Nat} {uname aname : Str} (inv : srv.Inv)
    (begun : 256 ≤ srv.msize ∨ ¬Attachable nav rootpath srv fid)
    (handled : srv.attach nav rootpath tag fid uname aname = some h) :
    Kept srv ⟨tag, .attach fid afid uname aname⟩ h := by
  unfold Styxserver.attach at handled
  rcases answer : nav.stat srv.t rootpath with ⟨⟨d, err⟩, t⟩
  simp only [answer] at handled
  have retire : ∀ other, TPick.attach fid afid uname aname ≠ .clunk other ∧
      TPick.attach fid afid uname aname ≠ .remove other := fun other => ⟨nofun, nofun⟩
  cases d with
  | none => exact Kept.error inv handled retire (fun _ _ => nofun)
  | some d =>
    simp only at handled
    split_ifs at handled with notDir
    · exact Kept.error inv handled retire (fun _ _ => nofun)
    rcases created : ({ srv with t := t } : Styxserver σ).newfid fid with _ | ⟨after, c⟩
    · rw [created] at handled
      exact Kept.error inv handled retire (fun _ _ => nofun)
    rw [created] at handled
    have ⟨free, number, msize, keyed, table⟩ :=
      Styxserver.newfid_eq { srv with t := t } inv.keyed created
    have session : 256 ≤ srv.msize := begun.elim id fun not =>
      absurd ⟨d, by rw [answer], notDir, free⟩ not
    subst number
    have ⟨same, _⟩ := Styxserver.reply_eq handled
    have reply := Styxserver.reply_fits handled (by exact msize ▸ session) (by
      change ((20 : Nat) : Int) ≤ after.msize
      rw [msize]
      change ((20 : Nat) : Int) ≤ srv.msize
      omega)
    let attached : Fid :=
      { c with uname := uname, param := aname, path := d.qid.path, qtype := d.qid.qtype }
    have lookups : ∀ n, h.srv.getfid n =
        if n = attached.fid then some attached else srv.getfid n := by
      intro n
      change h.srv.getfid n = if n = c.fid then some attached else srv.getfid n
      rw [same, Styxserver.getfid_setfid, table]
      by_cases wanted : n = c.fid
      · rw [if_pos wanted, if_pos wanted, if_pos wanted]
        rfl
      · rw [if_neg wanted, if_neg wanted, if_neg wanted]
        rfl
    refine ⟨?_, Tidy.put lookups ?_ ?_ retire (fun _ _ => nofun) (fun _ _ _ => nofun)⟩
    · rw [same]
      exact ⟨Buckets.Keyed.set keyed _, Or.inl (by exact msize ▸ session)⟩
    · intro _ found _
      rw [show srv.getfid c.fid = none from free] at found
      cases found
    · rw [reply]
      exact fun ⟨_, error⟩ => nomatch error

/-- What the loop over the names keeps: the fid is the only one that changes, and of the
fid only the file that it is on. -/
structure Walked (srv : Styxserver σ) (c : Fid) (names : List Str) (after : Styxserver σ)
    (walked : Fid) (qids : List Qid) (err : Option Str) : Prop where
  keyed : after.Keyed
  msize : after.msize = srv.msize
  restored : { walked with path := c.path, qtype := c.qtype } = c
  table : ∀ n, after.getfid n = if n = c.fid then some walked else srv.getfid n
  whole : err = none → qids.length = names.length

theorem walknames_eq (names : List Str) : ∀ (srv : Styxserver σ) (c : Fid), srv.Keyed →
    srv.getfid c.fid = some c → ∀ {after : Styxserver σ} {walked : Fid} {qids : List Qid}
      {err : Option Str}, walknames nav srv c names = (after, walked, qids, err) →
      Walked srv c names after walked qids err := by
  induction names with
  | nil =>
    intro srv c keyed found after walked qids err loop
    cases loop
    refine ⟨keyed, rfl, rfl, fun n => ?_, fun _ => rfl⟩
    split_ifs with same
    · rw [same, found]
    · rfl
  | cons name names ih =>
    intro srv c keyed found _ _ _ _ loop
    unfold walknames at loop
    rcases answer : walk1 nav srv.t c name with ⟨⟨d, failure⟩, t⟩
    simp only [answer] at loop
    cases d with
    | none =>
      cases loop
      refine ⟨keyed, rfl, rfl, fun n => ?_, nofun⟩
      split_ifs with same
      · rw [same]
        exact found
      · rfl
    | some d =>
      simp only at loop
      have moved := Styxserver.getfid_setfid_of { srv with t := t } (c := c.walk d.qid) found
      rcases later : walknames nav (({ srv with t := t } : Styxserver σ).setfid (c.walk d.qid))
        (c.walk d.qid) names with ⟨after', walked', qids', err'⟩
      rw [later] at loop
      cases loop
      have ⟨keyed', msize', restored', table', whole'⟩ := ih
        (({ srv with t := t } : Styxserver σ).setfid (c.walk d.qid)) (c.walk d.qid)
        (Buckets.Keyed.set keyed _) (by rw [moved, if_pos rfl]) later
      refine ⟨keyed', msize', ?_, fun n => ?_, fun none_ => ?_⟩
      · have ⟨_, _, _, _, _, _, _, _, _⟩ := walked'
        have ⟨_, _, _, _, _, _, _, _, _⟩ := c
        simp only [Fid.walk, Fid.mk.injEq] at restored' ⊢
        exact ⟨restored'.1, trivial, trivial, restored'.2.2.2⟩
      · rw [table', moved]
        change (if n = c.fid then some walked' else if n = c.fid then _ else _) = _
        split_ifs <;> rfl
      · rw [List.length_cons, List.length_cons, whole' none_]

variable {qids : List Qid} {start : Fid} {names : List Str} {offset count : Nat}

/-- A walk of up to so many names is answered in a message that fits every session. -/
theorem walk_fits (tag : Nat) (few : qids.length ≤ MAXWELEM) :
    Rmsg.packedsize ⟨tag, .walk qids⟩ ≤ 256 := by
  have bound : qids.length ≤ 16 := few
  have size : 9 + 13 * qids.length ≤ 256 := by omega
  exact le_trans (Nat.mod_le _ _) size

variable {newfid : Nat}

variable {begun : Styxserver σ}

theorem start_t {fid : Nat} {c : Fid} (started : (if newfid ≠ fid then
        (srv.newfid newfid).map fun (srv, nc) => (srv.setfid (c.clone nc), c.clone nc)
      else some (srv, c)) = some (begun, start)) : begun.t = srv.t := by
  split_ifs at started with fresh
  · obtain ⟨⟨after, nc⟩, created, same⟩ := map_eq_some_iff.1 started
    cases same
    exact @newfid_t _ srv after newfid nc created
  · cases started
    rfl

theorem walk_start {fid : Nat} {c : Fid} (keyed : srv.Keyed) (found : srv.getfid fid = some c)
    (started : (if newfid ≠ fid then
        (srv.newfid newfid).map fun (srv, nc) => (srv.setfid (c.clone nc), c.clone nc)
      else some (srv, c)) = some (begun, start)) :
    begun.Keyed ∧ begun.msize = srv.msize ∧ start.fid = newfid ∧ start.isopen = c.isopen ∧
      (∀ n, begun.getfid n = if n = newfid then some start else srv.getfid n) ∧
      (newfid = fid ∧ start = c ∨ newfid ≠ fid ∧ srv.getfid newfid = none) ∧
      begun.t = srv.t ∧ start.path = c.path := by
  have unchanged := start_t started
  split_ifs at started with fresh
  · have ⟨⟨after, nc⟩, created, same⟩ := map_eq_some_iff.1 started
    cases same
    obtain ⟨free, rfl, msize, keyed', table⟩ := Styxserver.newfid_eq _ keyed created
    refine ⟨Buckets.Keyed.set keyed' _, msize, rfl, rfl, fun n => ?_, Or.inr ⟨fresh, free⟩,
      unchanged, rfl⟩
    rw [Styxserver.getfid_setfid, table]
    change (if n = nc.fid then _ else _) = _
    split_ifs <;> rfl
  · cases started
    have same : newfid = fid := not_not.1 fresh
    refine ⟨keyed, rfl, (Styxserver.fid_of_getfid found).trans same.symm, rfl, fun n => ?_,
      Or.inl ⟨same, rfl⟩, rfl, rfl⟩
    split_ifs with here
    · rw [here, same, found]
    · rfl

theorem walknames_fewer (names : List Str) {srv after : Styxserver σ} {c walked : Fid} {err : Str}
    (loop : walknames nav srv c names = (after, walked, qids, some err)) :
    qids.length < names.length := by
  induction names generalizing srv c qids with
  | nil => cases loop
  | cons name names ih =>
    unfold walknames at loop
    rcases answer : walk1 nav srv.t c name with ⟨⟨d, failure⟩, t'⟩
    simp only [answer] at loop
    cases d with
    | none =>
      cases loop
      exact Nat.succ_pos _
    | some d =>
      dsimp only at loop
      rcases later : walknames nav (({ srv with t := t' } : Styxserver σ).setfid (c.walk d.qid))
        (c.walk d.qid) names with ⟨after', walked', qids', err'⟩
      rw [later] at loop
      cases loop
      exact Nat.succ_lt_succ (ih later)

structure Went (nav : Navigator σ) (srv : Styxserver σ) (fid newfid : Nat) (names : List Str)
    (h : Handled σ) where
  c : Fid
  found : srv.getfid fid = some c
  closed : c.isopen = false
  fresh : newfid = fid ∨ srv.getfid newfid = none
  begun : Styxserver σ
  state : begun.t = srv.t
  start : Fid
  path : start.path = c.path
  after : Styxserver σ
  walked : Fid
  qids : List Qid
  loop : walknames nav begun start names = (after, walked, qids, none)
  number : walked.fid = newfid
  stillClosed : walked.isopen = false
  table : ∀ n, h.srv.getfid n = if n = newfid then some walked else srv.getfid n
  reply : 256 ≤ srv.msize → h.reply.pick = .walk qids
  whole : qids.length = names.length

/-- A walk puts one fid, or changes none and is not answered with all the qids. -/
theorem walk_table {srv : Styxserver σ} {h : Handled σ} {tag fid : Nat} (keyed : srv.Keyed)
    (few : names.length ≤ MAXWELEM) (handled : srv.walk nav tag fid newfid names = some h) :
    h.srv.Keyed ∧ h.srv.msize = srv.msize ∧
      (Nonempty (Went nav srv fid newfid names h) ∨
        SameFids srv h.srv ∧ (∀ qids, h.reply.pick = .walk qids → qids.length < names.length) ∧
          ∀ c, srv.getfid fid = some c → c.isopen = true → h.reply.IsError) := by
  have unanswered {m : Rmsg} (error : m.IsError) (qids : List Qid) (is : m.pick = .walk qids) :
      qids.length < names.length := by
    have ⟨err, same⟩ := error
    rw [same] at is
    cases is
  have refused {msg : Str} (error : srv.error tag msg = some h) : h.srv.Keyed ∧
      h.srv.msize = srv.msize ∧ (Nonempty (Went nav srv fid newfid names h) ∨
        SameFids srv h.srv ∧ (∀ qids, h.reply.pick = .walk qids → qids.length < names.length) ∧
          ∀ c, srv.getfid fid = some c → c.isopen = true → h.reply.IsError) := by
    have ⟨same, isError⟩ := Styxserver.error_eq error
    rw [same]
    exact ⟨keyed, rfl, Or.inr ⟨fun _ => rfl, unanswered isError, fun _ _ _ => isError⟩⟩
  unfold Styxserver.walk at handled
  have ⟨held, found⟩ : ∃ held, srv.getfid fid = held := ⟨_, rfl⟩
  cases held with
  | none =>
    rw [found] at handled
    exact refused handled
  | some c =>
    rw [found] at handled
    dsimp only at handled
    by_cases opened : c.isopen = true
    · rw [if_pos opened] at handled
      exact refused handled
    rw [if_neg opened] at handled
    have closed : c.isopen = false := Bool.eq_false_iff.2 opened
    split at handled
    · exact refused handled
    rename_i begun start started
    have ⟨begunKeyed, msize, number, isopen, table, origin, begunState, startPath⟩ :=
      walk_start keyed found started
    have here : begun.getfid start.fid = some start := by rw [number, table, if_pos rfl]
    rcases loop : walknames nav begun start names with ⟨after, walked, qids, err⟩
    have walk := walknames_eq names _ _ begunKeyed here loop
    have walkedNumber : walked.fid = newfid := by
      rw [← number, ← walk.restored]
    have walkedOpen : walked.isopen = false := by
      have same := congrArg Fid.isopen walk.restored
      exact same.trans (isopen.trans closed)
    rw [loop] at handled
    cases err with
    | none =>
      dsimp only at handled
      have same := (Styxserver.reply_eq handled).1
      have count := walk.whole rfl
      refine ⟨same ▸ walk.keyed, by rw [same, walk.msize, msize], Or.inl ⟨?_⟩⟩
      refine ⟨c, found, closed, ?_, begun, begunState, start, startPath, after, walked,
        qids, loop, walkedNumber, walkedOpen, ?_, ?_, count⟩
      · exact origin.imp And.left And.right
      · intro n
        rw [same, walk.table, table, number]
        split_ifs <;> rfl
      intro session
      have fits := walk_fits tag (count ▸ few)
      have session' : 256 ≤ after.msize := by
        rw [walk.msize, msize]
        exact session
      rw [Styxserver.reply_fits handled session' (by omega)]
    | some err =>
      dsimp only at handled
      rw [walk.restored] at handled
      have fewer := walknames_fewer names loop
      have put : ∀ n, (after.setfid start).getfid n =
          if n = newfid then some start else srv.getfid n := by
        intro n
        rw [Styxserver.getfid_setfid, walk.table, table, number]
        split_ifs <;> rfl
      have keyedPut : (after.setfid start).Keyed := Buckets.Keyed.set walk.keyed start
      have ⟨final, which⟩ : ∃ final : Styxserver σ, final =
          if newfid ≠ fid then (after.setfid start).delfid start
          else after.setfid start := ⟨_, rfl⟩
      rw [← which] at handled
      have unchanged : SameFids srv final := by
        intro n
        rcases origin with ⟨same, is⟩ | ⟨fresh, free⟩
        · rw [which, if_neg (not_not.2 same), put]
          split_ifs with wanted
          · rw [wanted, is, same, found]
          · rfl
        rw [which, if_pos fresh, Styxserver.getfid_delfid _ keyedPut, put, number]
        split_ifs with wanted
        · rw [wanted, free]
        · rfl
      have finalKeyed : final.Keyed := by
        rw [which]
        split_ifs
        · exact Buckets.Keyed.erase keyedPut _
        · exact keyedPut
      have finalMsize : final.msize = srv.msize := by
        rw [which, ← msize, ← walk.msize]
        split_ifs <;> rfl
      split_ifs at handled
      · have ⟨same, isError⟩ := Styxserver.error_eq handled
        rw [same]
        exact ⟨finalKeyed, finalMsize, Or.inr ⟨unchanged, unanswered isError, fun _ _ _ => isError⟩⟩
      have ⟨same, which⟩ := Styxserver.reply_eq handled
      rw [same]
      refine ⟨finalKeyed, finalMsize, Or.inr ⟨unchanged, ?_, fun c' found' isOpen => ?_⟩⟩
      rotate_left
      · cases found.symm.trans found'
        exact absurd isOpen opened
      rcases which with is | isError
      · intro qids' answered
        rw [is] at answered
        cases answered
        exact fewer
      · exact unanswered isError

theorem walk_kept {fid : Nat} (inv : srv.Inv) (few : names.length ≤ MAXWELEM)
    (handled : srv.walk nav tag fid newfid names = some h) :
    Kept srv ⟨tag, .walk fid newfid names⟩ h := by
  have retire : ∀ other, TPick.walk fid newfid names ≠ .clunk other ∧
      TPick.walk fid newfid names ≠ .remove other := fun other => ⟨nofun, nofun⟩
  have ⟨keyed, msize, went⟩ := walk_table inv.keyed few handled
  rcases went with ⟨⟨went⟩⟩ | ⟨same, _, refused⟩
  · have session := inv.begun went.found
    have reply := went.reply session
    refine ⟨⟨keyed, Or.inl (msize ▸ session)⟩, Tidy.put (c := went.walked) (fun n => ?_) ?_ ?_
      retire (fun _ _ => nofun) ?_⟩
    · rw [went.number]
      exact went.table n
    · intro old which isOpen
      rw [went.number] at which
      rcases went.fresh with is | free
      · cases went.found.symm.trans (is ▸ which)
        exact absurd (went.closed.symm.trans isOpen) Bool.false_ne_true
      · exact nomatch free.symm.trans which
    · intro ⟨_, error⟩
      exact nomatch reply.symm.trans error
    · intro _ _ _ which
      cases which
      refine ⟨⟨went.qids, reply, went.whole⟩, fun old which => ?_⟩
      cases went.found.symm.trans which
      exact went.closed
  · refine ⟨⟨keyed, ?_⟩, Tidy.same same retire (fun _ _ => nofun) ?_⟩
    · rw [msize]
      exact inv.session.imp id fun ⟨zero, none'⟩ => ⟨zero, fun n => (same n).trans (none' n)⟩
    · intro _ _ _ old which found isOpen
      cases which
      exact refused old found isOpen

theorem canopen_eq {fid omode : Nat} {able : Except Str (Fid × Nat × Dir)} {after : Styxserver σ}
    (checked : srv.canopen nav fid omode = (able, after)) :
    (∃ t, after = { srv with t := t }) ∧
      ∀ c mode f, able = .ok (c, mode, f) → srv.getfid fid = some c ∧ c.isopen = false := by
  unfold Styxserver.canopen at checked
  rcases found : srv.getfid fid with _ | c
  · rw [found] at checked
    cases checked
    exact ⟨⟨srv.t, rfl⟩, nofun⟩
  rw [found] at checked
  simp only at checked
  by_cases opened : c.isopen = true
  · rw [if_pos opened] at checked
    cases checked
    exact ⟨⟨srv.t, rfl⟩, nofun⟩
  rw [if_neg opened] at checked
  have closed : c.isopen = false := Bool.eq_false_iff.2 opened
  repeat' split at checked
  all_goals
    cases checked
    refine ⟨⟨_, rfl⟩, fun c' mode f same => ?_⟩
    cases same
  all_goals exact ⟨rfl, closed⟩

theorem cancreate_eq {fid perm omode : Nat} {name : Str} {able : Except Str (Fid × Nat × Dir)}
    {after : Styxserver σ} (checked : srv.cancreate nav fid name perm omode = (able, after)) :
    (∃ t, after = { srv with t := t }) ∧
      ∀ c mode f, able = .ok (c, mode, f) → srv.getfid fid = some c ∧ c.isopen = false := by
  unfold Styxserver.cancreate at checked
  rcases found : srv.getfid fid with _ | c
  · rw [found] at checked
    cases checked
    exact ⟨⟨srv.t, rfl⟩, nofun⟩
  rw [found] at checked
  simp only at checked
  by_cases opened : c.isopen = true
  · rw [if_pos opened] at checked
    cases checked
    exact ⟨⟨srv.t, rfl⟩, nofun⟩
  rw [if_neg opened] at checked
  have closed : c.isopen = false := Bool.eq_false_iff.2 opened
  repeat' split at checked
  all_goals
    cases checked
    refine ⟨⟨_, rfl⟩, fun c' mode f same => ?_⟩
    cases same
  all_goals exact ⟨rfl, closed⟩

theorem open_kept {fid omode : Nat} (inv : srv.Inv) (handled : srv.open nav tag fid omode = some h) :
    Kept srv ⟨tag, .«open» fid omode⟩ h := by
  have retire : ∀ other, TPick.open fid omode ≠ .clunk other ∧
      TPick.open fid omode ≠ .remove other := fun other => ⟨nofun, nofun⟩
  unfold Styxserver.open at handled
  rcases checked : srv.canopen nav fid omode with ⟨able, after⟩
  obtain ⟨⟨t, rfl⟩, passed⟩ := canopen_eq checked
  rw [checked] at handled
  rcases able with err | ⟨c, mode, f⟩
  · exact Kept.error inv handled retire (fun _ _ => nofun)
  have ⟨found, closed⟩ := passed c mode f rfl
  have session := inv.begun found
  have here : srv.getfid (c.open mode f.qid).fid = some c := by
    rw [show (c.open mode f.qid).fid = c.fid from rfl, Styxserver.fid_of_getfid found, found]
  refine Kept.setfid _ inv here handled ?_ (fun ⟨_, error⟩ => nomatch error) ?_ retire
    (fun _ _ => nofun) (fun _ _ _ => nofun)
  · exact le_trans (show ((24 : Nat) : Int) ≤ 256 by decide) session
  · exact fun opened => absurd opened (Bool.eq_false_iff.1 closed)

theorem create_kept {fid perm omode : Nat} {name : Str} (inv : srv.Inv)
    (handled : srv.create nav tag fid name perm omode = some h) :
    Kept srv ⟨tag, .create fid name perm omode⟩ h := by
  have retire : ∀ other, TPick.create fid name perm omode ≠ .clunk other ∧
      TPick.create fid name perm omode ≠ .remove other := fun other => ⟨nofun, nofun⟩
  unfold Styxserver.create at handled
  rcases checked : srv.cancreate nav fid name perm omode with ⟨able, after⟩
  obtain ⟨⟨t, rfl⟩, passed⟩ := cancreate_eq checked
  rw [checked] at handled
  rcases able with err | ⟨c, mode, f⟩
  · exact Kept.error inv handled retire (fun _ _ => nofun)
  have ⟨found, closed⟩ := passed c mode f rfl
  rcases made : nav.create t c f with ⟨⟨qid, err⟩, t'⟩
  simp only [made] at handled
  rcases qid with _ | qid
  · exact Kept.error inv handled retire (fun _ _ => nofun)
  have session := inv.begun found
  have here : srv.getfid (c.open mode qid).fid = some c := by
    rw [show (c.open mode qid).fid = c.fid from rfl, Styxserver.fid_of_getfid found, found]
  refine Kept.setfid _ inv here handled ?_ (fun ⟨_, error⟩ => nomatch error) ?_ retire
    (fun _ _ => nofun) (fun _ _ _ => nofun)
  · exact le_trans (show ((24 : Nat) : Int) ≤ 256 by decide) session
  · exact fun opened => absurd opened (Bool.eq_false_iff.1 closed)

theorem canread_eq {fid : Nat} {c : Fid} (able : srv.canread fid offset count = .ok c) :
    srv.getfid fid = some c ∧ toint count ≤ srv.msize - 24 := by
  unfold Styxserver.canread at able
  rcases found : srv.getfid fid with _ | c'
  · rw [found] at able
    cases able
  rw [found] at able
  simp only at able
  split_ifs at able with closed mode large negative
  cases able
  have ⟨_, most⟩ := not_or.1 large
  exact ⟨rfl, Int.not_lt.1 most⟩

theorem readentries_length (moffset : Int) (ds : List Dir) : ∀ {r after : Reading} {full : Bool},
    readentries moffset r ds = some (full, after) → after.a.length = r.a.length := by
  induction ds with
  | nil =>
    intro r after full loop
    cases loop
    rfl
  | cons _ _ ih =>
    intro _ _ _ loop
    unfold readentries at loop
    simp only at loop
    split_ifs at loop
    · have later := ih loop
      exact later
    · cases loop
      rfl
    · have ⟨_, _, loop⟩ := bind_eq_some_iff.1 loop
      have ⟨_, written, loop⟩ := bind_eq_some_iff.1 loop
      exact (ih loop).trans (length_put written)

theorem readchunks_length {path : Nat} {moffset : Int} (fuel : Nat) : ∀ {t t' : σ} {r after : Reading},
    readchunks nav path moffset fuel t r = some (after, t') → after.a.length = r.a.length := by
  induction fuel with
  | zero => exact fun loop => nomatch loop
  | succ _ ih =>
    intro _ _ _ _ loop
    unfold readchunks at loop
    simp only at loop
    split at loop
    · cases loop
      rfl
    have ⟨⟨full, next⟩, entries, loop⟩ := bind_eq_some_iff.1 loop
    have first := readentries_length moffset _ entries
    simp only at loop
    split_ifs at loop
    · cases loop
      exact first
    · exact (ih loop).trans first

theorem read_kept {fid : Nat} (inv : srv.Inv)
    (handled : srv.read nav fuel tag fid offset count = some h) :
    Kept srv ⟨tag, .read fid offset count⟩ h := by
  have retire : ∀ other, TPick.read fid offset count ≠ .clunk other ∧
      TPick.read fid offset count ≠ .remove other := fun other => ⟨nofun, nofun⟩
  unfold Styxserver.read at handled
  rcases able : srv.canread fid offset count with err | c
  · rw [able] at handled
    exact Kept.error (t := srv.t) inv handled retire (fun _ _ => nofun)
  have ⟨found, most⟩ := canread_eq able
  rw [able] at handled
  simp only at handled
  by_cases isFile : c.qtype &&& QTDIR = 0
  · rw [if_pos isFile] at handled
    exact Kept.error (t := srv.t) inv handled retire (fun _ _ => nofun)
  rw [if_neg isFile] at handled
  by_cases empty : toint count ≤ 0
  · rw [if_pos empty] at handled
    exact Kept.reply (t := srv.t) inv handled retire (fun _ _ => nofun) (fun _ _ _ => nofun)
  rw [if_neg empty] at handled
  split at handled
  · cases handled
  rename_i r t loop
  have length : r.a.length = (toint count).toNat := by
    rw [readchunks_length fuel loop, List.length_replicate]
  have number := Styxserver.fid_of_getfid found
  refine Kept.setfid c inv ?_ handled ?_ (fun ⟨_, error⟩ => nomatch error)
    (fun opened => ⟨rfl, rfl, opened⟩) retire (fun _ _ => nofun) (fun _ _ _ => nofun)
  · change srv.getfid c.fid = some c
    rw [number, found]
  have shorter : (r.a.take r.p).length ≤ (toint count).toNat := by
    rw [← length]
    exact List.length_take_le' _ _
  have size : Rmsg.packedsize ⟨tag, .read (r.a.take r.p)⟩ ≤ 11 + (r.a.take r.p).length :=
    Nat.mod_le _ _
  omega

theorem stat_kept {fid : Nat} (inv : srv.Inv) (handled : srv.stat nav tag fid = some h) :
    Kept srv ⟨tag, .stat fid⟩ h := by
  have retire : ∀ other, TPick.stat fid ≠ .clunk other ∧ TPick.stat fid ≠ .remove other :=
    fun other => ⟨nofun, nofun⟩
  unfold Styxserver.stat at handled
  rcases found : srv.getfid fid with _ | c
  · rw [found] at handled
    exact Kept.error (t := srv.t) inv handled retire (fun _ _ => nofun)
  rcases answer : nav.stat srv.t c.path with ⟨⟨d, err⟩, t⟩
  simp only [found, answer] at handled
  rcases d with _ | d
  · exact Kept.error inv handled retire (fun _ _ => nofun)
  · exact Kept.reply inv handled retire (fun _ _ => nofun) (fun _ _ _ => nofun)

theorem Kept.retired {fid : Nat} {after : Styxserver σ} (inv : srv.Inv)
    (which : gm.pick = .clunk fid ∨ gm.pick = .remove fid) (same : h.srv = after)
    (keyed : after.Keyed) (msize : after.msize = srv.msize)
    (table : ∀ n, after.getfid n = if n = fid then none else srv.getfid n) : Kept srv gm h := by
  refine ⟨⟨same ▸ keyed, ?_⟩, Tidy.retired which (same ▸ table)⟩
  rw [same, msize]
  refine inv.session.imp id fun ⟨zero, empty⟩ => ⟨zero, fun n => ?_⟩
  rw [table, empty]
  exact ite_self _

/-- The table without a fid that may not be there. -/
theorem getfid_absent {fid : Nat} (absent : srv.getfid fid = none) (n : Nat) :
    srv.getfid n = if n = fid then none else srv.getfid n := by
  split_ifs with same
  · rw [same, absent]
  · rfl

theorem clunk_kept {fid : Nat} (inv : srv.Inv) (handled : srv.clunk tag fid = some h) :
    Kept srv ⟨tag, .clunk fid⟩ h := by
  unfold Styxserver.clunk at handled
  rcases found : srv.getfid fid with _ | c
  · rw [found] at handled
    exact Kept.retired inv (Or.inl rfl) (Styxserver.error_eq handled).1 inv.keyed rfl
      (getfid_absent found)
  rw [found] at handled
  obtain rfl := Styxserver.fid_of_getfid found
  exact Kept.retired inv (Or.inl rfl) (Styxserver.reply_eq handled).1
    (Buckets.Keyed.erase inv.keyed _) rfl (Styxserver.getfid_delfid _ inv.keyed c)

theorem remove_kept {fid : Nat} (inv : srv.Inv) (handled : srv.remove tag fid = some h) :
    Kept srv ⟨tag, .remove fid⟩ h := by
  unfold Styxserver.remove at handled
  rcases found : srv.getfid fid with _ | c
  · rw [found] at handled
    exact Kept.retired inv (Or.inr rfl) (Styxserver.error_eq handled).1 inv.keyed rfl
      (getfid_absent found)
  rw [found] at handled
  obtain rfl := Styxserver.fid_of_getfid found
  exact Kept.retired inv (Or.inr rfl) (Styxserver.reply_eq handled).1
    (Buckets.Keyed.erase inv.keyed _) rfl (Styxserver.getfid_delfid _ inv.keyed c)

theorem canremove_eq {fid : Nat} {able : Except Str (Fid × Nat)} {after : Styxserver σ}
    (checked : srv.canremove nav fid = (able, after)) : ∃ t, after = { srv with t := t } := by
  unfold Styxserver.canremove at checked
  repeat' split at checked
  all_goals
    cases checked
    exact ⟨_, rfl⟩

/-- The table after a removal by the application. -/
theorem doremove_eq {fid : Nat} (handled : srv.doremove nav tag fid = some h) : ∃ t,
    h.srv = match srv.getfid fid with
      | none => { srv with t := t }
      | some c => ({ srv with t := t } : Styxserver σ).delfid c := by
  unfold Styxserver.doremove at handled
  rcases checked : srv.canremove nav fid with ⟨able, after⟩
  obtain ⟨t, rfl⟩ := canremove_eq checked
  rw [checked] at handled
  rcases able with err | ⟨c, parent⟩
  · exact ⟨t, (Styxserver.error_eq handled).1⟩
  refine ⟨(nav.remove t c).2, ?_⟩
  simp only at handled
  rcases removed : (nav.remove t c).1 with _ | err
  · rw [removed] at handled
    exact (Styxserver.reply_eq handled).1
  · rw [removed] at handled
    exact (Styxserver.error_eq handled).1

theorem doremove_kept {fid : Nat} (inv : srv.Inv) (handled : srv.doremove nav tag fid = some h) :
    Kept srv ⟨tag, .remove fid⟩ h := by
  have ⟨t, same⟩ := doremove_eq handled
  rcases found : srv.getfid fid with _ | c
  · rw [found] at same
    exact Kept.retired inv (Or.inr rfl) same inv.keyed rfl (getfid_absent found)
  rw [found] at same
  obtain rfl := Styxserver.fid_of_getfid found
  exact Kept.retired inv (Or.inr rfl) same (Buckets.Keyed.erase inv.keyed _) rfl
    (Styxserver.getfid_delfid { srv with t := t } inv.keyed c)

theorem compatible_msize (tmsize : Nat) (tversion : Str) (msize : Int) (version : Str) :
    (compatible tmsize tversion msize version).1 =
      if toint tmsize < msize then toint tmsize else msize := by
  unfold compatible
  generalize (if toint tmsize < msize then toint tmsize else msize) = size
  simp only
  repeat' split
  all_goals rfl

theorem version_kept {tmsize : Nat} {tversion : Str} (inv : srv.Inv)
    (fresh : 256 ≤ toint tmsize → ∀ n, srv.getfid n = none)
    (handled : srv.version tag tmsize tversion = some h) :
    Kept srv ⟨tag, .version tmsize tversion⟩ h := by
  unfold Styxserver.version at handled
  obtain ⟨current, is⟩ : ∃ current : Int, current = if srv.msize ≤ 0 then (MAXRPC : Int) else srv.msize :=
    ⟨_, rfl⟩
  have begun : 256 ≤ current := by
    have known := inv.session
    unfold MAXRPC IOHDRSZ MAXFDATA at is
    split_ifs at is <;> omega
  have msize := compatible_msize tmsize tversion current VERSION
  have kept : ∀ {after : Styxserver σ}, h.srv = after → after.fids = srv.fids → 256 ≤ after.msize →
      (¬h.reply.IsError → ∀ n, srv.getfid n = none) → Kept srv ⟨tag, .version tmsize tversion⟩ h := by
    intro after same table session empty
    have unchanged : SameFids srv h.srv := fun n => by
      rw [same, Styxserver.getfid, table]
      rfl
    refine ⟨⟨?_, Or.inl (same ▸ session)⟩, ⟨nofun, nofun, ?_, nofun, fun _ _ => unchanged, ?_⟩⟩
    · rw [same, Styxserver.Keyed, table]
      exact inv.keyed
    · intro n _ _ found opened after
      rw [unchanged, found] at after
      cases after
      exact ⟨rfl, rfl, opened⟩
    · exact fun _ _ _ accepted n => (unchanged n).trans (empty accepted n)
  simp only [← is] at handled
  split_ifs at handled with small
  · have ⟨same, error⟩ := Styxserver.error_eq handled
    exact kept same rfl begun (fun accepted => absurd error accepted)
  · refine kept (Styxserver.reply_eq handled).1 rfl (Int.not_lt.1 small) fun _ => fresh ?_
    rw [msize] at small
    split_ifs at small <;> omega

end Handlers

/-! ### Runs -/

/-- A message walks at most as many names as the protocol has. -/
def TPick.FewNames : TPick → Prop
  | .walk _ _ names => names.length ≤ MAXWELEM
  | _ => True

def Orderly (nav : Navigator σ) (rootpath : Nat) (srv : Styxserver σ) : TPick → Prop
  | .attach fid _ _ _ => srv.msize = 0 → ¬Attachable nav rootpath srv fid
  | .version msize _ => 256 ≤ toint msize → ∀ n, srv.getfid n = none
  | _ => True

section Runs

variable {nav : Navigator σ} {rootpath : Nat}

theorem default_kept {srv : Styxserver σ} (inv : srv.Inv) (message : gm.pick.FewNames)
    (orderly : Orderly nav rootpath srv gm.pick)
    (handled : srv.default nav rootpath fuel gm = some h) : Kept srv gm h := by
  have ⟨_, pick⟩ := gm
  cases pick with
  | readerror _ => cases handled
  | version _ _ => exact version_kept inv orderly handled
  | auth _ _ _ =>
    exact Kept.error (t := srv.t) inv handled (fun _ => ⟨nofun, nofun⟩) (fun _ _ => nofun)
  | attach _ _ _ _ =>
    refine attach_kept inv ?_ handled
    exact inv.session.imp id fun ⟨zero, _⟩ => orderly zero
  | flush _ =>
    exact Kept.reply (t := srv.t) inv handled (fun _ => ⟨nofun, nofun⟩) (fun _ _ => nofun)
      (fun _ _ _ => nofun)
  | walk _ _ _ => exact walk_kept inv message handled
  | «open» _ _ => exact open_kept inv handled
  | create _ _ _ _ =>
    exact Kept.error (t := srv.t) inv handled (fun _ => ⟨nofun, nofun⟩) (fun _ _ => nofun)
  | read _ _ _ => exact read_kept inv handled
  | write _ _ _ =>
    exact Kept.error (t := srv.t) inv handled (fun _ => ⟨nofun, nofun⟩) (fun _ _ => nofun)
  | clunk _ => exact clunk_kept inv handled
  | stat _ => exact stat_kept inv handled
  | remove _ => exact remove_kept inv handled
  | wstat _ _ =>
    exact Kept.error (t := srv.t) inv handled (fun _ => ⟨nofun, nofun⟩) (fun _ _ => nofun)

theorem handle_kept {srv : Styxserver σ} {who : Handler} (inv : srv.Inv)
    (message : gm.pick.FewNames) (orderly : Orderly nav rootpath srv gm.pick)
    (handled : srv.handle nav rootpath fuel who gm = some h) : Kept srv gm h := by
  unfold Styxserver.handle at handled
  split at handled
  · rename_i fid name perm mode which
    have ⟨tag, pick⟩ := gm
    cases which
    exact create_kept inv handled
  · rename_i fid which
    have ⟨tag, pick⟩ := gm
    cases which
    exact doremove_kept inv handled
  · exact default_kept inv message orderly handled

variable (nav rootpath)

/-- The servers that a new connection leads to, over messages that are orderly. -/
inductive Reached (start : σ) : Styxserver σ → Prop where
  | new : Reached start (Styxserver.new start)
  | step {srv : Styxserver σ} {fuel : Nat} {who : Handler} {gm : Tmsg} {h : Handled σ} :
      Reached start srv → gm.pick.FewNames → Orderly nav rootpath srv gm.pick →
        srv.handle nav rootpath fuel who gm = some h → Reached start h.srv

variable {nav rootpath}

theorem Reached.inv {start : σ} {srv : Styxserver σ} (reached : Reached nav rootpath start srv) :
    srv.Inv := by
  induction reached with
  | new => exact ⟨Buckets.Keyed.empty, Or.inr ⟨rfl, fun _ => rfl⟩⟩
  | step _ message orderly handled ih =>
    exact (handle_kept ih message orderly handled).1

end Runs

end Infernode.Styx
