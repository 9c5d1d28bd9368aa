import Infernode.Styx.Fidtable

/-!
What a walk does with the table of fids, in any session.

Owns: that a walk that is answered with all its qids puts one fid, on the file that the names lead
to one after the other, and that another one changes no fid.
-/

namespace Infernode.Styx

open Text

variable {σ : Type} {nav : Navigator σ}

/-- The answers of the navigator leave its state as it is. -/
structure Navigator.Still (nav : Navigator σ) : Prop where
  stat : ∀ t path, (nav.stat t path).2 = t
  walk : ∀ t path name, (nav.walk t path name).2 = t
  readdir : ∀ t path offset count, (nav.readdir t path offset count).2 = t

/-- What `walk1` makes of the answer to a walk. -/
def entered (answer : (Option Dir × Str) × σ) : (Option Dir × Str) × σ :=
  let ((d, err), t) := answer
  match d with
  | none => ((none, err), t)
  | some d => ((some d, []), t)

theorem entered_some (answer : (Option Dir × Str) × σ) : (entered answer).1.1 = answer.1.1 := by
  obtain ⟨⟨_ | d, err⟩, t⟩ := answer
  · rfl
  · rfl

theorem entered_state (answer : (Option Dir × Str) × σ) : (entered answer).2 = answer.2 := by
  obtain ⟨⟨_ | d, err⟩, t⟩ := answer
  · rfl
  · rfl

theorem walk1_some {t : σ} {c : Fid} {name : Str} {d : Dir} (still : nav.Still)
    (walked : (walk1 nav t c name).1.1 = some d) :
    ∃ here, (nav.stat t c.path).1.1 = some here ∧
      (nav.walk t here.qid.path name).1.1 = some d := by
  have same := still.stat t c.path
  unfold walk1 at walked
  generalize nav.stat t c.path = answer at walked same
  have ⟨⟨here, err⟩, t'⟩ := answer
  dsimp only at same
  subst same
  cases here with
  | none => cases walked
  | some here =>
    refine ⟨here, rfl, ?_⟩
    change (if here.qid.qtype &&& QTDIR = 0 then (((none : Option Dir), Enotdir), t')
      else if openok c.uname OEXEC here.mode here.uid here.gid = false then ((none, Eperm), t')
      else entered (nav.walk t' here.qid.path name)).1.1 = some d at walked
    split_ifs at walked with file closed
    rw [entered_some] at walked
    exact walked

theorem walk1_still {t : σ} {c : Fid} {name : Str} (still : nav.Still) :
    (walk1 nav t c name).2 = t := by
  have same := still.stat t c.path
  unfold walk1
  generalize nav.stat t c.path = answer at same ⊢
  have ⟨⟨here, err⟩, t'⟩ := answer
  dsimp only at same
  subst same
  cases here with
  | none => rfl
  | some here =>
    change (if here.qid.qtype &&& QTDIR = 0 then (((none : Option Dir), Enotdir), t')
      else if openok c.uname OEXEC here.mode here.uid here.gid = false then ((none, Eperm), t')
      else entered (nav.walk t' here.qid.path name)).2 = t'
    split_ifs with file closed
    · rfl
    · rfl
    · rw [entered_state]
      exact still.walk t' here.qid.path name

theorem walknames_along (still : nav.Still) {α : Type} {at_ : Nat → α → Prop} {next : α → Str → α}
    {t : σ}
    (handed : ∀ path a name here d, at_ path a → (nav.stat t path).1.1 = some here →
      (nav.walk t here.qid.path name).1.1 = some d → at_ d.qid.path (next a name))
    (names : List Str) {srv after : Styxserver σ} {c walked : Fid} {qids : List Qid} {a : α}
    (state : srv.t = t) (start : at_ c.path a)
    (loop : walknames nav srv c names = (after, walked, qids, none)) :
    at_ walked.path (names.foldl next a) := by
  induction names generalizing srv c qids a with
  | nil =>
    cases loop
    exact start
  | cons name names ih =>
    unfold walknames at loop
    have same := @walk1_still σ nav srv.t c name still
    rcases answer : walk1 nav srv.t c name with ⟨⟨d, failure⟩, t'⟩
    rw [answer] at same
    simp only [answer] at loop
    cases d with
    | none => cases loop
    | some d =>
      have there : (walk1 nav srv.t c name).1.1 = some d := by rw [answer]
      have ⟨here, asked, moved⟩ := walk1_some still there
      rw [state] at asked moved same
      have further := handed c.path a name here d start asked moved
      dsimp only at loop
      rcases later : walknames nav (({ srv with t := t' } : Styxserver σ).setfid (c.walk d.qid))
        (c.walk d.qid) names with ⟨after', walked', qids', err'⟩
      rw [later] at loop
      cases loop
      exact ih same further later

end Infernode.Styx
