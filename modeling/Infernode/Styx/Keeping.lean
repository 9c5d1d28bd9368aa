import Infernode.Styx.Fidtable

/-!
What a file server's state keeps through the handlers of the library.

Owns: the invariants that the navigator's answers keep, and that a walk and a read that are
handled by the library keep them.

Does not own: the fid table, and what an application does with a message itself.
-/

namespace Infernode.Styx

open Text

variable {σ : Type} {nav : Navigator σ} {inv : σ → Prop} {named : Str → Prop}

/-- The navigator's answers keep the invariant, for the names of a kind. -/
structure Navigator.Keeping (nav : Navigator σ) (inv : σ → Prop) (named : Str → Prop) : Prop where
  stat : ∀ t path, inv t → inv (nav.stat t path).2
  walk : ∀ t path name, named name → inv t → inv (nav.walk t path name).2
  readdir : ∀ t path offset count, inv t → inv (nav.readdir t path offset count).2
  parent : named (str "..")

section Handlers

variable {srv : Styxserver σ} {h : Handled σ} {tag : Nat}

theorem reply_keeping {fid : Option Fid} {m : Rmsg} (kept : inv srv.t)
    (handled : srv.reply fid m = some h) : inv h.srv.t := by
  rw [(Styxserver.reply_eq handled).1]
  exact kept

theorem error_keeping {msg : Str} (kept : inv srv.t) (handled : srv.error tag msg = some h) :
    inv h.srv.t := reply_keeping kept handled

theorem walk1_keeping (keeping : nav.Keeping inv named) {t : σ} (kept : inv t) (c : Fid)
    {name : Str} (isNamed : named name) : inv (walk1 nav t c name).2 := by
  have answered := keeping.stat t c.path kept
  unfold walk1
  rcases answer : nav.stat t c.path with ⟨⟨d, err⟩, after⟩
  rw [answer] at answered
  cases d with
  | none => exact answered
  | some d =>
    dsimp only
    split_ifs
    · exact answered
    · exact answered
    · have walked := keeping.walk after d.qid.path name isNamed answered
      cases (nav.walk after d.qid.path name).1.1 <;> exact walked

theorem walknames_keeping (keeping : nav.Keeping inv named) :
    ∀ {names : List Str} {srv : Styxserver σ} {c : Fid}, (∀ name ∈ names, named name) →
      inv srv.t → inv (walknames nav srv c names).1.t := by
  intro names
  induction names with
  | nil => exact fun _ kept => kept
  | cons name rest ih =>
    intro srv c areNamed kept
    have first := walk1_keeping keeping kept c (areNamed name List.mem_cons_self)
    have later : ∀ other ∈ rest, named other :=
      (List.forall_mem_cons.1 areNamed).2
    unfold walknames
    rcases answer : walk1 nav srv.t c name with ⟨⟨d, err⟩, t⟩
    rw [answer] at first
    simp only
    split
    · exact first
    · exact ih later first

theorem walk_keeping (keeping : nav.Keeping inv named) (kept : inv srv.t) {fid newfid : Nat}
    {names : List Str} (areNamed : ∀ name ∈ names, named name)
    (handled : srv.walk nav tag fid newfid names = some h) : inv h.srv.t := by
  unfold Styxserver.walk at handled
  rcases found : srv.getfid fid with _ | c
  · rw [found] at handled
    exact error_keeping kept handled
  rw [found] at handled
  simp only at handled
  by_cases opened : c.isopen = true
  · rw [if_pos opened] at handled
    exact error_keeping kept handled
  rw [if_neg opened] at handled
  split at handled
  · exact error_keeping kept handled
  rename_i after start started
  have startKept : inv after.t := by
    rw [start_t started]
    exact kept
  have walked := walknames_keeping keeping (c := start) areNamed startKept
  rcases loop : walknames nav after start names with ⟨last, c', qids, err⟩
  rw [loop] at walked handled
  rcases err with _ | err
  · exact reply_keeping walked handled
  simp only at handled walked
  by_cases fresh : newfid ≠ fid
  · rw [if_pos fresh] at handled
    split_ifs at handled
    · refine error_keeping ?_ handled
      exact walked
    · refine reply_keeping ?_ handled
      exact walked
  · rw [if_neg fresh] at handled
    split_ifs at handled
    · refine error_keeping ?_ handled
      exact walked
    · refine reply_keeping ?_ handled
      exact walked

theorem readchunks_keeping (keeping : nav.Keeping inv named) {path : Nat} {moffset : Int} :
    ∀ {fuel : Nat} {t t' : σ} {r after : Reading},
      inv t → readchunks nav path moffset fuel t r = some (after, t') → inv t' := by
  intro fuel
  induction fuel with
  | zero => exact fun _ loop => nomatch loop
  | succ _ ih =>
    intro t _ r _ kept loop
    unfold readchunks at loop
    simp only at loop
    have answered := keeping.readdir t path r.index
      ((r.count.toNat + DIRREADSIZE - 1) / DIRREADSIZE) kept
    split at loop
    · cases loop
      exact answered
    have ⟨⟨full, next⟩, _, loop⟩ := Option.bind_eq_some_iff.1 loop
    simp only at loop
    split_ifs at loop
    · cases loop
      exact answered
    · exact ih answered loop

theorem read_keeping (keeping : nav.Keeping inv named) (kept : inv srv.t)
    {fuel fid offset count : Nat} (handled : srv.read nav fuel tag fid offset count = some h) :
    inv h.srv.t := by
  unfold Styxserver.read at handled
  rcases able : srv.canread fid offset count with err | c
  · rw [able] at handled
    exact error_keeping kept handled
  rw [able] at handled
  simp only at handled
  by_cases isFile : c.qtype &&& QTDIR = 0
  · rw [if_pos isFile] at handled
    exact error_keeping kept handled
  rw [if_neg isFile] at handled
  by_cases empty : toint count ≤ 0
  · rw [if_pos empty] at handled
    exact reply_keeping kept handled
  rw [if_neg empty] at handled
  split at handled
  · cases handled
  · rename_i r t loop
    refine reply_keeping ?_ handled
    exact readchunks_keeping keeping kept loop

end Handlers

end Infernode.Styx
