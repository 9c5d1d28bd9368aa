import Mathlib.Data.List.Nodup
import Mathlib.Data.List.Perm.Subperm
import Infernode.Program.Runs
import Infernode.Styx.Keeping
import Infernode.Styx.Walks
import Infernode.Veltro.Toolfs

/-!
The qids of the tools over whole runs.

Owns: the names that a client has walked a fid along, what an activation of a tool must leave
alone, and that a fid then keeps its tool in every run.
-/

namespace Infernode.Toolfs

open Text Styx Strings Runs Option
open Tools9p (toolpath TOOL_PATHS)
open List

/-! ### Files -/

variable {b b' : Tools} {name : Str} {ti : ToolInfo} {p k : Nat} {names : List Str}
    {srv : Styxserver Tools} {f : ToolInfo → ToolInfo}

theorem mem_of_findtool (found : findtool b name = some ti) :
    ti ∈ b.tools ∧ ti.name = tolower name :=
  have named := @List.find?_some _ _ _ b.tools found
  ⟨mem_of_find?_eq_some found, eq_of_beq named⟩

theorem mem_of_findtoolbyqid {qid : Nat} (found : findtoolbyqid b qid = some ti) :
    Qtoolbase ≤ qid ∧ ti ∈ b.tools ∧ ti.qid = (blockof qid : Int) := by
  unfold findtoolbyqid at found
  split at found
  · cases found
  · rename_i high
    have based := @List.find?_some _ _ _ b.tools found
    exact ⟨Nat.not_lt.1 high, mem_of_find?_eq_some found, eq_of_beq based⟩

def At (p : Nat) (answer : Option Dir × Str) : Prop := ∀ d, answer.1 = some d → d.qid.path = p

variable {c : Prop} {d : Dir} {ti' : ToolInfo} {n : Nat} {kind : Nat → Prop}
    {srv' : Styxserver Tools} {m : Rmsg} {out : Served} {text : Nat → Str}
    {answer : Nat → Str → RPick} {doc schema : Str → Str} {tools : List ToolInfo}

theorem At.ite [Decidable c] {yes no : Option Dir × Str} (first : At p yes) (second : At p no) :
    At p (if c then yes else no) := by
  split
  · exact first
  · exact second

theorem at_none (p : Nat) (err : Str) : At p (none, err) := fun _ none => nomatch none

theorem at_dir (p : Nat) (user : Str) (vers qtype : Nat) (name : Str) (perm : Nat) :
    At p (some (dir user ⟨p, vers, qtype⟩ name perm), []) := by
  intro _ same
  cases same
  rfl

theorem dirgen_path (there : (dirgen b p).1 = some d) : d.qid.path = p := by
  have entry : At p (dirgen b p) := by
    unfold dirgen
    iterate 15 apply At.ite (at_dir _ _ _ _ _ _)
    apply At.ite
    · cases findtoolbyqid b (TYPE p) with
      | none => exact at_none _ _
      | some _ =>
        iterate 5 apply At.ite (at_dir _ _ _ _ _ _)
        exact at_none _ _
    · exact at_none _ _
  exact entry d there

theorem navigator_still : navigator.Still where
  stat _ _ := rfl
  walk _ _ _ := rfl
  readdir _ _ _ _ := rfl

/-- The blocks of the active tools lie within the qids, and none is shared. -/
structure Laid (b : Tools) : Prop where
  placed : ∀ ti ∈ b.tools, ∃ k : Nat, ti.qid = ((100 + 5 * k : Nat) : Int) ∧ 100 + 5 * k + 4 < 65536
  apart : (b.tools.map fun ti => ti.qid).Nodup

def Owned (b : Tools) (p : Nat) (name : Str) : Prop :=
  ∀ ti ∈ b.tools, ti.qid = (blockof p : Int) → ti.name = tolower name

/-- The names by which a client gets to a path. -/
inductive Placed (b : Tools) : Nat → List Str → Prop
  | root : Placed b Qroot []
  | file {p : Nat} {name : Str} (first : Qtools ≤ p) (last : p ≤ Qgrantable) : Placed b p [name]
  | about {p : Nat} {name file : Str} (first : Qmetarole ≤ p) (last : p ≤ Qmetanodevs) :
      Placed b p [name, file]
  | tool {p : Nat} {name : Str} (high : Qtoolbase ≤ p) (low : p + 4 < 65536)
      (isDir : suboff p = Qtool_dir) (owned : Owned b p name) : Placed b p [name]
  | sub {p : Nat} {name file : Str} (high : Qtoolbase ≤ p) (low : p < 65536)
      (isFile : suboff p ≠ Qtool_dir) (owned : Owned b p name) : Placed b p [name, file]

def follow (names : List Str) (name : Str) : List Str :=
  if name = str ".." then names.dropLast else names ++ [name]

theorem Laid.unique (laid : Laid b) (here : ti ∈ b.tools) (there : ti' ∈ b.tools)
    (same : ti.qid = ti'.qid) : ti = ti' :=
  inj_on_of_nodup_map laid.apart here there same

theorem big_of (small : n < 65536) : big n = n := by
  unfold big
  rw [Int.emod_eq_of_lt (by omega) (by omega), Int.toNat_natCast]

theorem blockof_mul : blockof (100 + 5 * k) = 100 + 5 * k := by
  unfold blockof Qtoolbase TOOL_STRIDE
  omega

def Leads (kind : Nat → Prop) (answer : Except Str Nat) : Prop := ∀ q, answer = .ok q → kind q

theorem Leads.ite [Decidable c] {yes no : Except Str Nat} (first : c → Leads kind yes)
    (second : ¬c → Leads kind no) : Leads kind (if c then yes else no) := by
  split
  · next holds => exact first holds
  · next fails => exact second fails

theorem leads_error (kind : Nat → Prop) (err : Str) : Leads kind (.error err) :=
  fun _ same => nomatch same

theorem leads_ok {q : Nat} (is : kind q) : Leads kind (.ok q) := by
  intro _ same
  cases same
  exact is

theorem follow_dots (dots : name = str "..") :
    follow names name = names.dropLast := if_pos dots

theorem follow_name (noDots : name ≠ str "..") :
    follow names name = names ++ [name] := if_neg noDots

theorem step_root (laid : Laid b) (name : Str) :
    Leads (fun q => Placed b q (follow [] name)) (step b Qroot name) := by
  unfold step
  dsimp only
  rw [if_pos (show TYPE Qroot = Qroot from rfl)]
  apply Leads.ite
  · intro dots
    rw [follow_dots dots]
    exact leads_ok Placed.root
  intro noDots
  rw [follow_name noDots]
  iterate 9
    refine Leads.ite (fun _ => leads_ok (Placed.file (by decide) (by decide))) (fun _ => ?_)
  apply Leads.ite
  · intro _
    exact Leads.ite (fun _ => leads_error _ _)
      (fun _ => leads_ok (Placed.file (by decide) (by decide)))
  intro _
  cases found : findtool b name with
  | none => exact leads_error _ _
  | some ti =>
    have ⟨member, named⟩ := mem_of_findtool found
    have ⟨k, is, _⟩ := laid.placed ti member
    have path : big ti.qid = 100 + 5 * k := by
      rw [is, big_of (by omega)]
    apply leads_ok
    rw [path]
    refine Placed.tool (Nat.le_add_right _ _) (by omega) ?_ ?_
    · unfold suboff Qtoolbase TOOL_STRIDE Qtool_dir
      omega
    intro ti' member' same
    rw [blockof_mul] at same
    have equal : ti' = ti := laid.unique member' member (by rw [same, is])
    rw [equal, named]

theorem Placed.within {file : Str} (high : Qtoolbase ≤ p) (low : p + 4 < 65536)
    (isDir : suboff p = Qtool_dir) (owned : Owned b p name) (positive : 0 < k) (small : k < 5) :
    Placed b (p + k) [name, file] := by
  have whole : (p - 100) % 5 = 0 := isDir
  have large : 100 ≤ p := high
  refine Placed.sub (Nat.le_add_right_of_le high) ?_ ?_ ?_
  · omega
  · unfold suboff Qtoolbase TOOL_STRIDE Qtool_dir
    omega
  intro ti member same
  refine owned ti member (same.trans ?_)
  unfold blockof Qtoolbase TOOL_STRIDE
  omega

theorem step_placed (laid : Laid b) (placed : Placed b p names) :
    Leads (fun q => Placed b q (follow names name)) (step b p name) := by
  cases placed with
  | root => exact step_root laid name
  | file first last =>
    have small : p ≤ 14 := last
    have positive : 1 ≤ p := first
    have type : TYPE p = p := Nat.mod_eq_of_lt (by omega)
    unfold step
    dsimp only
    rw [type, if_neg (show ¬p = Qroot by unfold Qroot; omega)]
    apply Leads.ite
    · intro _
      apply Leads.ite
      · intro dots
        rw [follow_dots dots]
        exact leads_ok Placed.root
      intro noDots
      rw [follow_name noDots]
      iterate 4
        refine Leads.ite (fun _ => leads_ok (Placed.about (by decide) (by decide)))
          (fun _ => ?_)
      exact leads_error _ _
    · intro _
      rw [if_neg (show ¬Qtoolbase ≤ p by unfold Qtoolbase; omega)]
      exact leads_error _ _
  | about first last =>
    have small : p ≤ 13 := last
    have large : 10 ≤ p := first
    have type : TYPE p = p := Nat.mod_eq_of_lt (by omega)
    unfold step
    dsimp only
    rw [type, if_neg (show ¬p = Qroot by unfold Qroot; omega),
      if_neg (show ¬p = Qmeta by unfold Qmeta; omega),
      if_neg (show ¬Qtoolbase ≤ p by unfold Qtoolbase; omega)]
    exact leads_error _ _
  | tool high low isDir owned =>
    have large : 100 ≤ p := high
    have type : TYPE p = p := Nat.mod_eq_of_lt (by omega)
    unfold step
    dsimp only
    rw [type, if_neg (show ¬p = Qroot by unfold Qroot; omega),
      if_neg (show ¬p = Qmeta by unfold Qmeta; omega), if_pos high,
      if_neg (not_not.2 isDir)]
    apply Leads.ite
    · intro dots
      rw [follow_dots dots]
      exact leads_ok Placed.root
    intro noDots
    rw [follow_name noDots]
    iterate 4
      refine Leads.ite (fun _ =>
        leads_ok (Placed.within high low isDir owned (by decide) (by decide))) (fun _ => ?_)
    exact leads_error _ _
  | sub high low isFile _ =>
    have large : 100 ≤ p := high
    have type : TYPE p = p := Nat.mod_eq_of_lt low
    unfold step
    dsimp only
    rw [type, if_neg (show ¬p = Qroot by unfold Qroot; omega),
      if_neg (show ¬p = Qmeta by unfold Qmeta; omega), if_pos high,
      if_pos isFile]
    exact leads_error _ _

theorem walk_placed (laid : Laid b) {here : Dir} (placed : Placed b p names)
    (asked : (navigator.stat b p).1.1 = some here)
    (moved : (navigator.walk b here.qid.path name).1.1 = some d) :
    Placed b d.qid.path (follow names name) := by
  rw [dirgen_path asked] at moved
  have there : (walk b p name).1 = some d := moved
  unfold walk at there
  cases steps : step b p name with
  | error _ =>
    rw [steps] at there
    cases there
  | ok q =>
    rw [steps] at there
    rw [dirgen_path there]
    exact step_placed laid placed q steps

/-! ### Runs -/

/-- The server, and the names along which the clients have walked the fids, by the replies that
they got. -/
structure Run where
  server : Server
  seen : Nat → Option (List Str)

def sees (seen : Nat → Option (List Str)) (gm : Tmsg) (reply : Option Rmsg) :
    Nat → Option (List Str) :=
  match gm.pick, reply.map Rmsg.pick with
  | .attach fid _ _ _, some (.attach _) => fun n => if n = fid then some [] else seen n
  | .walk fid newfid names, some (.walk qids) =>
    if qids.length = names.length then
      fun n => if n = newfid then (seen fid).map fun first => names.foldl follow first else seen n
    else seen
  | .clunk fid, _ => fun n => if n = fid then none else seen n
  | .remove fid, _ => fun n => if n = fid then none else seen n
  | _, _ => seen

/-- A message of a client, the end of a call, or the loading of a module. -/
inductive Step
  | request (fuel : Nat) (gm : Tmsg) (few : gm.pick.FewNames)
  | finish (k : Nat) (result : Option Str)
  | loaded (name : Str)

section Runs

variable (text : Nat → Str) (answer : Nat → Str → RPick) (doc schema : Str → Str)

def perform (r : Run) : Step → Option Run
  | .request fuel gm _ =>
    (serve text answer doc schema r.server fuel gm).map fun out =>
      ⟨out.server, sees r.seen gm out.reply⟩
  | .finish k result => some { r with server := r.server.finish k result }
  | .loaded name => some { r with server := r.server.loaded name }

end Runs

/-- The message makes an inactive tool of the name active. -/
def Adds (s : Server) (gm : Tmsg) (name : Str) : Prop :=
  ∃ fid offset data c ti, gm.pick = .write fid offset data ∧
    s.srv.canwrite fid offset = .ok c ∧ TYPE c.path = Qctl ∧
    unlined (Lib9.c2string data) = str "add " ++ name ∧ findtool s.srv.t name = none ∧
    findalltool s.srv.t name = some ti ∧ ti.mod = true

def Free (s : Server) (seen : Nat → Option (List Str)) (name : Str) : Prop :=
  nextqid s.srv.t + 4 < 65536 ∧
    ∀ n c first rest, s.srv.getfid n = some c → seen n = some (first :: rest) →
      Qtoolbase ≤ c.path → (blockof c.path : Int) = nextqid s.srv.t →
        tolower first = tolower name

/-- A tool that is made active gets a block that is free for it. -/
def Spared (r : Run) : Step → Prop
  | .request _ gm _ => ∀ name, Adds r.server gm name → Free r.server r.seen name
  | _ => True

def Use.tool : Use → Str
  | .runs tool => tool
  | .doc tool => tool
  | .schema tool => tool
  | .result tool => tool

def onFile : TPick → Option Nat
  | .read fid _ _ => some fid
  | .write fid _ _ => some fid
  | _ => none

/-! ### What every state has -/

/-- The calls and the data of a fid that is open are of the tool that it was walked to. -/
def Mine (srv : Styxserver Tools) (seen : Nat → Option (List Str)) (n : Nat) (tool : Str) : Prop :=
  ∃ c, srv.getfid n = some c ∧ c.isopen = true ∧
    ∀ first rest, seen n = some (first :: rest) → tool = tolower first

structure Inv (s : Server) (seen : Nat → Option (List Str)) : Prop where
  keyed : s.srv.Keyed
  session : 256 ≤ s.srv.msize ∨ (s.srv.msize = 0 ∧ ∀ n, seen n = none)
  laid : Laid s.srv.t
  fids : ∀ n names, seen n = some names →
    ∃ c, s.srv.getfid n = some c ∧ Placed s.srv.t c.path names
  calls : ∀ call ∈ s.calls, ∀ n, call.fid = some n → Mine s.srv seen n call.tool
  data : ∀ n result, s.data n = some result → Mine s.srv seen n result.tool

def Fewer (b b' : Tools) : Prop :=
  ∀ ti' ∈ b'.tools, ∃ ti ∈ b.tools, ti.name = ti'.name ∧ ti.qid = ti'.qid

def Stays (srv srv' : Styxserver Tools) : Prop :=
  ∀ n c, srv.getfid n = some c →
    ∃ c', srv'.getfid n = some c' ∧ c'.path = c.path ∧ (c.isopen = true → c'.isopen = true)

theorem Fewer.refl (b : Tools) : Fewer b b := fun ti' member => ⟨ti', member, rfl, rfl⟩

theorem Stays.of_same (same : SameFids srv srv') : Stays srv srv' := by
  intro n c found
  exact ⟨c, (same n).trans found, rfl, id⟩

theorem Owned.mono (fewer : Fewer b b') (owned : Owned b p name) : Owned b' p name := by
  intro ti' member same
  have ⟨ti, there, named, based⟩ := fewer ti' member
  exact named ▸ owned ti there (based.trans same)

theorem Placed.mono (fewer : Fewer b b') (placed : Placed b p names) : Placed b' p names := by
  cases placed with
  | root => exact Placed.root
  | file first last => exact Placed.file first last
  | about first last => exact Placed.about first last
  | tool high low isDir owned => exact Placed.tool high low isDir (owned.mono fewer)
  | sub high low isFile owned => exact Placed.sub high low isFile (owned.mono fewer)

variable {seen : Nat → Option (List Str)} {s : Server}

theorem Mine.stays (stays : Stays srv srv') {tool : Str} (mine : Mine srv seen n tool) :
    Mine srv' seen n tool := by
  have ⟨c, found, opened, named⟩ := mine
  have ⟨c', there, _, still⟩ := stays n c found
  exact ⟨c', there, still opened, named⟩

/-- A step that moves no fid and adds no tool, call or result. -/
theorem Inv.frame {s' : Server} (inv : Inv s seen) (keyed : s'.srv.Keyed)
    (msize : s'.srv.msize = s.srv.msize ∨ 256 ≤ s'.srv.msize) (laid : Laid s'.srv.t)
    (fewer : Fewer s.srv.t s'.srv.t) (stays : Stays s.srv s'.srv)
    (calls : ∀ call ∈ s'.calls, call ∈ s.calls)
    (data : ∀ n result, s'.data n = some result → s.data n = some result) : Inv s' seen where
  keyed := keyed
  session := by
    rcases msize with same | large
    · rw [same]
      exact inv.session
    · exact Or.inl large
  laid := laid
  fids := by
    intro n names walked
    have ⟨c, found, placed⟩ := inv.fids n names walked
    have ⟨c', there, path, _⟩ := stays n c found
    exact ⟨c', there, path ▸ placed.mono fewer⟩
  calls := fun call member n is => (inv.calls call (calls call member) n is).stays stays
  data := fun n result is => (inv.data n result (data n result is)).stays stays

/-- The library answers, and neither the tools nor the fids change. -/
theorem Inv.same {s : Server} {seen : Nat → Option (List Str)} (inv : Inv s seen)
    {srv : Styxserver Tools} (keyed : srv.Keyed) (msize : srv.msize = s.srv.msize ∨ 256 ≤ srv.msize)
    (state : srv.t = s.srv.t) (stays : Stays s.srv srv) : Inv { s with srv := srv } seen :=
  inv.frame keyed msize (by rw [state]; exact inv.laid) (by rw [state]; exact Fewer.refl _) stays
    (fun _ member => member) (fun _ _ is => is)

theorem answered_eq {use : Option Use} (answered : s.answered m use = some out) :
    out.server = s ∧ out.use = use := by
  have ⟨_, _, same⟩ := map_eq_some_iff.1 answered
  cases same
  exact ⟨rfl, rfl⟩

theorem handled_eq {h : Option (Handled Tools)} (handled : s.handled h = some out) :
    ∃ h', h = some h' ∧ out = ⟨{ s with srv := h'.srv }, some h'.reply, none⟩ := by
  have ⟨h', is, same⟩ := map_eq_some_iff.1 handled
  exact ⟨h', is, same.symm⟩

/-! ### Entries changed in place -/

theorem mem_update (kept : ∀ ti, (f ti).name = ti.name ∧ (f ti).qid = ti.qid)
    (member : ti' ∈ (update name f b).tools) :
    ∃ ti ∈ b.tools, ti.name = ti'.name ∧ ti.qid = ti'.qid := by
  have ⟨ti, there, same⟩ := mem_map.1 member
  refine ⟨ti, there, ?_⟩
  split at same
  · rw [← same]
    exact ⟨(kept ti).1.symm, (kept ti).2.symm⟩
  · rw [same]
    exact ⟨rfl, rfl⟩

theorem qids_update (kept : ∀ ti, (f ti).name = ti.name ∧ (f ti).qid = ti.qid) :
    ((update name f b).tools.map fun ti => ti.qid) = b.tools.map fun ti => ti.qid := by
  unfold update
  rw [List.map_map]
  refine map_congr_left fun ti _ => ?_
  dsimp only [Function.comp_apply]
  split
  · exact (kept ti).2
  · rfl

theorem Laid.update (laid : Laid b) (kept : ∀ ti, (f ti).name = ti.name ∧ (f ti).qid = ti.qid) :
    Laid (Toolfs.update name f b) where
  placed := by
    intro _ member
    have ⟨ti, there, _, based⟩ := mem_update kept member
    exact based ▸ laid.placed ti there
  apart := by
    rw [qids_update kept]
    exact laid.apart

theorem Inv.update (inv : Inv s seen) (name : Str)
    (kept : ∀ ti, (f ti).name = ti.name ∧ (f ti).qid = ti.qid) : Inv (s.update name f) seen :=
  inv.frame inv.keyed (Or.inl rfl) (inv.laid.update kept)
    (fun _ member => mem_update kept member) (Stays.of_same fun _ => rfl)
    (fun _ member => member) (fun _ _ is => is)

/-! ### Commands -/

theorem maxqid_spec (tools : List ToolInfo) (most : Int) :
    let last := tools.foldl (fun most ti => if most < ti.qid then ti.qid else most) most
    most ≤ last ∧ (∀ ti ∈ tools, ti.qid ≤ last) ∧ (last = most ∨ ∃ ti ∈ tools, ti.qid = last) := by
  induction tools generalizing most with
  | nil => exact ⟨Int.le_refl _, nofun, Or.inl rfl⟩
  | cons first _ ih =>
    have ⟨above, all, which⟩ := ih (if most < first.qid then first.qid else most)
    rw [foldl_cons]
    refine ⟨?_, ?_, ?_⟩
    · refine Int.le_trans ?_ above
      split <;> omega
    · intro ti member
      rcases mem_cons.1 member with is | later
      · rw [is]
        refine Int.le_trans ?_ above
        split <;> omega
      · exact all ti later
    · rcases which with is | ⟨ti, member, is⟩
      · rw [is]
        split
        · exact Or.inr ⟨first, mem_cons_self, rfl⟩
        · exact Or.inl rfl
      · exact Or.inr ⟨ti, mem_cons_of_mem _ member, is⟩

/-- The next block is above the blocks of all active tools. -/
theorem nextqid_spec (laid : Laid b) (small : nextqid b + 4 < 65536) :
    (∃ k : Nat, nextqid b = ((100 + 5 * k : Nat) : Int) ∧ 100 + 5 * k + 4 < 65536) ∧
      ∀ ti ∈ b.tools, ti.qid < nextqid b := by
  have ⟨_, all, which⟩ := maxqid_spec b.tools (Qtoolbase - TOOL_STRIDE : Int)
  have start : (Qtoolbase - TOOL_STRIDE : Int) = 95 := rfl
  have form : ∃ k : Nat, maxqid b.tools + 5 = ((100 + 5 * k : Nat) : Int) ∧
      maxqid b.tools < 65536 := by
    rcases which with is | ⟨ti, member, is⟩
    · have is' : maxqid b.tools = 95 := is.trans start
      exact ⟨0, by omega, by omega⟩
    · have ⟨k, _, low⟩ := laid.placed ti member
      have is' : ti.qid = maxqid b.tools := is
      exact ⟨k + 1, by omega, by omega⟩
  have ⟨k, is, _⟩ := form
  have next : nextqid b = maxqid b.tools + 5 := by
    show wrap (maxqid b.tools + 5) = _
    apply wrap_of_inWord
    unfold InWord
    omega
  refine ⟨⟨k, next.trans is, by omega⟩, fun ti member => ?_⟩
  have below : ti.qid ≤ maxqid b.tools := all ti member
  omega

theorem ctladd_cases (added : ctladd b name = .ok b') :
    b' = b ∨ findtool b name = none ∧ ∃ ti, findalltool b name = some ti ∧ ti.mod = true ∧
      b'.tools = { ti with qid := nextqid b } :: b.tools := by
  have lower (tools : List ToolInfo) : findin tools (tolower name) = findin tools name := by
    unfold findin
    rw [tolower_tolower]
  unfold ctladd findtool findalltool at added
  dsimp only at added
  rw [lower, lower] at added
  split at added
  · cases added
    exact Or.inl rfl
  rename_i inactive
  split at added
  · cases added
  rename_i ti found
  split at added
  · cases added
  rename_i loaded
  cases added
  refine Or.inr ⟨?_, ti, found, ?_, rfl⟩
  · exact not_isSome_iff_eq_none.1 inactive
  · exact (Bool.not_eq_false _).mp loaded

theorem Laid.add (laid : Laid b) (small : nextqid b + 4 < 65536)
    (tools : b'.tools = { ti with qid := nextqid b } :: b.tools) : Laid b' := by
  have ⟨form, above⟩ := nextqid_spec laid small
  constructor
  · intro ti' member
    rw [tools] at member
    rcases mem_cons.1 member with is | old
    · rw [is]
      exact form
    · exact laid.placed ti' old
  · rw [tools, map_cons]
    refine nodup_cons.2 ⟨?_, laid.apart⟩
    intro member
    have ⟨old, there, same⟩ := mem_map.1 member
    have below := above old there
    rw [same] at below
    exact absurd below (Int.lt_irrefl _)

theorem fewer_remove (b : Tools) (name : Str) : Fewer b (ctlremove b name) := by
  intro ti' member
  have there := mem_reverse.1 member
  exact ⟨ti', (mem_filter.1 there).1, rfl, rfl⟩

theorem Laid.remove (laid : Laid b) (name : Str) : Laid (ctlremove b name) := by
  constructor
  · intro ti' member
    exact laid.placed ti' (mem_filter.1 (mem_reverse.1 member)).1
  · unfold ctlremove
    rw [map_reverse, nodup_reverse]
    exact List.Nodup.sublist (filter_sublist.map _) laid.apart

/-! ### Requests -/

section Requests

variable {text : Nat → Str} {answer : Nat → Str → RPick} {doc schema : Str → Str}
  {s : Server} {seen : Nat → Option (List Str)} {out : Served}

variable {fid offset count fuel tag : Nat} {c : Fid} {h : Handled Tools} {gm : Tmsg}

variable {first : Str} {rest : List Str} {data : List Nat} {use : Use}

theorem Inv.owner (inv : Inv s seen) (found : s.srv.getfid fid = some c)
    (tool : findtoolbyqid s.srv.t (TYPE c.path) = some ti)
    (walked : seen fid = some (first :: rest)) : ti.name = tolower first := by
  have ⟨_, there, placed⟩ := inv.fids fid _ walked
  rw [found] at there
  cases there
  have ⟨high, member, based⟩ := mem_of_findtoolbyqid tool
  generalize c.path = p at placed high based
  have high' : 100 ≤ p % 65536 := high
  cases placed with
  | file _ last =>
    have last' : p ≤ 14 := last
    omega
  | about _ last =>
    have last' : p ≤ 13 := last
    omega
  | tool _ _ _ owned =>
    have type : TYPE p = p := Nat.mod_eq_of_lt (by omega)
    rw [type] at based
    exact owned ti member based
  | sub _ low _ owned =>
    have type : TYPE p = p := Nat.mod_eq_of_lt low
    rw [type] at based
    exact owned ti member based

theorem canread_found (able : srv.canread fid offset count = .ok c) :
    srv.getfid fid = some c := (canread_eq able).1

theorem canwrite_found (able : srv.canwrite fid offset = .ok c) :
    srv.getfid fid = some c ∧ c.isopen = true := by
  unfold Styxserver.canwrite at able
  cases found : srv.getfid fid with
  | none =>
    rw [found] at able
    cases able
  | some c' =>
    rw [found] at able
    dsimp only at able
    split at able
    · cases able
    rename_i opened
    split at able
    · cases able
    split at able
    · cases able
    split at able
    · cases able
    · cases able
      exact ⟨rfl, (Bool.not_eq_false _).mp opened⟩

theorem read_inv (inv : Inv s seen)
    (handled : s.srv.read navigator fuel tag fid offset count = some h) :
    Inv { s with srv := h.srv } seen := by
  have keeping : navigator.Keeping (fun t => t = s.srv.t) (fun _ => True) :=
    ⟨fun _ _ same => same, fun _ _ _ _ same => same, fun _ _ _ _ same => same,
      True.intro⟩
  have state : h.srv.t = s.srv.t := read_keeping keeping rfl handled
  unfold Styxserver.read at handled
  split at handled
  · have same := (Styxserver.error_eq handled).1
    exact inv.same (same ▸ inv.keyed) (Or.inl (by rw [same])) state
      (Stays.of_same fun n => by rw [same])
  rename_i c able
  split at handled
  · have same := (Styxserver.error_eq handled).1
    exact inv.same (same ▸ inv.keyed) (Or.inl (by rw [same])) state
      (Stays.of_same fun n => by rw [same])
  split at handled
  · have same := (Styxserver.reply_eq handled).1
    exact inv.same (same ▸ inv.keyed) (Or.inl (by rw [same])) state
      (Stays.of_same fun n => by rw [same])
  dsimp only at handled
  split at handled
  · cases handled
  rename_i r t chunks
  have same := (Styxserver.reply_eq handled).1
  have found := canread_found able
  have number := Styxserver.fid_of_getfid found
  refine inv.same ?_ (Or.inl (by rw [same]; rfl)) state ?_
  · rw [same]
    exact Buckets.Keyed.set inv.keyed _
  intro n old there
  have present : ({ s.srv with t := t } : Styxserver Tools).getfid
      ({ c with doffset := (r.offset, r.index) } : Fid).fid = some c := by
    rw [← number] at found
    exact found
  have table := Styxserver.getfid_setfid_of _ present n
  by_cases here : n = c.fid
  · have old' : old = c := by
      rw [here, number, found] at there
      exact (Option.some.inj there).symm
    refine ⟨_, by rw [same, table, if_pos here], ?_⟩
    rw [old']
    exact ⟨rfl, id⟩
  · exact ⟨old, by rw [same, table, if_neg here]; exact there, rfl, id⟩

theorem serveread_inv (inv : Inv s seen)
    (served : serveread text doc schema s fuel tag fid offset count = some out) :
    Inv out.server seen ∧ ∀ use, out.use = some use →
      ∀ first rest, seen fid = some (first :: rest) → use.tool = tolower first := by
  have plain {m : Rmsg} (answered : s.answered m none = some out) :
      Inv out.server seen ∧ ∀ use, out.use = some use →
        ∀ first rest, seen fid = some (first :: rest) → use.tool = tolower first := by
    have ⟨server, use⟩ := answered_eq answered
    rw [server, use]
    exact ⟨inv, nofun⟩
  have listed (handled : s.handled (s.srv.read navigator fuel tag fid offset count) = some out) :
      Inv out.server seen ∧ ∀ use, out.use = some use →
        ∀ first rest, seen fid = some (first :: rest) → use.tool = tolower first := by
    have ⟨h, is, same⟩ := handled_eq handled
    rw [same]
    exact ⟨read_inv inv is, nofun⟩
  unfold serveread at served
  split at served
  · exact plain served
  rename_i c able
  have found := canread_found able
  split at served
  · exact listed served
  dsimp only at served
  split at served
  · split at served
    · exact plain served
    · exact plain served
  split at served
  · exact plain served
  rename_i ti tool
  have owner {first : Str} {rest : List Str}
      (walked : seen fid = some (first :: rest)) : ti.name = tolower first :=
    inv.owner found tool walked
  have told {m : Rmsg} {use : Use} (answered : s.answered m (some use) = some out)
      (which : use.tool = ti.name) : Inv out.server seen ∧
      ∀ use, out.use = some use →
        ∀ first rest, seen fid = some (first :: rest) →
          use.tool = tolower first := by
    have ⟨server, is⟩ := answered_eq answered
    rw [server, is]
    refine ⟨inv, ?_⟩
    intro use' same first rest walked
    cases same
    rw [which]
    exact owner walked
  split at served
  · exact listed served
  split at served
  · split at served
    · rename_i result kept
      have ⟨server, is⟩ := answered_eq served
      rw [server, is]
      refine ⟨inv, ?_⟩
      intro use same first rest walked
      cases same
      have ⟨_, _, _, named⟩ := inv.data fid result kept
      exact named first rest walked
    · have ⟨server, is⟩ := answered_eq served
      rw [server, is]
      refine ⟨inv.update ti.name fun _ => ⟨rfl, rfl⟩, ?_⟩
      intro use same first rest walked
      cases same
      exact owner walked
  · split at served
    · exact told served rfl
    · split at served
      · exact told served rfl
      · exact plain served

theorem Placed.add {q : Int} (tools : b'.tools = { ti with qid := q } :: b.tools)
    (placed : Placed b p names)
    (only : ∀ first rest, names = first :: rest → Qtoolbase ≤ p → (blockof p : Int) = q →
      ti.name = tolower first) : Placed b' p names := by
  have owns {first : Str} {rest : List Str} (is : names = first :: rest) (high : Qtoolbase ≤ p)
      (owned : Owned b p first) : Owned b' p first := by
    intro ti' member same
    rw [tools] at member
    rcases mem_cons.1 member with new | old
    · rw [new] at same ⊢
      exact only first rest is high same.symm
    · exact owned ti' old same
  cases placed with
  | root => exact Placed.root
  | file first last => exact Placed.file first last
  | about first last => exact Placed.about first last
  | tool high low isDir owned => exact Placed.tool high low isDir (owns rfl high owned)
  | sub high low isFile owned => exact Placed.sub high low isFile (owns rfl high owned)

/-- The tools are others, and the fids are on files of them. -/
theorem Inv.state (inv : Inv s seen) (laid : Laid b)
    (placed : ∀ n c names, s.srv.getfid n = some c → seen n = some names →
      Placed s.srv.t c.path names → Placed b c.path names) :
    Inv { s with srv := { s.srv with t := b } } seen where
  keyed := inv.keyed
  session := inv.session
  laid := laid
  fids := by
    intro n names walked
    have ⟨c, found, here⟩ := inv.fids n names walked
    exact ⟨c, found, placed n c names found walked here⟩
  calls := inv.calls
  data := inv.data

theorem writectl_inv (inv : Inv s seen) {args : Str}
    (spared : ∀ name ti, args = str "add " ++ name → findtool s.srv.t name = none →
      findalltool s.srv.t name = some ti → ti.mod = true → Free s seen name) :
    Inv { s with srv := { s.srv with t := (writectl answer s.srv.t args count).1 } } seen := by
  unfold writectl
  split
  · rename_i isAdd
    split
    · exact inv
    rename_i b added
    rcases ctladd_cases added with same | ⟨inactive, ti, found, loaded, tools⟩
    · rw [same]
      exact inv
    have named : args = str "add " ++ args.drop 4 := by
      rw [← isAdd.2, take_append_drop]
    have ⟨small, free⟩ := spared (args.drop 4) ti named inactive found loaded
    have tiName : ti.name = tolower (args.drop 4) := by
      have is := @List.find?_some _ _ _ s.srv.t.alltools found
      exact eq_of_beq is
    refine inv.state (inv.laid.add small tools) ?_
    intro n c names there walked placed
    refine placed.add tools ?_
    intro first rest is high same
    rw [is] at walked
    rw [tiName, free n c first rest there walked high same]
  · split
    · exact inv.state (inv.laid.remove _) fun n c names _ _ placed =>
        placed.mono (fewer_remove _ _)
    · exact inv

theorem servewrite_inv (inv : Inv s seen)
    (spared : ∀ name, Adds s ⟨tag, .write fid offset data⟩ name → Free s seen name)
    (served : servewrite answer s tag fid offset data = some out) : Inv out.server seen := by
  have plain {m : Rmsg} (answered : s.answered m none = some out) : Inv out.server seen := by
    rw [(answered_eq answered).1]
    exact inv
  unfold servewrite at served
  split at served
  · exact plain served
  rename_i c able
  have ⟨found, opened⟩ := canwrite_found able
  dsimp only at served
  split at served
  · rename_i isCtl
    rw [(answered_eq served).1]
    apply writectl_inv inv
    intro name ti is inactive known loaded
    exact spared name
      ⟨fid, offset, data, c, ti, rfl, able, isCtl, is, inactive, known, loaded⟩
  split at served
  · exact plain served
  split at served
  · split at served
    · exact plain served
    split at served
    · exact plain served
    rename_i ti tool
    cases served
    refine ⟨inv.keyed, inv.session, inv.laid, inv.fids, ?_, inv.data⟩
    intro call member n is
    rcases mem_append.1 member with old | new
    · exact inv.calls call old n is
    · rw [mem_singleton.1 new] at is ⊢
      cases is
      exact ⟨c, found, opened, fun _ _ walked => inv.owner found tool walked⟩
  · exact plain served

theorem servewrite_use (inv : Inv s seen)
    (served : servewrite answer s tag fid offset data = some out) (is : out.use = some use)
    (walked : seen fid = some (first :: rest)) : use.tool = tolower first := by
  have plain {s' : Server} {m : Rmsg} (answered : s'.answered m none = some out) :
      use.tool = tolower first := by
    rw [(answered_eq answered).2] at is
    cases is
  unfold servewrite at served
  split at served
  · exact plain served
  rename_i c able
  dsimp only at served
  split at served
  · exact plain served
  split at served
  · exact plain served
  split at served
  · split at served
    · exact plain served
    split at served
    · exact plain served
    rename_i ti tool
    cases served
    cases is
    exact inv.owner (canwrite_found able).1 tool walked
  · exact plain served

theorem Inv.put (inv : Inv s seen) {seen' : Nat → Option (List Str)} (keyed : srv.Keyed)
    (msize : srv.msize = s.srv.msize) (state : srv.t = s.srv.t)
    (table : ∀ n, srv.getfid n = if n = k then some c else s.srv.getfid n)
    (closed : ∀ old, s.srv.getfid k = some old → old.isopen = false)
    (others : ∀ n, n ≠ k → seen' n = seen n)
    (walked : ∀ names, seen' k = some names → Placed s.srv.t c.path names)
    (early : s.srv.msize = 0 → seen' k = none) : Inv { s with srv := srv } seen' := by
  have mine {n : Nat} {tool : Str} (had : Mine s.srv seen n tool) : Mine srv seen' n tool := by
    have ⟨old, found, opened, named⟩ := had
    have other : n ≠ k := by
      intro same
      rw [same] at found
      rw [closed old found] at opened
      cases opened
    refine ⟨old, by rw [table, if_neg other]; exact found, opened, ?_⟩
    rw [others n other]
    exact named
  refine ⟨keyed, ?_, state ▸ inv.laid, ?_, ?_, ?_⟩
  · rcases inv.session with begun | ⟨zero, none⟩
    · exact Or.inl (msize ▸ begun)
    refine Or.inr ⟨msize.trans zero, fun n => ?_⟩
    by_cases here : n = k
    · rw [here]
      exact early zero
    · rw [others n here]
      exact none n
  · intro n names is
    show ∃ c, srv.getfid n = some c ∧ Placed srv.t c.path names
    by_cases here : n = k
    · rw [here] at is
      exact ⟨c, by rw [table, if_pos here], state ▸ walked names is⟩
    · rw [others n here] at is
      have ⟨old, found, placed⟩ := inv.fids n names is
      exact ⟨old, by rw [table, if_neg here]; exact found, state ▸ placed⟩
  · exact fun call member n is => mine (inv.calls call member n is)
  · exact fun n result is => mine (inv.data n result is)

theorem reply_early {σ : Type} {srv : Styxserver σ} {fid : Option Fid} {h : Handled σ}
    (after : h.srv.msize = 0) (replied : srv.reply fid m = some h) : h.reply.IsError := by
  have zero : srv.msize = 0 := by
    rw [← (Styxserver.reply_eq replied).1]
    exact after
  have ⟨_, written, same⟩ := map_eq_some_iff.1 replied
  rw [← same]
  unfold Styxserver.replydirect at written
  rw [if_pos zero] at written
  have ⟨_, _, rest⟩ := bind_eq_some_iff.1 written
  rw [if_neg (fun both => both.1 zero)] at rest
  cases rest
  exact ⟨_, rfl⟩

theorem sees_attach (fid afid : Nat) (uname aname : Str) (tag : Nat) (m : Rmsg) :
    (¬m.IsError ∧ sees seen ⟨tag, .attach fid afid uname aname⟩ (some m) =
      fun n => if n = fid then some [] else seen n) ∨
    sees seen ⟨tag, .attach fid afid uname aname⟩ (some m) = seen := by
  have ⟨_, pick⟩ := m
  cases pick with
  | attach _ => exact Or.inl ⟨(fun ⟨err, is⟩ => nomatch is), rfl⟩
  | _ => exact Or.inr rfl

theorem sees_walk (fid newfid : Nat) (names : List Str) (tag : Nat) (m : Rmsg) :
    (∃ qids, m.pick = .walk qids ∧ qids.length = names.length ∧
      sees seen ⟨tag, .walk fid newfid names⟩ (some m) = fun n =>
        if n = newfid then (seen fid).map fun first => names.foldl follow first else seen n) ∨
    (∀ qids, m.pick = .walk qids → qids.length ≠ names.length) ∧
      sees seen ⟨tag, .walk fid newfid names⟩ (some m) = seen := by
  have ⟨_, pick⟩ := m
  cases pick with
  | walk qids =>
    by_cases whole : qids.length = names.length
    · exact Or.inl ⟨qids, rfl, whole, if_pos whole⟩
    refine Or.inr ⟨?_, if_neg whole⟩
    intro _ same
    cases same
    exact whole
  | _ => exact Or.inr ⟨(fun _ is => nomatch is), rfl⟩

theorem refused_inv (inv : Inv s seen) {msg : Str} (same : srv = s.srv)
    (error : srv.error tag msg = some h) : Inv { s with srv := h.srv } seen := by
  have is := (Styxserver.error_eq error).1
  rw [is, same]
  exact inv

theorem attach_inv (inv : Inv s seen) {afid : Nat} {uname aname : Str}
    (handled : s.srv.attach navigator Qroot tag fid uname aname = some h) :
    Inv { s with srv := h.srv } (sees seen ⟨tag, .attach fid afid uname aname⟩ (some h.reply)) := by
  unfold Styxserver.attach at handled
  have root : navigator.stat s.srv.t Qroot =
      ((some (dir s.srv.t.user ⟨Qroot, s.srv.t.vers, QTDIR⟩ (str "/") 0o755), []), s.srv.t) := rfl
  rw [root] at handled
  dsimp only at handled
  have isDir : ¬(dir s.srv.t.user ⟨Qroot, s.srv.t.vers, QTDIR⟩ (str "/") 0o755).qid.qtype &&&
      QTDIR = 0 := by
    show ¬QTDIR &&& QTDIR = 0
    decide
  rw [if_neg isDir] at handled
  split at handled
  · have ⟨is, error⟩ := Styxserver.error_eq handled
    rcases @sees_attach seen fid afid uname aname tag h.reply with ⟨answered, _⟩ | same
    · exact absurd error answered
    · rw [same]
      exact refused_inv inv rfl handled
  rename_i after c created
  have ⟨free, number, msize, keyed, table⟩ :=
    Styxserver.newfid_eq { s.srv with t := s.srv.t } inv.keyed created
  have state : after.t = s.srv.t := newfid_t created
  have is := (Styxserver.reply_eq handled).1
  have lookups : ∀ n, h.srv.getfid n = if n = fid then
      some { c with uname := uname, param := aname, path := Qroot, qtype := QTDIR }
      else s.srv.getfid n := by
    intro n
    rw [is, Styxserver.getfid_setfid, table]
    show (if n = c.fid then _ else _) = _
    by_cases here : n = fid
    · rw [if_pos (here.trans number.symm), if_pos here, if_pos here, map_some]
      rfl
    · rw [if_neg (fun same => here (same.trans number)), if_neg here, if_neg here]
  have keyed' : h.srv.Keyed := by
    rw [is]
    exact Buckets.Keyed.set keyed _
  have msize' : h.srv.msize = s.srv.msize := by
    rw [is]
    exact msize
  have state' : h.srv.t = s.srv.t := by
    rw [is]
    exact state
  have closed (old : Fid) (found : s.srv.getfid fid = some old) : old.isopen = false := by
    rw [show s.srv.getfid fid = none from free] at found
    cases found
  rcases @sees_attach seen fid afid uname aname tag h.reply with ⟨answered, same⟩ | same
  · rw [same]
    refine inv.put keyed' msize' state' lookups closed (fun n other => if_neg other) ?_ ?_
    · intro names walked
      rw [if_pos rfl] at walked
      cases walked
      exact Placed.root
    · intro zero
      exact absurd (reply_early (msize'.trans zero) handled) answered
  rw [same]
  have unseen : seen fid = none := by
    cases walked : seen fid with
    | none => rfl
    | some names =>
      have ⟨old, found, _⟩ := inv.fids fid names walked
      rw [show s.srv.getfid fid = none from free] at found
      cases found
  refine inv.put keyed' msize' state' lookups closed (fun _ _ => rfl) ?_ (fun _ => unseen)
  intro names walked
  rw [unseen] at walked
  cases walked

theorem walk_inv (inv : Inv s seen) {newfid : Nat} (few : names.length ≤ MAXWELEM)
    (handled : s.srv.walk navigator tag fid newfid names = some h) :
    Inv { s with srv := h.srv } (sees seen ⟨tag, .walk fid newfid names⟩ (some h.reply)) := by
  have keeping : navigator.Keeping (fun t => t = s.srv.t) (fun _ => True) :=
    ⟨fun _ _ same => same, fun _ _ _ _ same => same, fun _ _ _ _ same => same, True.intro⟩
  have state : h.srv.t = s.srv.t := walk_keeping keeping rfl (fun _ _ => True.intro) handled
  have ⟨keyed, msize, went⟩ := walk_table inv.keyed few handled
  rcases went with ⟨⟨went⟩⟩ | ⟨sameFids, fewer, _⟩
  · have closed (old : Fid) (found : s.srv.getfid newfid = some old) : old.isopen = false := by
      rcases went.fresh with same | free
      · rw [same, went.found] at found
        cases found
        exact went.closed
      · rw [free] at found
        cases found
    rcases inv.session with begun | ⟨zero, none⟩
    · have reply := went.reply begun
      have same : sees seen ⟨tag, .walk fid newfid names⟩ (some h.reply) = fun n =>
          if n = newfid then (seen fid).map fun first => names.foldl follow first
          else seen n := by
        rcases @sees_walk seen fid newfid names tag h.reply with
          ⟨_, _, _, same⟩ | ⟨not, _⟩
        · exact same
        · exact absurd went.whole (not _ reply)
      rw [same]
      refine inv.put keyed msize state went.table closed (fun n other => if_neg other) ?_ ?_
      · intro walked is
        rw [if_pos rfl] at is
        have ⟨first, walkedFirst, last⟩ := map_eq_some_iff.1 is
        have ⟨_, found, placed⟩ := inv.fids fid first walkedFirst
        rw [went.found] at found
        cases found
        rw [← last]
        exact walknames_along navigator_still
          (fun path a name here d placed asked moved => walk_placed inv.laid placed asked moved)
          names went.state (went.path ▸ placed) went.loop
      · intro _
        omega
    · have same (n : Nat) :
          sees seen ⟨tag, .walk fid newfid names⟩ (some h.reply) n = Option.none := by
        rcases @sees_walk seen fid newfid names tag h.reply with
          ⟨_, _, _, same⟩ | ⟨_, same⟩
        · rw [same]
          show (if n = newfid then (seen fid).map _ else seen n) = Option.none
          rw [none fid, none n]
          split
          · rfl
          · rfl
        · rw [same]
          exact none n
      refine inv.put keyed msize state went.table closed ?_ ?_ (fun _ => same newfid)
      · intro n _
        rw [same n, none n]
      · intro _ is
        rw [same newfid] at is
        cases is
  · have same : sees seen ⟨tag, .walk fid newfid names⟩ (some h.reply) = seen := by
      rcases @sees_walk seen fid newfid names tag h.reply with
        ⟨qids, is, whole, _⟩ | ⟨_, same⟩
      · exact absurd whole (Nat.ne_of_lt (fewer qids is))
      · exact same
    rw [same]
    exact inv.same keyed (Or.inl msize) state (Stays.of_same sameFids)

theorem version_inv (inv : Inv s seen) {tmsize : Nat} {version : Str}
    (handled : s.srv.version tag tmsize version = some h) : Inv { s with srv := h.srv } seen := by
  have begun : 256 ≤ (if s.srv.msize ≤ 0 then (MAXRPC : Int) else s.srv.msize) := by
    have known := inv.session
    unfold MAXRPC IOHDRSZ MAXFDATA
    split
    · decide
    · omega
  unfold Styxserver.version at handled
  dsimp only at handled
  generalize (if s.srv.msize ≤ 0 then (MAXRPC : Int) else s.srv.msize) = current at begun handled
  split at handled
  · have is := (Styxserver.error_eq handled).1
    rw [is]
    exact inv.same inv.keyed (Or.inr begun) rfl (Stays.of_same fun _ => rfl)
  rename_i large
  have is := (Styxserver.reply_eq handled).1
  rw [is]
  exact inv.same inv.keyed (Or.inr (Int.not_lt.1 large)) rfl (Stays.of_same fun _ => rfl)

theorem stat_inv (inv : Inv s seen) (handled : s.srv.stat navigator tag fid = some h) :
    Inv { s with srv := h.srv } seen := by
  have same : h.srv = s.srv := by
    unfold Styxserver.stat at handled
    split at handled
    · exact (Styxserver.error_eq handled).1
    dsimp only at handled
    split at handled
    · exact (Styxserver.error_eq handled).1
    · exact (Styxserver.reply_eq handled).1
  rw [same]
  exact inv

theorem default_inv (inv : Inv s seen) (few : gm.pick.FewNames)
    (others : ∀ fid, gm.pick ≠ .clunk fid ∧ gm.pick ≠ .remove fid ∧
      ∀ mode, gm.pick ≠ .«open» fid mode)
    (handled : s.srv.default navigator Qroot fuel gm = some h) :
    Inv { s with srv := h.srv } (sees seen gm (some h.reply)) := by
  have ⟨_, pick⟩ := gm
  cases pick with
  | readerror _ => cases handled
  | version _ _ => exact version_inv inv handled
  | auth _ _ _ => exact refused_inv inv rfl handled
  | attach _ _ _ _ => exact attach_inv inv handled
  | flush _ =>
    have same : h.srv = s.srv := (Styxserver.reply_eq handled).1
    show Inv { s with srv := h.srv } seen
    rw [same]
    exact inv
  | walk _ _ _ => exact walk_inv inv few handled
  | «open» fid mode => exact absurd rfl ((others fid).2.2 mode)
  | create _ _ _ _ => exact refused_inv inv rfl handled
  | read _ _ _ => exact read_inv inv handled
  | write _ _ _ => exact refused_inv inv rfl handled
  | clunk fid => exact absurd rfl (others fid).1
  | stat _ => exact stat_inv inv handled
  | remove fid => exact absurd rfl (others fid).2.1
  | wstat _ _ => exact refused_inv inv rfl handled

theorem serveopen_inv (inv : Inv s seen) {omode : Nat}
    (served : serveopen s tag fid omode = some out) : Inv out.server seen ∧ out.use = none := by
  unfold serveopen at served
  split at served
  · rename_i absent
    have ⟨h, handled, same⟩ := handled_eq served
    rw [same]
    unfold Styxserver.open Styxserver.canopen at handled
    rw [absent] at handled
    exact ⟨refused_inv inv rfl handled, rfl⟩
  rename_i c found
  split at served
  · have ⟨server, use⟩ := answered_eq served
    rw [server, use]
    exact ⟨inv, rfl⟩
  rename_i mode _
  dsimp only at served
  have ⟨server, use⟩ := answered_eq served
  rw [server, use]
  refine ⟨inv.frame ?_ (Or.inl rfl) inv.laid (Fewer.refl _) ?_ (fun _ member => member) ?_,
    rfl⟩
  · exact Buckets.Keyed.set inv.keyed _
  · intro n old there
    have number := Styxserver.fid_of_getfid found
    have present : s.srv.getfid (c.open mode ⟨c.path, 0, c.qtype⟩).fid = some c := by
      rw [← number] at found
      exact found
    have table := Styxserver.getfid_setfid_of s.srv present n
    by_cases here : n = c.fid
    · have old' : old = c := by
        rw [here, number, found] at there
        exact (Option.some.inj there).symm
      refine ⟨_, table.trans (if_pos here), ?_⟩
      rw [old']
      exact ⟨rfl, fun _ => rfl⟩
    · exact ⟨old, (table.trans (if_neg here)).trans there, rfl, id⟩
  · intro n result is
    dsimp only at is
    split at is
    · cases is
    · exact is

/-- A fid that goes takes its calls and its data with it. -/
theorem retire_inv (inv : Inv s seen) (keyed : srv.Keyed) (msize : srv.msize = s.srv.msize)
    (state : srv.t = s.srv.t)
    (table : ∀ n, srv.getfid n = if n = fid then none else s.srv.getfid n) :
    Inv { s.retire fid with srv := srv } fun n => if n = fid then none else seen n := by
  have mine {n : Nat} {tool : Str} (other : n ≠ fid) (had : Mine s.srv seen n tool) :
      Mine srv (fun n => if n = fid then none else seen n) n tool := by
    have ⟨c, found, opened, named⟩ := had
    refine ⟨c, by rw [table, if_neg other]; exact found, opened, ?_⟩
    dsimp only
    rw [if_neg other]
    exact named
  refine ⟨keyed, ?_, ?_, ?_, ?_, ?_⟩
  · rcases inv.session with begun | ⟨zero, none⟩
    · exact Or.inl (msize ▸ begun)
    refine Or.inr ⟨msize.trans zero, fun n => ?_⟩
    split
    · rfl
    · exact none n
  · show Laid srv.t
    rw [state]
    exact inv.laid
  · intro n names walked
    show ∃ c, srv.getfid n = some c ∧ Placed srv.t c.path names
    split at walked
    · cases walked
    · rename_i other
      have ⟨c, found, placed⟩ := inv.fids n names walked
      exact ⟨c, by rw [table, if_neg other]; exact found, state ▸ placed⟩
  · intro call member n is
    have ⟨old, there, same⟩ := mem_map.1 member
    split at same
    · rw [← same] at is
      cases is
    rename_i kept
    rw [← same] at is ⊢
    refine mine ?_ (inv.calls old there n is)
    intro here
    exact kept (here ▸ is)
  · intro n result is
    have is' : (if n = fid then none else s.data n) = some result := is
    split at is'
    · cases is'
    · next other => exact mine other (inv.data n result is')

theorem clunk_inv (inv : Inv s seen)
    (handled : s.srv.clunk tag fid = some h ∨ s.srv.remove tag fid = some h) :
    Inv { s.retire fid with srv := h.srv } fun n => if n = fid then none else seen n := by
  cases found : s.srv.getfid fid with
  | none =>
    have same : h.srv = s.srv := by
      unfold Styxserver.clunk Styxserver.remove at handled
      rw [found] at handled
      exact handled.elim (fun error => (Styxserver.error_eq error).1)
        (fun error => (Styxserver.error_eq error).1)
    rw [same]
    refine retire_inv inv inv.keyed rfl rfl fun n => ?_
    by_cases here : n = fid
    · rw [if_pos here, here, found]
    · rw [if_neg here]
  | some c =>
    have number := Styxserver.fid_of_getfid found
    have same : h.srv = s.srv.delfid c := by
      unfold Styxserver.clunk Styxserver.remove at handled
      rw [found] at handled
      exact handled.elim (fun replied => (Styxserver.reply_eq replied).1)
        (fun replied => (Styxserver.reply_eq replied).1)
    rw [same]
    refine retire_inv inv (Buckets.Keyed.erase inv.keyed _) rfl rfl fun n => ?_
    rw [Styxserver.getfid_delfid _ inv.keyed, number]

theorem serve_inv (inv : Inv s seen) (few : gm.pick.FewNames)
    (spared : ∀ name, Adds s gm name → Free s seen name)
    (served : serve text answer doc schema s fuel gm = some out) :
    Inv out.server (sees seen gm out.reply) := by
  have ⟨tag, pick⟩ := gm
  have library (others : ∀ fid, pick ≠ .clunk fid ∧ pick ≠ .remove fid ∧
      ∀ mode, pick ≠ .«open» fid mode)
      (handled : s.handled (s.srv.default navigator Qroot fuel ⟨tag, pick⟩) = some out) :
      Inv out.server (sees seen ⟨tag, pick⟩ out.reply) := by
    have ⟨h, is, same⟩ := handled_eq handled
    rw [same]
    exact default_inv inv few others is
  cases pick with
  | «open» _ _ => exact (serveopen_inv inv served).1
  | read _ _ _ => exact (serveread_inv inv served).1
  | write _ _ _ => exact servewrite_inv inv spared served
  | clunk _ =>
    have ⟨h, is, same⟩ := handled_eq served
    rw [same]
    exact clunk_inv inv (Or.inl is)
  | remove _ =>
    have ⟨_, is, same⟩ := handled_eq served
    rw [same]
    exact clunk_inv inv (Or.inr is)
  | readerror _ => exact library (fun _ => ⟨nofun, nofun, fun _ => nofun⟩) served
  | version _ _ => exact library (fun _ => ⟨nofun, nofun, fun _ => nofun⟩) served
  | auth _ _ _ => exact library (fun _ => ⟨nofun, nofun, fun _ => nofun⟩) served
  | attach _ _ _ _ => exact library (fun _ => ⟨nofun, nofun, fun _ => nofun⟩) served
  | flush _ => exact library (fun _ => ⟨nofun, nofun, fun _ => nofun⟩) served
  | walk _ _ _ => exact library (fun _ => ⟨nofun, nofun, fun _ => nofun⟩) served
  | create _ _ _ _ => exact library (fun _ => ⟨nofun, nofun, fun _ => nofun⟩) served
  | stat _ => exact library (fun _ => ⟨nofun, nofun, fun _ => nofun⟩) served
  | wstat _ _ => exact library (fun _ => ⟨nofun, nofun, fun _ => nofun⟩) served

theorem serve_use (inv : Inv s seen) (served : serve text answer doc schema s fuel gm = some out)
    (is : out.use = some use) :
    ∃ fid, onFile gm.pick = some fid ∧
      ∀ tool rest, seen fid = some (tool :: rest) → use.tool = tolower tool := by
  have ⟨_, pick⟩ := gm
  have library {s' : Server} {h : Option (Handled Tools)} (handled : s'.handled h = some out) :
      ∃ fid, onFile pick = some fid ∧
        ∀ tool rest, seen fid = some (tool :: rest) → use.tool = tolower tool := by
    have ⟨_, _, same⟩ := handled_eq handled
    rw [same] at is
    cases is
  cases pick with
  | «open» _ _ =>
    rw [(serveopen_inv inv served).2] at is
    cases is
  | read fid _ _ =>
    exact ⟨fid, rfl, fun _ _ walked => (serveread_inv inv served).2 use is _ _ walked⟩
  | write fid _ _ =>
    exact ⟨fid, rfl, fun _ _ walked => servewrite_use inv served is walked⟩
  | _ => exact library served

end Requests

/-! ### Steps -/

theorem finish_inv (inv : Inv s seen) (k : Nat) (result : Option Str) :
    Inv (s.finish k result) seen := by
  unfold Server.finish
  cases found : s.calls[k]? with
  | none => exact inv
  | some call =>
    have erased : Inv { s with calls := s.calls.eraseIdx k } seen :=
      inv.frame inv.keyed (Or.inl rfl) inv.laid (Fewer.refl _) (Stays.of_same fun _ => rfl)
        (fun _ member => mem_of_mem_eraseIdx member) (fun _ _ is => is)
    cases result with
    | none => exact erased
    | some r =>
      have updated := erased.update call.tool
        (f := fun ti => { ti with result := some (Lib9.cvtca r) }) fun _ => ⟨rfl, rfl⟩
      refine ⟨updated.keyed, updated.session, updated.laid, updated.fids, updated.calls, ?_⟩
      intro n res is
      have is' : (if call.fid = some n then some ⟨call.tool, Lib9.cvtca r⟩ else s.data n) =
        some res := is
      split at is'
      · rename_i mine
        cases is'
        exact inv.calls call (mem_of_getElem? found) n mine
      · exact inv.data n res is'

variable {r : Run}

theorem inv_step {r' : Run} {step : Step} (inv : Inv r.server r.seen) (spared : Spared r step)
    (performed : perform text answer doc schema r step = some r') : Inv r'.server r'.seen := by
  cases step with
  | request _ _ few =>
    have ⟨_, served, same⟩ := map_eq_some_iff.1 performed
    rw [← same]
    exact serve_inv inv few spared served
  | finish k result =>
    cases performed
    exact finish_inv inv k result
  | loaded name =>
    cases performed
    exact inv.update name fun _ => ⟨rfl, rfl⟩

/-! ### The start -/

/-- The tools of the arguments have the blocks from the first on, one each, and different names
that are known. -/
structure Numbered (tools : List ToolInfo) : Prop where
  qids : (tools.map fun ti => ti.qid) =
    (List.range tools.length).map fun k => ((100 + 5 * k : Nat) : Int)
  names : (tools.map fun ti => ti.name).Nodup
  known : ∀ ti ∈ tools, ti.name ∈ TOOL_PATHS.map Prod.fst

theorem Numbered.length_le (numbered : Numbered tools) : tools.length ≤ 42 := by
  have among : (tools.map fun ti => ti.name) ⊆ TOOL_PATHS.map Prod.fst := by
    intro _ member
    have ⟨ti, there, is⟩ := mem_map.1 member
    exact is ▸ numbered.known ti there
  have few := (subperm_of_subset numbered.names among).length_le
  rw [length_map, length_map] at few
  exact few

theorem known_of_toolpath (known : toolpath (tolower name) ≠ none) :
    tolower name ∈ TOOL_PATHS.map Prod.fst := by
  unfold toolpath at known
  rw [tolower_tolower] at known
  cases found : TOOL_PATHS.find? (·.1 == tolower name) with
  | none =>
    rw [found] at known
    exact absurd rfl known
  | some entry =>
    have is := find?_some found
    have is' : entry.1 = tolower name := eq_of_beq is
    rw [← is']
    exact mem_map_of_mem (mem_of_find?_eq_some found)

theorem inittools_numbered (loads : Str → Bool) (args : List Str) {qid : Int}
    (numbered : Numbered tools) (next : qid = ((100 + 5 * tools.length : Nat) : Int)) :
    Numbered (inittools loads args qid tools) := by
  induction args generalizing qid tools with
  | nil => exact numbered
  | cons arg args ih =>
    unfold inittools
    dsimp only
    split
    · exact ih numbered next
    rename_i fresh
    have ⟨known, absent⟩ := not_or.1 fresh
    have few := numbered.length_le
    have stride : wrap (qid + TOOL_STRIDE) = qid + 5 := by
      show wrap (qid + 5) = qid + 5
      apply wrap_of_inWord
      unfold InWord
      omega
    apply ih
    · refine ⟨?_, ?_, ?_⟩
      · rw [map_append, numbered.qids, length_append, length_singleton,
          range_succ, map_append, next]
        rfl
      · rw [map_append]
        refine nodup_append.2 ⟨numbered.names, nodup_singleton _, ?_⟩
        intro name member other new same
        have is : other = tolower arg := mem_singleton.1 new
        have ⟨ti, there, named⟩ := mem_map.1 member
        apply absent
        refine find?_isSome.2 ⟨ti, there, ?_⟩
        rw [tolower_tolower, ← is, ← same, ← named]
        exact beq_self_eq_true _
      · intro ti member
        rcases mem_append.1 member with old | new
        · exact numbered.known ti old
        · rw [mem_singleton.1 new]
          exact known_of_toolpath known
    · rw [stride, next, length_append, length_singleton]
      omega

theorem Numbered.laid (numbered : Numbered b.tools) : Laid b := by
  have few := numbered.length_le
  constructor
  · intro ti member
    have there : ti.qid ∈ b.tools.map fun ti => ti.qid := mem_map_of_mem member
    rw [numbered.qids] at there
    have ⟨k, small, is⟩ := mem_map.1 there
    have below := mem_range.1 small
    exact ⟨k, is.symm, by omega⟩
  · rw [numbered.qids]
    refine List.Nodup.map ?_ nodup_range
    intro j k same
    have same' : ((100 + 5 * j : Nat) : Int) = ((100 + 5 * k : Nat) : Int) := same
    omega

theorem inv_start (loads : Str → Bool) (args : List Str) (user : Str) :
    Inv (start loads args user) fun _ => none where
  keyed := Buckets.Keyed.empty
  session := Or.inr ⟨rfl, fun _ => rfl⟩
  laid := by
    have numbered : Numbered (inittools loads args Qtoolbase []) :=
      inittools_numbered loads args ⟨rfl, nodup_nil, nofun⟩ rfl
    exact Numbered.laid numbered
  fids := fun _ _ is => nomatch is
  calls := fun _ member => nomatch member
  data := fun _ _ is => nomatch is

/-! ### Fids keep their tools -/

section Claim

variable (text : Nat → Str) (answer : Nat → Str → RPick) (doc schema : Str → Str)

/-- No two files of active tools have one qid, and a request to a fid that a client has walked
to a tool, or to a file of it, runs or reads that tool or none. -/
structure Keeps (r : Run) : Prop where
  distinct : ∀ (i j : Nat) (ti tj : ToolInfo) (k l : Nat), r.server.srv.t.tools[i]? = some ti →
    r.server.srv.t.tools[j]? = some tj → k < TOOL_STRIDE → l < TOOL_STRIDE →
      big ti.qid + k = big tj.qid + l → i = j ∧ k = l
  acts : ∀ fuel gm out use,
    serve text answer doc schema r.server fuel gm = some out → out.use = some use →
      ∃ fid, onFile gm.pick = some fid ∧
        ∀ tool rest, r.seen fid = some (tool :: rest) → use.tool = tolower tool

variable {text : Nat → Str} {answer : Nat → Str → RPick} {doc schema : Str → Str}

theorem Inv.keeps (inv : Inv r.server r.seen) : Keeps text answer doc schema r where
  distinct := by
    intro i j ti tj k l here there small small' same
    have ⟨_, is, _⟩ := inv.laid.placed ti (mem_of_getElem? here)
    have ⟨_, is', _⟩ := inv.laid.placed tj (mem_of_getElem? there)
    have small₅ : k < 5 := small
    have small₅' : l < 5 := small'
    rw [is, is', big_of (by omega), big_of (by omega)] at same
    have equal : ti.qid = tj.qid := by
      rw [is, is']
      omega
    refine ⟨?_, by omega⟩
    have first : (r.server.srv.t.tools.map fun ti => ti.qid)[i]? = some ti.qid := by
      rw [getElem?_map, here]
      rfl
    have second : (r.server.srv.t.tools.map fun ti => ti.qid)[j]? = some ti.qid := by
      rw [getElem?_map, there, equal]
      rfl
    have ⟨inside, _⟩ := List.getElem?_eq_some_iff.1 first
    exact (getElem?_inj inside inv.laid.apart).1 (first.trans second.symm)
  acts := fun _ _ _ _ served is => serve_use inv served is

end Claim

def asks (tag : Nat) (pick : TPick) (few : pick.FewNames) : Step := .request 0 ⟨tag, pick⟩ few

def visit : List Step :=
  [asks 65535 (.version 8216 (str "9P2000")) True.intro,
    asks 1 (.attach 1 0 (str "inferno") []) True.intro,
    asks 1 (.walk 1 2 [str "exec", str "run"]) (show 2 ≤ 16 by decide),
    asks 1 (.«open» 2 1) True.intro,
    asks 1 (.walk 1 3 [str "ctl"]) (show 1 ≤ 16 by decide),
    asks 1 (.«open» 3 1) True.intro]

end Infernode.Toolfs
