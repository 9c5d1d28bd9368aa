import Infernode.Lib.Gittree
import Infernode.Lib.Pathname

/-!
The paths that `appl/lib/git/git.b` creates.

Owns: `checkout`, `writeref`, `mkdirp` and `updaterefs`, as the calls of `create` that they make;
the entries of a tree that `checkout` comes to; and which names of entries and references keep
those calls to the destination and to the directory of the references.

Does not own: how an object is read, which is a parameter, and what the kernel answers to a
call, which is another.
-/

namespace Infernode.Git

open Text Lib9 Pathname List

/-! ### Calls -/

/-- A call of `create`, for a directory or for a file with what is then written to it. -/
inductive Act
  | mkdir (path : Str)
  | write (path : Str) (perm : Nat) (data : Bytes)

def Act.path : Act → Str
  | .mkdir path => path
  | .write path _ _ => path

def Act.isdir : Act → Bool
  | .mkdir _ => true
  | .write .. => false

/-- What `create` for a file says after the calls before it: its error, if it fails. -/
abbrev Kernel := List Act → Act → Option Str

inductive Outcome
  | done
  | failed (err : Str)
  | running

/-! ### `checkout` -/

variable {tree : Bytes} {act : Act} {entries : List TreeEntry}

variable {chain sub comps : List Str} {isdir : Bool} {known : Str}
    {readobj : Bytes → Except Str (Nat × Bytes)}

section Checkout

variable (readobj : Bytes → Except Str (Nat × Bytes))

def treeof (tree : Bytes) : Except Str (List TreeEntry) :=
  match readobj tree with
  | .error err => .error (str "read tree: " ++ err)
  | .ok (otype, data) =>
    if otype ≠ 2 then .error (str "not a tree object")
    else
      match parsetree data with
      | .error err => .error (str "parse tree: " ++ err)
      | .ok entries => .ok entries

/-- `8r40000`. -/
def TreeEntry.IsTree (e : TreeEntry) : Prop := e.mode = 16384

/-- `8r120000`. -/
def TreeEntry.IsLink (e : TreeEntry) : Prop := e.mode = 40960

instance (e : TreeEntry) : Decidable e.IsTree := inferInstanceAs (Decidable (_ = _))

instance (e : TreeEntry) : Decidable e.IsLink := inferInstanceAs (Decidable (_ = _))

/-- `8r755` for the mode `8r100755`, else `8r644`. -/
def permof (mode : Int) : Nat := if mode = 33261 then 493 else 420

/-- A file of a tree: the call of `create` and its outcome. -/
def checkoutfile (kernel : Kernel) (acts : List Act) (e : TreeEntry) (path : Str) :
    List Act × Outcome :=
  match readobj e.hash with
  | .error err => (acts, .failed (str "read blob " ++ e.name ++ str ": " ++ err))
  | .ok (btype, bdata) =>
    if btype ≠ 3 then (acts, .failed (e.name ++ str ": not a blob"))
    else
      match kernel acts (.write path (permof e.mode) bdata) with
      | some err => (acts ++ [.write path (permof e.mode) bdata],
          .failed (str "create " ++ path ++ str ": " ++ err))
      | none => (acts ++ [.write path (permof e.mode) bdata], .done)

/-- One entry, with the recursion as `inner`; symbolic links are skipped. -/
def checkoutentry (kernel : Kernel) (inner : List Act → Bytes → Str → List Act × Outcome)
    (destpath : Str) (acts : List Act) (e : TreeEntry) : List Act × Outcome :=
  if e.IsTree then
    inner (acts ++ [.mkdir (destpath ++ 47 :: e.name)]) e.hash (destpath ++ 47 :: e.name)
  else if e.IsLink then (acts, .done)
  else checkoutfile readobj kernel acts e (destpath ++ 47 :: e.name)

def checkoutentries (kernel : Kernel) (inner : List Act → Bytes → Str → List Act × Outcome)
    (destpath : Str) : List TreeEntry → List Act → List Act × Outcome
  | [], acts => (acts, .done)
  | e :: entries, acts =>
    match checkoutentry readobj kernel inner destpath acts e with
    | (acts, .done) => checkoutentries kernel inner destpath entries acts
    | stopped => stopped

/-- The calls after those of `acts`, and how it ends; it is still running when the fuel is
spent. -/
def checkout (kernel : Kernel) : Nat → List Act → Bytes → Str → List Act × Outcome
  | 0, acts, _, _ => (acts, .running)
  | fuel + 1, acts, tree, destpath =>
    match treeof readobj tree with
    | .error err => (acts, .failed err)
    | .ok entries =>
      checkoutentries readobj kernel (checkout kernel fuel) destpath entries acts

/-! ### The entries it comes to -/

def HasBlob (e : TreeEntry) : Prop := ∃ data, readobj e.hash = .ok (3, data)

inductive Whole : Bytes → Prop
  | intro {tree : Bytes} {entries : List TreeEntry} (read : treeof readobj tree = .ok entries)
      (trees : ∀ e ∈ entries, e.IsTree → Whole e.hash)
      (files : ∀ e ∈ entries, ¬e.IsTree → ¬e.IsLink → HasBlob readobj e) : Whole tree

def Sound (e : TreeEntry) : Prop :=
  (e.IsTree → Whole readobj e.hash) ∧ (¬e.IsTree → ¬e.IsLink → HasBlob readobj e)

def Stands (tree : Bytes) (e : TreeEntry) : Prop :=
  ∃ front back, treeof readobj tree = .ok (front ++ e :: back) ∧ ∀ d ∈ front, Sound readobj d

/-- The names from a tree to an entry that is not behind something unreadable, and whether the
entry is a tree or a blob. -/
inductive Comes : Bytes → List Str → Bool → Prop
  | tree {tree : Bytes} {e : TreeEntry} (stands : Stands readobj tree e) (isTree : e.IsTree) :
      Comes tree [e.name] true
  | file {tree : Bytes} {e : TreeEntry} (stands : Stands readobj tree e) (notTree : ¬e.IsTree)
      (notLink : ¬e.IsLink) (blob : HasBlob readobj e) : Comes tree [e.name] false
  | into {tree : Bytes} {e : TreeEntry} {chain : List Str} {isdir : Bool}
      (stands : Stands readobj tree e) (isTree : e.IsTree) (rest : Comes e.hash chain isdir) :
      Comes tree (e.name :: chain) isdir

variable {readobj}

def Named (readobj : Bytes → Except Str (Nat × Bytes)) (tree : Bytes) (destpath : Str)
    (act : Act) : Prop :=
  ∃ chain, Comes readobj tree chain act.isdir ∧ act.path = below destpath chain

theorem below_cons (dir name : Str) (chain : List Str) :
    below dir (name :: chain) = below (dir ++ 47 :: name) chain := by
  simp [below]

theorem below_single (dir name : Str) : below dir [name] = dir ++ 47 :: name := by
  simp [below]

theorem length_below_cons (dir name : Str) (chain : List Str) :
    dir.length < (below dir (name :: chain)).length := by
  rw [below_cons, below, length_append, length_append, length_cons]
  omega

variable {e : TreeEntry} {destpath : Str}

theorem Named.into (stands : Stands readobj tree e) (isTree : e.IsTree)
    (named : Named readobj e.hash (destpath ++ 47 :: e.name) act) :
    Named readobj tree destpath act := by
  have ⟨chain, comes, path⟩ := named
  exact ⟨e.name :: chain, Comes.into stands isTree comes, by rw [path, below_cons]⟩

/-- What the calls added for a tree are, and what it takes to be done. -/
structure Walks (readobj : Bytes → Except Str (Nat × Bytes)) (acts : List Act) (tree : Bytes)
    (destpath : Str) (sound : Prop) (run : List Act × Outcome) : Prop where
  named : ∃ new, run.1 = acts ++ new ∧ ∀ act ∈ new, Named readobj tree destpath act
  whole : run.2 = .done → sound

variable {acts : List Act}

theorem checkoutfile_walks {kernel : Kernel} (stands : Stands readobj tree e) (notTree : ¬e.IsTree)
    (notLink : ¬e.IsLink) :
    Walks readobj acts tree destpath (Sound readobj e)
      (checkoutfile readobj kernel acts e (destpath ++ 47 :: e.name)) := by
  have none : ∃ new, acts = acts ++ new ∧ ∀ act ∈ new, Named readobj tree destpath act :=
    ⟨[], (append_nil acts).symm, nofun⟩
  unfold checkoutfile
  split
  · exact ⟨none, nofun⟩
  rename_i btype bdata read
  split
  · exact ⟨none, nofun⟩
  rename_i isBlob
  have blob : HasBlob readobj e := ⟨bdata, by rw [read, not_not.1 isBlob]⟩
  have called : ∃ new, acts ++ [Act.write (destpath ++ 47 :: e.name) (permof e.mode) bdata] =
      acts ++ new ∧ ∀ act ∈ new, Named readobj tree destpath act := by
    refine ⟨_, rfl, ?_⟩
    intro act member
    rw [mem_singleton.1 member]
    exact ⟨[e.name], Comes.file stands notTree notLink blob, (below_single _ _).symm⟩
  split
  · exact ⟨called, nofun⟩
  · exact ⟨called, fun _ => ⟨fun isTree => absurd isTree notTree, fun _ _ => blob⟩⟩

section Recursion

variable {kernel : Kernel} {inner : List Act → Bytes → Str → List Act × Outcome}

theorem checkoutentry_walks (innerWalks : ∀ acts tree destpath,
      Walks readobj acts tree destpath (Whole readobj tree) (inner acts tree destpath))
    (acts : List Act) (destpath : Str) (stands : Stands readobj tree e) :
    Walks readobj acts tree destpath (Sound readobj e)
      (checkoutentry readobj kernel inner destpath acts e) := by
  unfold checkoutentry
  split
  · rename_i isTree
    have ⟨⟨new, shape, named⟩, whole⟩ :=
      innerWalks (acts ++ [.mkdir (destpath ++ 47 :: e.name)]) e.hash (destpath ++ 47 :: e.name)
    refine ⟨⟨.mkdir (destpath ++ 47 :: e.name) :: new, ?_, ?_⟩, ?_⟩
    · rw [shape, append_assoc]
      rfl
    · intro act member
      rcases mem_cons.1 member with rfl | later
      · exact ⟨[e.name], Comes.tree stands isTree, (below_single _ _).symm⟩
      · exact (named act later).into stands isTree
    · exact fun done => ⟨fun _ => whole done, fun notTree => absurd isTree notTree⟩
  · rename_i notTree
    split
    · rename_i isLink
      refine ⟨⟨[], (append_nil acts).symm, nofun⟩, fun _ => ?_⟩
      exact ⟨fun isTree => absurd isTree notTree, fun _ notLink => absurd isLink notLink⟩
    · rename_i notLink
      exact checkoutfile_walks stands notTree notLink

theorem checkoutentries_walks
    (innerWalks : ∀ acts tree destpath,
      Walks readobj acts tree destpath (Whole readobj tree) (inner acts tree destpath))
    {tree : Bytes} (destpath : Str) {front back : List TreeEntry}
    (read : treeof readobj tree = .ok (front ++ back)) (before : ∀ d ∈ front, Sound readobj d)
    (acts : List Act) :
    Walks readobj acts tree destpath (∀ d ∈ back, Sound readobj d)
      (checkoutentries readobj kernel inner destpath back acts) := by
  induction back generalizing front acts with
  | nil => exact ⟨⟨[], (append_nil acts).symm, nofun⟩, fun _ => nofun⟩
  | cons e back ih =>
    have entryWalks : Walks readobj acts tree destpath (Sound readobj e)
        (checkoutentry readobj kernel inner destpath acts e) :=
      checkoutentry_walks innerWalks acts destpath ⟨front, back, read, before⟩
    have ⟨⟨new, shape, named⟩, sound⟩ := entryWalks
    unfold checkoutentries
    split
    · rename_i acts' result
      rw [result] at shape sound
      have shape : acts' = acts ++ new := shape
      have here := sound rfl
      have next : treeof readobj tree = .ok ((front ++ [e]) ++ back) := by
        rw [read, append_assoc]
        rfl
      have before' : ∀ d ∈ front ++ [e], Sound readobj d := by
        intro d member
        rcases mem_append.1 member with early | last
        · exact before d early
        · rw [mem_singleton.1 last]
          exact here
      have ⟨⟨more, shape', named'⟩, sound'⟩ := ih next before' acts'
      refine ⟨⟨new ++ more, ?_, ?_⟩, ?_⟩
      · rw [shape', shape, append_assoc]
      · intro act member
        exact (mem_append.1 member).elim (named act) (named' act)
      intro done d member
      rcases mem_cons.1 member with rfl | later
      · exact here
      · exact sound' done d later
    · rename_i stopped
      refine ⟨⟨new, shape, named⟩, ?_⟩
      intro done
      exact (stopped _ (Prod.ext rfl done)).elim

end Recursion

/-- Every call is for an entry that is come to, on the path of its names. -/
theorem checkout_walks (kernel : Kernel) (fuel : Nat) (acts : List Act) (tree : Bytes)
    (destpath : Str) :
    Walks readobj acts tree destpath (Whole readobj tree)
      (checkout readobj kernel fuel acts tree destpath) := by
  induction fuel generalizing acts tree destpath with
  | zero => exact ⟨⟨[], (append_nil acts).symm, nofun⟩, nofun⟩
  | succ fuel ih =>
    unfold checkout
    split
    · exact ⟨⟨[], (append_nil acts).symm, nofun⟩, nofun⟩
    rename_i entries read
    have walks : Walks readobj acts tree destpath (∀ d ∈ entries, Sound readobj d)
        (checkoutentries readobj kernel (checkout readobj kernel fuel) destpath entries acts) :=
      @checkoutentries_walks _ _ _ ih _ destpath [] entries read nofun acts
    refine ⟨walks.named, ?_⟩
    intro done
    have sound := walks.whole done
    exact Whole.intro read (fun e member => (sound e member).1)
      (fun e member => (sound e member).2)

/-! ### That it comes to them -/

theorem checkoutfile_keeps (kernel : Kernel) (acts : List Act) (e : TreeEntry) (path : Str) :
    acts <+: (checkoutfile readobj kernel acts e path).1 := by
  unfold checkoutfile
  split
  · exact prefix_rfl
  · split
    · exact prefix_rfl
    · split <;> exact prefix_append _ _

section Keeping

variable {kernel : Kernel} {inner : List Act → Bytes → Str → List Act × Outcome}
  (keeps : ∀ acts tree destpath, acts <+: (inner acts tree destpath).1)

include keeps

theorem checkoutentry_keeps (destpath : Str) (acts : List Act) (e : TreeEntry) :
    acts <+: (checkoutentry readobj kernel inner destpath acts e).1 := by
  unfold checkoutentry
  split
  · exact (prefix_append _ _).trans (keeps _ _ _)
  · split
    · exact prefix_rfl
    · exact checkoutfile_keeps kernel acts e _

theorem checkoutentries_keeps (destpath : Str) (entries : List TreeEntry) (acts : List Act) :
    acts <+: (checkoutentries readobj kernel inner destpath entries acts).1 := by
  induction entries generalizing acts with
  | nil => exact prefix_rfl
  | cons e entries ih =>
    have first : acts <+: (checkoutentry readobj kernel inner destpath acts e).1 :=
      checkoutentry_keeps keeps destpath acts e
    unfold checkoutentries
    split
    · rename_i acts' result
      rw [result] at first
      exact first.trans (ih acts')
    · exact first

theorem mem_checkoutentries (member : act ∈ (checkoutentry readobj kernel inner destpath acts e).1)
    (entries : List TreeEntry) :
    act ∈ (checkoutentries readobj kernel inner destpath (e :: entries) acts).1 := by
  unfold checkoutentries
  split
  · rename_i acts' result
    rw [result] at member
    exact (checkoutentries_keeps keeps destpath entries acts').subset member
  · exact member

end Keeping

theorem checkout_keeps (kernel : Kernel) (fuel : Nat) (acts : List Act) (tree : Bytes)
    (destpath : Str) : acts <+: (checkout readobj kernel fuel acts tree destpath).1 := by
  induction fuel generalizing acts tree destpath with
  | zero => exact prefix_rfl
  | succ _ ih =>
    unfold checkout
    split
    · exact prefix_rfl
    · exact checkoutentries_keeps ih destpath _ acts

def willing : Kernel := fun _ _ => none

theorem checkoutfile_willing {data : Bytes} (blob : readobj e.hash = .ok (3, data))
    (acts : List Act) (path : Str) :
    checkoutfile readobj willing acts e path =
      (acts ++ [.write path (permof e.mode) data], .done) := by
  unfold checkoutfile
  rw [blob]
  rfl

theorem checkoutentries_through {inner : List Act → Bytes → Str → List Act × Outcome}
    {front : List TreeEntry}
    (trees : ∀ e ∈ front, e.IsTree → ∀ acts destpath, (inner acts e.hash destpath).2 = .done)
    (files : ∀ e ∈ front, ¬e.IsTree → ¬e.IsLink → HasBlob readobj e) (destpath : Str)
    (back : List TreeEntry) (acts : List Act) :
    ∃ acts', checkoutentries readobj willing inner destpath (front ++ back) acts =
      checkoutentries readobj willing inner destpath back acts' := by
  induction front generalizing acts with
  | nil => exact ⟨acts, rfl⟩
  | cons e front ih =>
    have rest := ih (forall_mem_cons.1 trees).2
      (forall_mem_cons.1 files).2
    have done : ∃ acts', checkoutentry readobj willing inner destpath acts e = (acts', .done) := by
      unfold checkoutentry
      split
      · rename_i isTree
        exact ⟨_, Prod.ext rfl (trees e mem_cons_self isTree _ _)⟩
      rename_i notTree
      split
      · exact ⟨acts, rfl⟩
      · rename_i notLink
        have ⟨data, blob⟩ := files e mem_cons_self notTree notLink
        exact ⟨_, checkoutfile_willing blob acts _⟩
    have ⟨acts', result⟩ := done
    have ⟨acts'', onward⟩ := rest acts'
    refine ⟨acts'', ?_⟩
    rw [← onward, cons_append]
    show (match checkoutentry readobj willing inner destpath acts e with
      | (acts, .done) =>
        checkoutentries readobj willing inner destpath (front ++ back) acts
      | stopped => stopped) = _
    rw [result]

theorem exists_bound {P : TreeEntry → Nat → Prop}
    (each : ∀ e ∈ entries, ∃ bound, ∀ n ≥ bound, P e n) :
    ∃ bound, ∀ e ∈ entries, ∀ n ≥ bound, P e n := by
  induction entries with
  | nil => exact ⟨0, nofun⟩
  | cons e _ ih =>
    have ⟨first, here⟩ := each e mem_cons_self
    have ⟨rest, later⟩ := ih (forall_mem_cons.1 each).2
    refine ⟨max first rest, ?_⟩
    intro d member n atLeast
    rcases mem_cons.1 member with rfl | behind
    · exact here n ((le_max_left _ _).trans atLeast)
    · exact later d behind n ((le_max_right _ _).trans atLeast)

theorem checkout_succ (read : treeof readobj tree = .ok entries) (kernel : Kernel) (fuel : Nat)
    (acts : List Act) (destpath : Str) :
    checkout readobj kernel (fuel + 1) acts tree destpath =
      checkoutentries readobj kernel (checkout readobj kernel fuel) destpath entries acts := by
  show (match treeof readobj tree with
    | .error err => (acts, Outcome.failed err)
    | .ok entries =>
      checkoutentries readobj kernel (checkout readobj kernel fuel) destpath entries acts) = _
  rw [read]

theorem checkout_done (whole : Whole readobj tree) :
    ∃ bound, ∀ fuel ≥ bound, ∀ acts destpath,
      (checkout readobj willing fuel acts tree destpath).2 = .done := by
  induction whole with
  | intro read trees files ih =>
    rename_i tree entries
    have each : ∀ e ∈ entries, ∃ bound, ∀ fuel ≥ bound, e.IsTree → ∀ acts destpath,
        (checkout readobj willing fuel acts e.hash destpath).2 = .done := by
      intro e member
      by_cases isTree : e.IsTree
      · have ⟨bound, settled⟩ := ih e member isTree
        exact ⟨bound, fun fuel enough _ => settled fuel enough⟩
      · exact ⟨0, fun _ _ other => absurd other isTree⟩
    have ⟨bound, settled⟩ := exists_bound each
    refine ⟨bound + 1, ?_⟩
    intro fuel enough acts destpath
    obtain ⟨fuel, rfl⟩ := Nat.exists_eq_add_of_le' (Nat.le_of_add_left_le enough)
    have ⟨acts', through⟩ := checkoutentries_through
      (fun e member isTree => settled e member fuel (by omega) isTree) files destpath [] acts
    rw [append_nil] at through
    rw [checkout_succ read, through]
    rfl

theorem checkout_stands (stands : Stands readobj tree e) :
    ∃ bound, ∀ fuel ≥ bound, ∀ acts destpath, ∃ acts' back,
      checkout readobj willing (fuel + 1) acts tree destpath =
        checkoutentries readobj willing (checkout readobj willing fuel) destpath (e :: back)
          acts' := by
  have ⟨front, back, read, before⟩ := stands
  have each : ∀ d ∈ front, ∃ bound, ∀ fuel ≥ bound, d.IsTree → ∀ acts destpath,
      (checkout readobj willing fuel acts d.hash destpath).2 = .done := by
    intro d member
    by_cases isTree : d.IsTree
    · have ⟨bound, settled⟩ := checkout_done ((before d member).1 isTree)
      exact ⟨bound, fun fuel enough _ => settled fuel enough⟩
    · exact ⟨0, fun _ _ other => absurd other isTree⟩
  have ⟨bound, settled⟩ := exists_bound each
  refine ⟨bound, ?_⟩
  intro fuel enough acts destpath
  have ⟨acts', through⟩ := checkoutentries_through
    (fun d member isTree => settled d member fuel enough isTree)
    (fun d member => (before d member).2) destpath (e :: back) acts
  exact ⟨acts', back, by rw [checkout_succ read, through]⟩

/-- Every entry that is come to gets its call, when the kernel creates every file. -/
theorem checkout_comes (comes : Comes readobj tree chain isdir) :
    ∃ bound, ∀ fuel ≥ bound, ∀ acts destpath,
      ∃ act ∈ (checkout readobj willing fuel acts tree destpath).1,
        act.isdir = isdir ∧ act.path = below destpath chain := by
  have keeps : ∀ fuel acts tree destpath,
      acts <+: (checkout readobj willing fuel acts tree destpath).1 := checkout_keeps willing
  induction comes with
  | tree stands isTree =>
    rename_i e
    have ⟨bound, reached⟩ := checkout_stands stands
    refine ⟨bound + 1, ?_⟩
    intro fuel enough acts destpath
    obtain ⟨fuel, rfl⟩ := Nat.exists_eq_add_of_le' (Nat.le_of_add_left_le enough)
    have ⟨acts', back, shape⟩ := reached fuel (by omega) acts destpath
    rw [shape]
    refine ⟨.mkdir (destpath ++ 47 :: e.name), ?_, rfl, (below_single _ _).symm⟩
    apply mem_checkoutentries (keeps fuel)
    unfold checkoutentry
    rw [if_pos isTree]
    exact (keeps fuel _ _ _).subset (mem_append_right _ (mem_singleton_self _))
  | file stands notTree notLink blob =>
    rename_i e
    have ⟨data, read⟩ := blob
    have ⟨bound, reached⟩ := checkout_stands stands
    refine ⟨bound + 1, ?_⟩
    intro fuel enough acts destpath
    obtain ⟨fuel, rfl⟩ := Nat.exists_eq_add_of_le' (Nat.le_of_add_left_le enough)
    have ⟨acts', back, shape⟩ := reached fuel (by omega) acts destpath
    rw [shape]
    refine ⟨.write (destpath ++ 47 :: e.name) (permof e.mode) data, ?_, rfl,
      (below_single _ _).symm⟩
    apply mem_checkoutentries (keeps fuel)
    unfold checkoutentry
    rw [if_neg notTree, if_neg notLink, checkoutfile_willing read]
    exact mem_append_right _ (mem_singleton_self _)
  | into stands isTree rest ih =>
    rename_i e chain isdir
    have ⟨bound, reached⟩ := checkout_stands stands
    have ⟨bound', inside⟩ := ih
    refine ⟨max bound bound' + 1, ?_⟩
    intro fuel enough acts destpath
    obtain ⟨fuel, rfl⟩ := Nat.exists_eq_add_of_le' (Nat.le_of_add_left_le enough)
    have room : max bound bound' ≤ fuel := by omega
    have ⟨acts', back, shape⟩ := reached fuel ((le_max_left _ _).trans room) acts destpath
    have ⟨act, member, kind, path⟩ := inside fuel ((le_max_right _ _).trans room)
      (acts' ++ [.mkdir (destpath ++ 47 :: e.name)]) (destpath ++ 47 :: e.name)
    rw [shape]
    refine ⟨act, ?_, kind, by rw [path, below_cons]⟩
    apply mem_checkoutentries (keeps fuel)
    unfold checkoutentry
    rw [if_pos isTree]
    exact member

end Checkout

/-! ### References -/

structure Ref where
  name : Str
  hash : Bytes

def hexdigit (v : Nat) : Nat := if v < 10 then 48 + v else 87 + v

def hex (h : Bytes) : Str :=
  if h = [] then List.replicate 40 48
  else (h.take 20).flatMap fun b => [hexdigit (b / 16), hexdigit (b % 16)]

/-- A directory for every slash but a first one. -/
def mkdirp (filepath : Str) : List Act :=
  ((List.range filepath.length).filter fun i => 1 ≤ i ∧ filepath[i]? = some 47).map
    fun i => .mkdir (filepath.take i)

def writeref (gitdir name : Str) (h : Bytes) : List Act :=
  mkdirp (gitdir ++ 47 :: name) ++ [.write (gitdir ++ 47 :: name) 420 (cvtca (hex h ++ [10]))]

/-- The names that a reference of the remote is written under. -/
def refnames (remote name : Str) : List Str :=
  if name = str "HEAD" then []
  else
    (if 11 < name.length ∧ name.take 11 = str "refs/heads/" then
      [str "refs/remotes/" ++ remote ++ str "/" ++ name.drop 11] else []) ++
    (if 10 < name.length ∧ name.take 10 = str "refs/tags/" then [name] else [])

def updaterefs (gitdir remote : Str) (refs : List Ref) : List Act :=
  refs.flatMap fun r => (refnames remote r.name).flatMap fun refname => writeref gitdir refname r.hash

theorem mem_mkdirp {filepath : Str} :
    act ∈ mkdirp filepath ↔
      ∃ front back, front ≠ [] ∧ filepath = front ++ 47 :: back ∧ act = .mkdir front := by
  unfold mkdirp
  simp only [mem_map, mem_filter, mem_range, decide_eq_true_eq]
  constructor
  · rintro ⟨i, ⟨inside, positive, slash⟩, rfl⟩
    refine ⟨filepath.take i, filepath.drop (i + 1), ?_, ?_, rfl⟩
    · apply ne_nil_of_length_pos
      rw [length_take]
      omega
    · rw [getElem?_eq_getElem inside, Option.some.injEq] at slash
      rw [← slash, getElem_cons_drop, take_append_drop]
  rintro ⟨front, back, nonempty, rfl, rfl⟩
  have positive := length_pos_of_ne_nil nonempty
  refine ⟨front.length, ⟨?_, positive, ?_⟩, ?_⟩
  · rw [length_append, length_cons]
    omega
  · rw [getElem?_append_right le_rfl, Nat.sub_self]
    rfl
  · rw [take_left]

/-- The directories on the way to a file of a directory: those to the directory itself, and
those to the parts of the name of the file. -/
theorem mem_mkdirp_slash {dir name : Str} (nonempty : dir ≠ []) :
    act ∈ mkdirp (dir ++ 47 :: name) ↔
      (∃ front, front ≠ [] ∧ (front = dir ∨ ∃ back, dir = front ++ 47 :: back) ∧
          act = .mkdir front) ∨
        ∃ part rest, name = part ++ 47 :: rest ∧ act = .mkdir (dir ++ 47 :: part) := by
  rw [mem_mkdirp]
  constructor
  · rintro ⟨front, back, some_, shape, rfl⟩
    rcases append_eq_append_iff.1 shape with ⟨more, there, later⟩ | ⟨more, there, later⟩
    · cases more with
      | nil =>
        rw [append_nil] at there
        exact Or.inl ⟨front, some_, Or.inl there, rfl⟩
      | cons _ more =>
        rw [cons_append, List.cons.injEq] at later
        exact Or.inr ⟨more, back, later.2, by rw [there, ← later.1]⟩
    · cases more with
      | nil =>
        rw [append_nil] at there
        exact Or.inl ⟨front, some_, Or.inl there.symm, rfl⟩
      | cons _ more =>
        rw [cons_append, List.cons.injEq] at later
        exact Or.inl ⟨front, some_, Or.inr ⟨more, by rw [there, ← later.1]⟩, rfl⟩
  · rintro (⟨front, some_, rfl | ⟨back, rfl⟩, rfl⟩ | ⟨part, rest, rfl, rfl⟩)
    · exact ⟨front, name, some_, rfl, rfl⟩
    · exact ⟨front, back ++ 47 :: name, some_, by simp, rfl⟩
    · exact ⟨dir ++ 47 :: part, rest, by simp, by simp, rfl⟩

/-! ### Staying -/

/-- A file is created below a directory; a directory is created there, or is one on the way to
it, which exists, as do those walked to a known one. -/
def Confined (cwd : List Str) (known : Str) (dir : List Str) : Act → Prop
  | .mkdir path => path <+: known ∨ Prefixes.OnPath (resolve cwd path) dir
  | .write path _ _ => dir <+: resolve cwd path ∧ resolve cwd path ≠ dir

/-- Wherever a tree is checked out, all is created below the destination. -/
def CheckoutStays (readobj : Bytes → Except Str (Nat × Bytes)) (tree : Bytes) : Prop :=
  ∀ kernel fuel cwd destpath, destpath ≠ [] →
    ∀ act ∈ (checkout readobj kernel fuel [] tree destpath).1,
      Confined cwd destpath (resolve cwd destpath) act

/-- In whatever repository references are written, all is created below its `refs`. -/
def RefsStay (remote : Str) (refs : List Ref) : Prop :=
  ∀ cwd gitdir, gitdir ≠ [] → ∀ act ∈ updaterefs gitdir remote refs,
    Confined cwd gitdir (resolve cwd gitdir ++ [str "refs"]) act

/-- The names to a directory lead nowhere else than up or below; those to a file lead below. -/
def Keeps (sub comps : List Str) : Bool → Prop
  | true => Passes sub comps
  | false => Lands sub comps

def NamesKeep (readobj : Bytes → Except Str (Nat × Bytes)) (tree : Bytes) : Prop :=
  ∀ chain isdir, Comes readobj tree chain isdir → Keeps [] (chain.flatMap segments) isdir

/-- The names that references are written under, and their parts up to a slash. -/
def RefsKeep (remote : Str) (refs : List Ref) : Prop :=
  ∀ r ∈ refs, ∀ refname ∈ refnames remote r.name,
    Keeps [str "refs"] (segments refname) false ∧
      ∀ part rest, refname = part ++ 47 :: rest → Keeps [str "refs"] (segments part) true

theorem confined_of_keeps (keeps : Keeps sub comps act.isdir) {cwd : List Str}
    (path : resolve cwd act.path = comps.foldl follow (resolve cwd known)) :
    Confined cwd known (resolve cwd known ++ sub) act := by
  cases act with
  | mkdir there =>
    right
    rw [show resolve cwd there = _ from path]
    exact onPath_of_passes keeps _
  | write there _ _ =>
    show _ ∧ _
    rw [show resolve cwd there = _ from path]
    exact below_of_lands keeps _

/-- And from the directory elsewhere, only there. -/
theorem keeps_of_confined (confined : Confined [] known (resolve [] known ++ sub) act)
    (root : resolve [] known = elsewhere comps) (longer : known.length < act.path.length)
    (path : resolve [] act.path = comps.foldl follow (resolve [] known)) :
    Keeps sub comps act.isdir := by
  rw [root] at path confined
  cases act with
  | mkdir there =>
    rcases confined with walked | onPath
    · exact absurd walked.length_le (Nat.not_le.2 longer)
    · rw [show resolve [] there = _ from path] at onPath
      exact passes_of_onPath onPath
  | write there _ _ =>
    have ⟨inside, other⟩ := confined
    rw [show resolve [] there = _ from path] at inside other
    exact lands_of_below inside other

theorem resolve_elsewhere (comps : List Str) :
    below [] (elsewhere comps) ≠ [] ∧
      resolve [] (below [] (elsewhere comps)) = elsewhere comps := by
  constructor
  · exact cons_ne_nil _ _
  · exact @place_below [] _ (elsewhere_isName comps)

theorem Comes.nonempty (comes : Comes readobj tree chain isdir) : chain ≠ [] := by
  cases comes <;> exact cons_ne_nil _ _

theorem checkoutStays_iff (readobj : Bytes → Except Str (Nat × Bytes)) (tree : Bytes) :
    CheckoutStays readobj tree ↔ NamesKeep readobj tree := by
  constructor
  · intro stays chain _ comes
    obtain ⟨bound, called⟩ := checkout_comes comes
    obtain ⟨nonempty, root⟩ := resolve_elsewhere (chain.flatMap segments)
    obtain ⟨act, member, kind, path⟩ := called bound le_rfl [] (below [] (elsewhere _))
    have confined := stays willing bound [] _ nonempty act member
    rw [← append_nil (resolve _ _)] at confined
    rw [← kind]
    apply keeps_of_confined confined root
    · rw [path]
      obtain ⟨_, _, rfl⟩ := exists_cons_of_ne_nil comes.nonempty
      exact length_below_cons _ _ _
    · rw [path, resolve_below nonempty]
  · intro keeps kernel fuel cwd destpath nonempty act member
    have walks : Walks readobj [] tree destpath (Whole readobj tree)
        (checkout readobj kernel fuel [] tree destpath) := checkout_walks kernel fuel [] tree destpath
    obtain ⟨⟨new, shape, named⟩, _⟩ := walks
    rw [shape, nil_append] at member
    obtain ⟨chain, comes, path⟩ := named act member
    have there : resolve cwd act.path = (chain.flatMap segments).foldl follow (resolve cwd destpath) := by
      rw [path, resolve_below nonempty]
    have confined := confined_of_keeps (keeps chain act.isdir comes) there
    rwa [append_nil] at confined

theorem mem_updaterefs {gitdir remote : Str} {refs : List Ref} :
    act ∈ updaterefs gitdir remote refs ↔
      ∃ r ∈ refs, ∃ refname ∈ refnames remote r.name, act ∈ writeref gitdir refname r.hash := by
  unfold updaterefs
  simp only [mem_flatMap]

/-- References are written below `refs` exactly if their names stay there. -/
theorem refsStay_iff (remote : Str) (refs : List Ref) :
    RefsStay remote refs ↔ RefsKeep remote refs := by
  constructor
  · intro stay r member refname named
    have calls : ∀ gitdir, gitdir ≠ [] → ∀ act ∈ writeref gitdir refname r.hash,
        Confined [] gitdir (resolve [] gitdir ++ [str "refs"]) act :=
      fun gitdir nonempty act called =>
        stay [] gitdir nonempty act (mem_updaterefs.2 ⟨r, member, refname, named, called⟩)
    constructor
    · have ⟨nonempty, root⟩ := resolve_elsewhere (segments refname)
      have called := calls _ nonempty _
        (mem_append_right _ (mem_singleton_self _))
      refine keeps_of_confined called root ?_ (resolve_slash nonempty [] refname)
      show _ < List.length (_ ++ _)
      rw [length_append, length_cons]
      omega
    intro part rest shape
    have ⟨nonempty, root⟩ := resolve_elsewhere (segments part)
    have called := calls _ nonempty _ (mem_append_left _
      ((mem_mkdirp_slash nonempty).2 (Or.inr ⟨part, rest, shape, rfl⟩)))
    refine keeps_of_confined called root ?_ (resolve_slash nonempty [] part)
    show _ < List.length (_ ++ _)
    rw [length_append, length_cons]
    omega
  · intro keep cwd _ nonempty _ member
    have ⟨r, here, refname, named, called⟩ := mem_updaterefs.1 member
    have ⟨whole, parts⟩ := keep r here refname named
    rcases mem_append.1 called with way | last
    · rcases (mem_mkdirp_slash nonempty).1 way with ⟨front, _, known, rfl⟩ | ⟨part, rest, shape, rfl⟩
      · left
        rcases known with rfl | ⟨back, rfl⟩
        · exact prefix_rfl
        · exact prefix_append _ _
      · exact confined_of_keeps (parts part rest shape) (resolve_slash nonempty cwd part)
    · rw [mem_singleton.1 last]
      exact confined_of_keeps whole (resolve_slash nonempty cwd refname)

/-- What is checked out and what references are written stays where it belongs exactly if the
names from the remote do. -/
theorem writes_stay_iff (readobj : Bytes → Except Str (Nat × Bytes)) (tree : Bytes)
    (remote : Str) (refs : List Ref) :
    CheckoutStays readobj tree ∧ RefsStay remote refs ↔
      NamesKeep readobj tree ∧ RefsKeep remote refs := by
  rw [checkoutStays_iff, refsStay_iff]

/-- A repository with the tree 1, which holds the tree 2 as `..`, which holds a file `x`. -/
def sampleRepo (h : Bytes) : Except Str (Nat × Bytes) :=
  if h = List.replicate 20 1 then
    .ok (2, encodetree [⟨16384, str "..", List.replicate 20 2⟩])
  else if h = List.replicate 20 2 then
    .ok (2, encodetree [⟨33188, str "x", List.replicate 20 3⟩])
  else .ok (3, [104, 105])

theorem treeof_encodetree (read : readobj tree = .ok (2, encodetree entries))
    (wellformed : ∀ e ∈ entries, e.Wellformed) : treeof readobj tree = .ok entries := by
  unfold treeof
  rw [read]
  show (match parsetree (encodetree entries) with
    | .error err => Except.error (str "parse tree: " ++ err)
    | .ok entries => Except.ok entries) = _
  rw [parsetree_encodetree wellformed]

theorem sampleRepo_comes :
    Comes sampleRepo (List.replicate 20 1) [str "..", str "x"] false := by
  have upper : treeof sampleRepo (List.replicate 20 1) =
      .ok [⟨16384, str "..", List.replicate 20 2⟩] := by
    apply treeof_encodetree rfl
    intro e member
    rw [mem_singleton.1 member]
    exact ⟨by decide, by decide, by unfold Runes; decide, by decide, by decide, by decide⟩
  have lower : treeof sampleRepo (List.replicate 20 2) =
      .ok [⟨33188, str "x", List.replicate 20 3⟩] := by
    apply treeof_encodetree rfl
    intro _ member
    rw [mem_singleton.1 member]
    exact ⟨by decide, by decide, by unfold Runes; decide, by decide, by decide, by decide⟩
  have file : Comes sampleRepo (List.replicate 20 2) [str "x"] false :=
    Comes.file ⟨[], [], lower, nofun⟩ (by decide) (by decide) ⟨[104, 105], rfl⟩
  exact Comes.into ⟨[], [], upper, nofun⟩ rfl file

/-- A tree named `..` takes its file out of the destination, and a tag with `..`s takes its
reference out of the repository. -/
theorem writes_stray : ¬CheckoutStays sampleRepo (List.replicate 20 1) ∧
    ¬RefsStay (str "origin") [⟨str "refs/tags/../../../x", List.replicate 20 1⟩] := by
  constructor
  · intro stays
    have ⟨bound, called⟩ := checkout_comes sampleRepo_comes
    have ⟨act, member, kind, path⟩ := called bound le_rfl [] (str "/d")
    have confined := stays willing bound [] (str "/d") (by decide) act member
    cases act with
    | mkdir _ => cases kind
    | write there _ _ =>
      rw [show there = _ from path] at confined
      exact absurd confined.1 (by decide)
  · intro stay
    have confined := stay [] (str "/g") (by decide) _
      (mem_append_left _ (mem_append_left _
        (mem_append_right _ (mem_singleton_self _))))
    exact absurd confined.1 (by decide)

end Infernode.Git
