import Infernode.Lib.Gitindex
import Mathlib.Logic.Relation

/-!
What `appl/lib/git/git.b` puts into the pack of a push.

Owns: `parsecommit` and `enumobjects`; the invariant of its queue; and when what it returns is
all that the other side needs.

Does not own: how an object is read, which is a parameter, and how the pack is written.
-/

namespace Infernode.Git

open Text Lib9 List

/-! ### Commits -/

structure Commit where
  tree : Bytes
  parents : List Bytes
  author : Str
  committer : Str
  msg : Str

/-- What a line of the header sets; the last parent is the first of the list. -/
def commitline (c : Commit) (line : Str) : Except Str Commit :=
  let (key, val) := splitfirst 32 line
  if key = str "tree" then
    match parsehash val with
    | .error err => .error (str "bad tree hash: " ++ err)
    | .ok h => .ok { c with tree := h }
  else if key = str "parent" then
    match parsehash val with
    | .error err => .error (str "bad parent hash: " ++ err)
    | .ok h => .ok { c with parents := h :: c.parents }
  else if key = str "author" then .ok { c with author := val }
  else if key = str "committer" then .ok { c with committer := val }
  else .ok c

def commitlines (c : Commit) (s : Str) : Except Str Commit :=
  if _ : (splitline s).1 = [] then .ok { c with msg := (splitline s).2 }
  else
    match commitline c (splitline s).1 with
    | .error err => .error err
    | .ok c => commitlines c (splitline s).2
termination_by s.length
decreasing_by exact (splitline_length s).2 (by assumption)

def parsecommit (data : Bytes) : Except Str Commit :=
  (commitlines ⟨[], [], [], [], []⟩ (c2string data)).map fun c =>
    { c with parents := c.parents.reverse }

/-! ### `enumobjects` -/

/-- The objects that a repository can read. No result is a read that raises or does not return; two
hashes of one text, which only the hash that is nil and that of zeros are, are of one object. -/
structure Repo where
  readobj : Bytes → Option (Except Str (Nat × Bytes))
  names : List Str
  known : ∀ h object, readobj h = some (.ok object) → hex h ∈ names
  same : ∀ h h' object r, hex h = hex h' → readobj h = some (.ok object) → readobj h' = some r →
    r = .ok object

structure ObjRef where
  hash : Bytes
  otype : Nat
  data : Bytes

/-- What an object names, in the order in which it comes to the queue, if it can be parsed. -/
def named (otype : Nat) (data : Bytes) : Option (List Bytes) :=
  if otype = 1 then
    match parsecommit data with
    | .error _ => none
    | .ok commit => some (commit.parents ++ [commit.tree])
  else if otype = 2 then
    match parsetree data with
    | .error _ => none
    | .ok entries => some (entries.map TreeEntry.hash)
  else some []

inductive Enumerated
  | returned (objects : List ObjRef) (err : Option Str)
  | raised
  | running

section Search

variable (repo : Repo) (haveset : List Str)

def enqueue (seen : List Str) (queue hashes : List Bytes) : List Bytes :=
  hashes.foldl (fun queue h => if hex h ∈ seen ∨ hex h ∈ haveset then queue else h :: queue) queue

def search : Nat → List Bytes → List ObjRef → List Str → Enumerated
  | 0, _, _, _ => .running
  | _ + 1, [], objects, _ => .returned objects none
  | fuel + 1, hash :: queue, objects, seen =>
    if hex hash ∈ seen ∨ hex hash ∈ haveset then search fuel queue objects seen
    else
      let seen := hex hash :: seen
      match repo.readobj hash with
      | none => .raised
      | some (.error _) => search fuel queue objects seen
      | some (.ok (otype, data)) =>
        search fuel (enqueue haveset seen queue ((named otype data).getD []))
          (⟨hash, otype, data⟩ :: objects) seen

end Search

def enumobjects (repo : Repo) (fuel : Nat) (want have_ : List Bytes) : Enumerated :=
  search repo (have_.map hex).reverse fuel want [] []

/-! ### What the other side needs -/

section Needs

variable (repo : Repo)

/-- A commit leads to its parents and its tree, and a tree to its entries, but for the links to
submodules, of the mode `8r160000`. -/
def Leads (h child : Bytes) : Prop :=
  (∃ data commit, repo.readobj h = some (.ok (1, data)) ∧ parsecommit data = .ok commit ∧
    child ≠ [] ∧ (child ∈ commit.parents ∨ child = commit.tree)) ∨
  ∃ data entries, repo.readobj h = some (.ok (2, data)) ∧ parsetree data = .ok entries ∧
    ∃ e ∈ entries, e.mode ≠ 57344 ∧ child = e.hash

def Reachable (roots : List Bytes) (h : Bytes) : Prop :=
  ∃ root, hex root ∈ roots.map hex ∧ Relation.ReflTransGen (Leads repo) root h

def Needed (want have_ : List Bytes) (h : Bytes) : Prop :=
  Reachable repo want h ∧ ¬ Reachable repo have_ h

def Legible (h : Bytes) : Prop :=
  ∃ otype data, repo.readobj h = some (.ok (otype, data)) ∧ named otype data ≠ none

/-- A push is complete that has every object once, and that lacks none which is needed unless it
says so. -/
structure Complete (want have_ : List Bytes) (objects : List ObjRef) (err : Option Str) :
    Prop where
  nodup : err = none → (objects.map fun o => hex o.hash).Nodup
  closed : err = none → ∀ h, Reachable repo want h → Reachable repo have_ h ∨
    ∃ o ∈ objects, hex o.hash = hex h ∧ repo.readobj h = some (.ok (o.otype, o.data))
  reported : ∀ h, Needed repo want have_ h → ¬ Legible repo h → err ≠ none

end Needs

theorem named_of_leads {repo : Repo} {h child : Bytes} (leads : Leads repo h child) :
    ∃ object, repo.readobj h = some (.ok object) ∧ child ∈ (named object.1 object.2).getD [] := by
  rcases leads with ⟨data, _, read, parsed, _, child⟩ | ⟨data, _, read, parsed, e, member, _, child⟩
  · refine ⟨_, read, ?_⟩
    rw [named, if_pos rfl, parsed]
    apply mem_append.2
    rw [mem_singleton]
    exact child
  · refine ⟨_, read, ?_⟩
    rw [named, if_neg (Nat.succ_ne_self 1), if_pos rfl, parsed, child]
    exact mem_map_of_mem member

/-! ### The queue -/

section Frontier

variable {repo : Repo} {haveset : List Str} {want : List Bytes}

/-- The search has come to the object, or it will. -/
def Met (haveset seen : List Str) (queue : List Bytes) (h : Bytes) : Prop :=
  hex h ∈ seen ∨ hex h ∈ haveset ∨ h ∈ queue

theorem met_enqueue (seen : List Str) (queue hashes : List Bytes) :
    (∀ h ∈ queue, h ∈ enqueue haveset seen queue hashes) ∧
    ∀ h ∈ hashes, Met haveset seen (enqueue haveset seen queue hashes) h := by
  induction hashes generalizing queue with
  | nil => exact ⟨fun _ member => member, fun _ member => nomatch member⟩
  | cons first _ ih =>
    have ⟨kept, met⟩ := ih
      (if hex first ∈ seen ∨ hex first ∈ haveset then queue else first :: queue)
    constructor
    · intro h member
      apply kept
      split
      · exact member
      · exact mem_cons_of_mem _ member
    intro h member
    rcases mem_cons.1 member with rfl | member
    · by_cases known : hex h ∈ seen ∨ hex h ∈ haveset
      · exact known.imp_right Or.inl
      · exact Or.inr (Or.inr (kept h (by rw [if_neg known]; exact mem_cons_self)))
    · exact met h member

theorem Met.later {seen seen' : List Str} {queue later : List Bytes} {hash h : Bytes}
    (met : Met haveset seen (hash :: queue) h) (taken : hex hash ∈ seen' ∨ hex hash ∈ haveset)
    (grown : ∀ x ∈ seen, x ∈ seen') (kept : ∀ h ∈ queue, h ∈ later) : Met haveset seen' later h := by
  rcases met with member | member | member
  · exact Or.inl (grown _ member)
  · exact Or.inr (Or.inl member)
  · rcases mem_cons.1 member with rfl | member
    · exact taken.imp_right Or.inl
    · exact Or.inr (Or.inr (kept h member))

/-- What the search has found of the object that it has seen under the name `x`. -/
def Found (repo : Repo) (haveset : List Str) (queue : List Bytes) (objects : List ObjRef)
    (seen : List Str) (x : Str) : Prop :=
  ∃ h r, hex h = x ∧ repo.readobj h = some r ∧
    ∀ otype data, r = .ok (otype, data) → ⟨h, otype, data⟩ ∈ objects ∧
      ∀ child ∈ (named otype data).getD [], Met haveset seen queue child

/-- What holds before each turn of the loop. -/
structure Frontier (repo : Repo) (haveset : List Str) (want queue : List Bytes)
    (objects : List ObjRef) (seen : List Str) : Prop where
  nodup : seen.Nodup
  sublist : (objects.map fun o => hex o.hash).Sublist seen
  roots : ∀ root ∈ want, Met haveset seen queue root
  found : ∀ x ∈ seen, Found repo haveset queue objects seen x

variable {queue later : List Bytes} {objects more : List ObjRef} {seen seen' : List Str}
  {hash : Bytes}

theorem Frontier.after (frontier : Frontier repo haveset want (hash :: queue) objects seen)
    (taken : hex hash ∈ seen' ∨ hex hash ∈ haveset) (grown : ∀ x ∈ seen, x ∈ seen')
    (kept : ∀ h ∈ queue, h ∈ later) (listed : ∀ o ∈ objects, o ∈ more) :
    (∀ root ∈ want, Met haveset seen' later root) ∧
      ∀ x ∈ seen, Found repo haveset later more seen' x := by
  refine ⟨fun root member => (frontier.roots root member).later taken grown kept, fun x member => ?_⟩
  have ⟨h, r, text, read, before⟩ := frontier.found x member
  exact ⟨h, r, text, read, fun otype data ok => ⟨listed _ (before otype data ok).1,
    fun child names => ((before otype data ok).2 child names).later taken grown kept⟩⟩

theorem Frontier.visit {r : Except Str (Nat × Bytes)}
    (frontier : Frontier repo haveset want (hash :: queue) objects seen)
    (new : hex hash ∉ seen) (read : repo.readobj hash = some r)
    (kept : ∀ h ∈ queue, h ∈ later) (listed : ∀ o ∈ objects, o ∈ more)
    (sublist : (more.map fun o => hex o.hash).Sublist (hex hash :: seen))
    (found : ∀ otype data, r = .ok (otype, data) → ⟨hash, otype, data⟩ ∈ more ∧
      ∀ child ∈ (named otype data).getD [], Met haveset (hex hash :: seen) later child) :
    Frontier repo haveset want later more (hex hash :: seen) := by
  have ⟨roots, before⟩ := frontier.after (Or.inl mem_cons_self)
    (fun _ member => mem_cons_of_mem _ member) kept listed
  exact ⟨nodup_cons.2 ⟨new, frontier.nodup⟩, sublist, roots,
    forall_mem_cons.2 ⟨⟨hash, r, rfl, read, found⟩, before⟩⟩

theorem Frontier.search {err : Option Str} {fuel : Nat}
    (frontier : Frontier repo haveset want queue objects seen)
    (returned : search repo haveset fuel queue objects seen = .returned more err) :
    err = none ∧ ∃ seen', Frontier repo haveset want [] more seen' := by
  induction fuel generalizing queue objects seen with
  | zero => exact nomatch returned
  | succ _ ih =>
    cases queue with
    | nil =>
      cases returned
      exact ⟨rfl, seen, frontier⟩
    | cons hash queue =>
      rw [Git.search] at returned
      by_cases known : hex hash ∈ seen ∨ hex hash ∈ haveset
      · rw [if_pos known] at returned
        have ⟨roots, found⟩ := frontier.after known (fun _ member => member)
          (fun _ member => member) (fun _ member => member)
        exact ih ⟨frontier.nodup, frontier.sublist, roots, found⟩ returned
      rw [if_neg known] at returned
      have new : hex hash ∉ seen := fun member => known (Or.inl member)
      cases read : repo.readobj hash with
      | none =>
        simp only [read] at returned
        exact nomatch returned
      | some r =>
        cases r with
        | error _ =>
          simp only [read] at returned
          exact ih (frontier.visit new read (fun _ member => member)
            (fun _ member => member) (frontier.sublist.cons _) nofun) returned
        | ok object =>
          simp only [read] at returned
          have ⟨kept, met⟩ := @met_enqueue haveset (hex hash :: seen) queue
            ((named object.1 object.2).getD [])
          apply ih _ returned
          refine frontier.visit new read kept (fun _ member =>
            mem_cons_of_mem _ member) (frontier.sublist.cons_cons (hex hash)) ?_
          intro _ _ ok
          cases ok
          exact ⟨mem_cons_self, met⟩

theorem search_ends (repo : Repo) (haveset : List Str) (n : Nat) :
    ∀ (queue : List Bytes) (objects : List ObjRef) (seen : List Str),
      (repo.names.filter (· ∉ seen)).length ≤ n →
      ∃ fuel, search repo haveset fuel queue objects seen ≠ .running := by
  induction n using Nat.strong_induction_on with
  | _ _ fewer =>
    intro queue
    induction queue with
    | nil => exact fun _ _ _ => ⟨1, nofun⟩
    | cons hash queue ih =>
      intro objects seen bound
      have shorter : (repo.names.filter (· ∉ hex hash :: seen)).Sublist
          (repo.names.filter (· ∉ seen)) := by
        apply monotone_filter_right
        intro _ new
        exact decide_eq_true fun member =>
          of_decide_eq_true new (mem_cons_of_mem _ member)
      by_cases known : hex hash ∈ seen ∨ hex hash ∈ haveset
      · have ⟨fuel, ends⟩ := ih objects seen bound
        exact ⟨fuel + 1, by rw [Git.search, if_pos known]; exact ends⟩
      cases read : repo.readobj hash with
      | none =>
        exact ⟨1, by rw [Git.search, if_neg known]; simp only [read]; exact nofun⟩
      | some r =>
        cases r with
        | error _ =>
          have ⟨fuel, ends⟩ := ih objects (hex hash :: seen)
            (shorter.length_le.trans bound)
          exact ⟨fuel + 1, by rw [Git.search, if_neg known]; simp only [read]; exact ends⟩
        | ok object =>
          have less : (repo.names.filter (· ∉ hex hash :: seen)).length <
              (repo.names.filter (· ∉ seen)).length := by
            apply Nat.lt_of_le_of_ne shorter.length_le
            intro length
            have member : hex hash ∈ repo.names.filter (· ∉ seen) :=
              mem_filter.2 ⟨repo.known hash object read,
                decide_eq_true fun member => known (Or.inl member)⟩
            rw [← shorter.eq_of_length length] at member
            exact of_decide_eq_true (mem_filter.1 member).2 mem_cons_self
          have ⟨fuel, ends⟩ := fewer _ (less.trans_le bound)
            (enqueue haveset (hex hash :: seen) queue ((named object.1 object.2).getD []))
            (⟨hash, object.1, object.2⟩ :: objects) (hex hash :: seen) (Nat.le_refl _)
          exact ⟨fuel + 1, by rw [Git.search, if_neg known]; simp only [read]; exact ends⟩

/-- At the end the search has come to all that can be reached, but for what `have` leads to. -/
theorem Frontier.closed {have_ : List Bytes} {h : Bytes}
    (frontier : Frontier repo (have_.map hex).reverse want [] objects seen)
    (reachable : Reachable repo want h) : Reachable repo have_ h ∨ hex h ∈ seen := by
  have settled {x : Bytes} (met : Met (have_.map hex).reverse seen [] x) :
      Reachable repo have_ x ∨ hex x ∈ seen := by
    rcases met with member | member | member
    · exact Or.inr member
    · exact Or.inl ⟨x, mem_reverse.1 member, .refl⟩
    · exact nomatch member
  have ⟨root, wanted, path⟩ := reachable
  induction path with
  | refl =>
    have ⟨x, member, text⟩ := mem_map.1 wanted
    have met := frontier.roots x member
    rw [Met, text] at met
    exact settled (met.imp_right fun member => member.imp_right nofun)
  | tail path leads ih =>
    rcases ih ⟨root, wanted, path⟩ with ⟨start, had, way⟩ | member
    · exact Or.inl ⟨start, had, way.tail leads⟩
    have ⟨h', r, text, read', found⟩ := frontier.found _ member
    have ⟨object, read, names⟩ := named_of_leads leads
    have ok := repo.same _ h' object r text.symm read read'
    exact settled ((found _ _ ok).2 _ names)

end Frontier

/-- The enumeration comes to an end; and where it returns, the push is complete exactly when every
object that is needed can be read and, where it names others, parsed. -/
theorem enumobjects_complete (repo : Repo) (want have_ : List Bytes) :
    (∃ fuel, enumobjects repo fuel want have_ ≠ .running) ∧
    ∀ fuel objects err, enumobjects repo fuel want have_ = .returned objects err →
      (Complete repo want have_ objects err ↔ ∀ h, Needed repo want have_ h → Legible repo h) := by
  refine ⟨search_ends repo _ _ want [] [] (Nat.le_refl _), fun fuel objects err returned => ?_⟩
  have first : Frontier repo (have_.map hex).reverse want want [] [] :=
    ⟨List.nodup_nil, List.Sublist.refl [], fun root member => Or.inr (Or.inr member), nofun⟩
  have ⟨without, _, frontier⟩ := first.search returned
  constructor
  · intro complete h needed
    by_contra illegible
    exact complete.reported h needed illegible without
  intro legible
  refine ⟨fun _ => frontier.sublist.nodup frontier.nodup, fun _ h reachable => ?_,
    fun h needed illegible => absurd (legible h needed) illegible⟩
  by_cases had : Reachable repo have_ h
  · exact Or.inl had
  have member := (frontier.closed reachable).resolve_left had
  have ⟨otype, data, read, _⟩ := legible h ⟨reachable, had⟩
  have ⟨h', r, text, read', found⟩ := frontier.found _ member
  have ok := repo.same h h' (otype, data) r text.symm read read'
  exact Or.inr ⟨_, (found otype data ok).1, text, read⟩

def bereft : Repo :=
  ⟨fun h => some (.error (str "object not found: " ++ hex h)), [], nofun, nofun⟩

/-- The commit that is to be pushed is left out, without an error. -/
theorem enumobjects_incomplete :
    enumobjects bereft 2 [List.replicate 20 1] [] = .returned [] none ∧
    ¬ Complete bereft [List.replicate 20 1] [] [] none := by
  refine ⟨rfl, fun complete => complete.reported (List.replicate 20 1) ⟨?_, ?_⟩ ?_ rfl⟩
  · exact ⟨_, List.mem_singleton_self _, .refl⟩
  · exact fun ⟨_, had, _⟩ => nomatch had
  · exact fun ⟨_, _, read, _⟩ => nomatch read

end Infernode.Git
