import Infernode.Order.Prefixes
import Infernode.Text.Decimal
import Infernode.Text.Lines

/-!
The narrowing of paths of `appl/veltro/nsconstruct.b`.

Owns: a tree as a process sees it, `restrictdirx` on the directory at its root, `splitfirst`
and `restrictpathx`; what is left of a tree when it succeeds; and when that is what the grants
say, whatever their order, and does not shrink with another grant.

Does not own: the shadow directories and the binds, of which only the view they leave is
modelled, or the special case of the root of the name space.
-/

namespace Infernode.Veltro

open Text Prefixes List

/-! ### Trees -/

inductive Node
  | file
  | dir (child : Str → Option Node)

def Node.child : Node → Str → Option Node
  | .file, _ => none
  | .dir child, name => child name

def Node.walk : Node → List Str → Option Node
  | node, [] => some node
  | node, name :: names => (node.child name).bind fun next => next.walk names

def Node.Reaches (node : Node) (q : List Str) : Prop := (node.walk q).isSome = true

def Node.bindat (node : Node) (name : Str) (new : Node) : Node :=
  .dir fun other => if other = name then some new else node.child other

/-! ### Narrowing -/

def splitfirst : Str → Str × Str
  | [] => ([], [])
  | c :: p => if c = 47 then ([], p) else (c :: (splitfirst p).1, (splitfirst p).2)

/-- A directory with the allowed names that exist; a directory is not bound over a file. -/
def restrictdirx (target : Node) (allowed : List Str) : Except Str Node :=
  match target with
  | .file => .error (str "cannot replace")
  | .dir child => .ok (.dir fun name => if name ∈ allowed then child name else none)

def firsts (paths : List Str) : List Str :=
  paths.foldl (fun allow p =>
    if (splitfirst p).1 ∈ allow then allow else (splitfirst p).1 :: allow) []

/-- What the second pass collects for a name. -/
def subpathsof (name : Str) (paths : List Str) : List Str :=
  paths.foldl (fun subpaths q =>
    if (splitfirst q).1 = name ∧ (splitfirst q).2 ≠ [] then (splitfirst q).2 :: subpaths
    else subpaths) []

/-- The second pass, with the recursion as `inner`. -/
def descend (inner : Node → List Str → Option (Except Str Node)) (paths : List Str) :
    List Str → Node → Option (Except Str Node)
  | [], view => some (.ok view)
  | name :: allow, view =>
    if subpathsof name paths = [] then descend inner paths allow view
    else
      match view.child name with
      | none => some (.error (str "cannot replace"))
      | some next =>
        match inner next (subpathsof name paths) with
        | none => none
        | some (.error e) => some (.error e)
        | some (.ok new) => descend inner paths allow (view.bindat name new)

/-- The view of the directory afterwards, or an error; `none` when the fuel runs out. -/
def restrictpathx : Nat → Node → List Str → Option (Except Str Node)
  | 0, _, _ => none
  | fuel + 1, dir, paths =>
    match restrictdirx dir (firsts paths) with
    | .error e => some (.error e)
    | .ok view => descend (restrictpathx fuel) paths (firsts paths) view

/-! ### Grants as lists of names -/

def namesof (p : Str) : List Str := p.splitOn 47

/-- A component that `validatepath` lets pass. -/
def Component (name : Str) : Prop := name ≠ [] ∧ name ≠ str "." ∧ name ≠ str ".."

/-- What is left of a path that `validatepath` let pass: no component is empty or a dot name. -/
def Relative (p : Str) : Prop := ∀ name ∈ namesof p, Component name

/-- A path is one name, or a name with a slash and a path behind it. -/
theorem splitfirst_spec (p : Str) :
    (47 ∉ p ∧ splitfirst p = (p, [])) ∨
      ∃ first rest, 47 ∉ first ∧ p = first ++ 47 :: rest ∧ splitfirst p = (first, rest) := by
  induction p with
  | nil => exact Or.inl ⟨not_mem_nil, rfl⟩
  | cons c p ih =>
    by_cases slash : c = 47
    · exact Or.inr ⟨[], p, not_mem_nil, by rw [slash]; rfl, if_pos slash⟩
    have other : splitfirst (c :: p) = (c :: (splitfirst p).1, (splitfirst p).2) :=
      if_neg slash
    rw [other]
    rcases ih with ⟨plain, split⟩ | ⟨first, rest, plain, shape, split⟩
    · rw [split]
      exact Or.inl ⟨by simp [plain, Ne.symm slash], rfl⟩
    rw [split]
    refine Or.inr ⟨c :: first, rest, by simp [plain, Ne.symm slash], ?_, rfl⟩
    rw [shape]
    rfl

variable {p name : Str} {fuel : Nat} {others : List Str}

theorem namesof_eq (relative : Relative p) :
    (((splitfirst p).2 = [] ∧ namesof p = [(splitfirst p).1]) ∨
      ((splitfirst p).2 ≠ [] ∧ Relative (splitfirst p).2 ∧
        namesof p = (splitfirst p).1 :: namesof (splitfirst p).2)) := by
  unfold Relative namesof at relative
  rcases splitfirst_spec p with ⟨plain, split⟩ | ⟨first, rest, plain, shape, split⟩
  · rw [split]
    exact Or.inl ⟨rfl, splitOn_last plain⟩
  have names : p.splitOn 47 = first :: rest.splitOn 47 := by
    rw [shape]
    exact splitOn_line plain rest
  rw [names] at relative
  have later : Relative rest := (forall_mem_cons.1 relative).2
  rw [split]
  refine Or.inr ⟨?_, later, names⟩
  rintro rfl
  have alone : [] ∈ namesof [] := by
    unfold namesof
    rw [splitOn_last not_mem_nil]
    exact mem_singleton_self _
  exact (later [] alone).1 rfl

theorem namesof_ne_nil (relative : Relative p) : namesof p ≠ [] := by
  rcases namesof_eq relative with ⟨_, names⟩ | ⟨_, _, names⟩ <;> rw [names] <;>
    exact cons_ne_nil _ _

theorem head_namesof (relative : Relative p) : (namesof p).head? = some (splitfirst p).1 := by
  rcases namesof_eq relative with ⟨_, names⟩ | ⟨_, _, names⟩ <;> rw [names] <;> rfl

/-! ### The two passes -/

variable {paths : List Str}

theorem mem_firsts : name ∈ firsts paths ↔ ∃ p ∈ paths, (splitfirst p).1 = name := by
  have steps : ∀ allow : List Str, name ∈ paths.foldl (fun allow p =>
      if (splitfirst p).1 ∈ allow then allow else (splitfirst p).1 :: allow) allow ↔
        name ∈ allow ∨ ∃ p ∈ paths, (splitfirst p).1 = name := by
    induction paths with
    | nil => simp
    | cons p _ ih =>
      intro allow
      rw [foldl_cons, ih]
      by_cases known : (splitfirst p).1 ∈ allow
      · rw [if_pos known, exists_mem_cons_iff]
        constructor
        · exact Or.imp_right Or.inr
        rintro (member | same | later)
        · exact Or.inl member
        · exact Or.inl (same ▸ known)
        · exact Or.inr later
      · rw [if_neg known, mem_cons, exists_mem_cons_iff, or_assoc, or_left_comm,
          eq_comm]
  unfold firsts
  rw [steps]
  simp

theorem firsts_nodup (paths : List Str) : (firsts paths).Nodup := by
  have steps : ∀ allow : List Str, allow.Nodup → (paths.foldl (fun allow p =>
      if (splitfirst p).1 ∈ allow then allow else (splitfirst p).1 :: allow) allow).Nodup := by
    induction paths with
    | nil => exact fun allow distinct => distinct
    | cons p paths ih =>
      intro allow distinct
      rw [foldl_cons]
      apply ih
      split
      · exact distinct
      · rename_i fresh
        exact nodup_cons.2 ⟨fresh, distinct⟩
  exact steps [] nodup_nil

theorem mem_subpathsof {r : Str} :
    r ∈ subpathsof name paths ↔ r ≠ [] ∧ ∃ q ∈ paths, splitfirst q = (name, r) := by
  have steps : ∀ subpaths : List Str, r ∈ paths.foldl (fun subpaths q =>
      if (splitfirst q).1 = name ∧ (splitfirst q).2 ≠ [] then (splitfirst q).2 :: subpaths
      else subpaths) subpaths ↔
        r ∈ subpaths ∨ r ≠ [] ∧ ∃ q ∈ paths, splitfirst q = (name, r) := by
    induction paths with
    | nil => simp
    | cons q _ ih =>
      intro _
      rw [foldl_cons, ih, exists_mem_cons_iff]
      by_cases taken : (splitfirst q).1 = name ∧ (splitfirst q).2 ≠ []
      · rw [if_pos taken, mem_cons]
        constructor
        · rintro ((rfl | member) | later)
          · exact Or.inr ⟨taken.2, Or.inl (Prod.ext taken.1 rfl)⟩
          · exact Or.inl member
          · exact Or.inr ⟨later.1, Or.inr later.2⟩
        rintro (member | ⟨nonempty, same | later⟩)
        · exact Or.inl (Or.inr member)
        · exact Or.inl (Or.inl (by rw [same]))
        · exact Or.inr ⟨nonempty, later⟩
      · rw [if_neg taken]
        constructor
        · rintro (member | later)
          · exact Or.inl member
          · exact Or.inr ⟨later.1, Or.inr later.2⟩
        rintro (member | ⟨nonempty, same | later⟩)
        · exact Or.inl member
        · exact absurd ⟨by rw [same], by rw [same]; exact nonempty⟩ taken
        · exact Or.inr ⟨nonempty, later⟩
  unfold subpathsof
  rw [steps]
  simp

theorem relative_subpathsof (relative : ∀ p ∈ paths, Relative p) :
    ∀ r ∈ subpathsof name paths, Relative r := by
  intro _ member
  have ⟨nonempty, q, here, split⟩ := mem_subpathsof.1 member
  rcases namesof_eq (relative q here) with ⟨ends, _⟩ | ⟨_, rest, _⟩
  · rw [split] at ends
    exact absurd ends nonempty
  · rw [split] at rest
    exact rest

theorem mem_tails_namesof (relative : ∀ p ∈ paths, Relative p) {t : List Str} :
    t ∈ Prefixes.tails name (paths.map namesof) ↔ t ∈ (subpathsof name paths).map namesof := by
  rw [Prefixes.mem_tails, mem_map, mem_map]
  constructor
  · rintro ⟨nonempty, q, here, names⟩
    rcases namesof_eq (relative q here) with ⟨_, single⟩ | ⟨goesOn, _, split⟩
    · rw [single] at names
      exact absurd (List.cons.inj names).2.symm nonempty
    · rw [split] at names
      have ⟨first, rest⟩ := List.cons.inj names
      exact ⟨(splitfirst q).2, mem_subpathsof.2 ⟨goesOn, q, here, Prod.ext first rfl⟩, rest⟩
  rintro ⟨r, member, rfl⟩
  have nonemptyNames := namesof_ne_nil (relative_subpathsof relative r member)
  have ⟨nonempty, q, here, split⟩ := mem_subpathsof.1 member
  refine ⟨nonemptyNames, q, here, ?_⟩
  rcases namesof_eq (relative q here) with ⟨ends, _⟩ | ⟨_, _, names⟩
  · rw [split] at ends
    exact absurd ends nonempty
  · rw [names, split]

theorem mem_heads (relative : ∀ p ∈ paths, Relative p) :
    (∃ g ∈ paths.map namesof, g.head? = some name) ↔ name ∈ firsts paths := by
  rw [mem_firsts]
  constructor
  · rintro ⟨_, member, first⟩
    obtain ⟨p, here, rfl⟩ := mem_map.1 member
    rw [head_namesof (relative p here)] at first
    exact ⟨p, here, Option.some.inj first⟩
  · rintro ⟨p, here, rfl⟩
    exact ⟨namesof p, mem_map.2 ⟨p, here, rfl⟩, head_namesof (relative p here)⟩

/-! ### What is left -/

theorem reaches_cons (node : Node) (name : Str) (q : List Str) :
    node.Reaches (name :: q) ↔ ∃ next, node.child name = some next ∧ next.Reaches q := by
  unfold Node.Reaches
  show ((node.child name).bind fun next => next.walk q).isSome = true ↔ _
  cases node.child name <;> simp

theorem bindat_child (node : Node) (name other : Str) (new : Node) :
    (node.bindat name new).child other = if other = name then some new else node.child other :=
  rfl

/-- How the second pass leaves a name it is to go into. -/
def Entered (inner : Node → List Str → Option (Except Str Node)) (paths : List Str)
    (view : Node) (name : Str) (left : Option Node) : Prop :=
  ∃ next new, view.child name = some next ∧
    inner next (subpathsof name paths) = some (.ok new) ∧ left = some new

variable {view : Node}

section Descend

variable {inner : Node → List Str → Option (Except Str Node)} {paths : List Str}

theorem descend_stay (ends : subpathsof name paths = []) (allow : List Str) (view : Node) :
    descend inner paths (name :: allow) view = descend inner paths allow view :=
  if_pos ends

theorem descend_into (goesOn : subpathsof name paths ≠ []) (allow : List Str) (view : Node) :
    descend inner paths (name :: allow) view =
      match view.child name with
      | none => some (.error (str "cannot replace"))
      | some next =>
        match inner next (subpathsof name paths) with
        | none => none
        | some (.error e) => some (.error e)
        | some (.ok new) => descend inner paths allow (view.bindat name new) :=
  if_neg goesOn

variable {allow : List Str} {out : Node}

theorem descend_enter (goesOn : subpathsof name paths ≠ []) :
    descend inner paths (name :: allow) view = some (.ok out) ↔
      ∃ next new, view.child name = some next ∧
        inner next (subpathsof name paths) = some (.ok new) ∧
        descend inner paths allow (view.bindat name new) = some (.ok out) := by
  rw [descend_into goesOn]
  cases view.child name with
  | none => simp
  | some next => rcases result : inner next (subpathsof name paths) with _ | _ | new <;> simp [result]

/-- A name that is not gone into stays as it was. -/
theorem descend_other (success : descend inner paths allow view = some (.ok out))
    (other : name ∉ allow ∨ subpathsof name paths = []) : out.child name = view.child name := by
  induction allow generalizing view with
  | nil =>
    unfold descend at success
    rw [← Except.ok.inj (Option.some.inj success)]
  | cons first allow ih =>
    have later : name ∉ allow ∨ subpathsof name paths = [] :=
      other.imp_left fun absent member => absent (mem_cons_of_mem _ member)
    by_cases ends : subpathsof first paths = []
    · rw [descend_stay ends] at success
      exact ih success later
    have ⟨_, _, _, _, rest⟩ := (descend_enter ends).1 success
    rw [ih rest later, bindat_child]
    apply if_neg
    rintro rfl
    exact other.elim (fun absent => absent mem_cons_self) ends

theorem descend_entered (distinct : allow.Nodup)
    (success : descend inner paths allow view = some (.ok out)) (member : name ∈ allow)
    (goesOn : subpathsof name paths ≠ []) : Entered inner paths view name (out.child name) := by
  induction allow generalizing view with
  | nil => cases member
  | cons first allow ih =>
    have ⟨fresh, distinctRest⟩ := nodup_cons.1 distinct
    by_cases ends : subpathsof first paths = []
    · rw [descend_stay ends] at success
      have later : name ∈ allow := by
        rcases mem_cons.1 member with rfl | later
        · exact absurd ends goesOn
        · exact later
      exact ih distinctRest success later
    have ⟨next, new, found, narrowed, rest⟩ := (descend_enter ends).1 success
    rcases mem_cons.1 member with rfl | later
    · refine ⟨next, new, found, narrowed, ?_⟩
      rw [descend_other rest (Or.inl fresh), bindat_child, if_pos rfl]
    have ⟨next', new', found', narrowed', left⟩ :=
      ih distinctRest rest later
    refine ⟨next', new', ?_, narrowed', left⟩
    rw [bindat_child, if_neg] at found'
    · exact found'
    · rintro rfl
      exact fresh later

theorem descend_succeeds (distinct : allow.Nodup)
    (each : ∀ name ∈ allow, subpathsof name paths ≠ [] →
      ∃ next new, view.child name = some next ∧
        inner next (subpathsof name paths) = some (.ok new)) :
    ∃ out, descend inner paths allow view = some (.ok out) := by
  induction allow generalizing view with
  | nil => exact ⟨view, rfl⟩
  | cons first allow ih =>
    have ⟨fresh, distinctRest⟩ := nodup_cons.1 distinct
    by_cases ends : subpathsof first paths = []
    · rw [descend_stay ends]
      exact ih distinctRest
        (forall_mem_cons.1 each).2
    have ⟨next, new, found, narrowed⟩ := each first mem_cons_self ends
    have rest : ∃ out, descend inner paths allow (view.bindat first new) = some (.ok out) := by
      apply ih distinctRest
      intro name member goesOn
      rw [bindat_child, if_neg (fun same : name = first => fresh (same ▸ member))]
      exact each name (mem_cons_of_mem _ member) goesOn
    have ⟨out, success⟩ := rest
    exact ⟨out, (descend_enter ends).2 ⟨next, new, found, narrowed, success⟩⟩

theorem descend_returns (each : ∀ name ∈ allow, subpathsof name paths ≠ [] →
      ∀ next, inner next (subpathsof name paths) ≠ none) :
    descend inner paths allow view ≠ none := by
  induction allow generalizing view with
  | nil => exact Option.some_ne_none _
  | cons first allow ih =>
    have later : ∀ view, descend inner paths allow view ≠ none := fun view =>
      ih (forall_mem_cons.1 each).2
    have here := each first mem_cons_self
    by_cases ends : subpathsof first paths = []
    · rw [descend_stay ends]
      exact later view
    rw [descend_into ends]
    cases view.child first with
    | none => exact Option.some_ne_none _
    | some next =>
      rcases result : inner next (subpathsof first paths) with _ | _ | new
      · exact absurd result (here ends next)
      · simp [result]
      · simpa [result] using later _

end Descend

variable {dir : Node}

/-- A success is one of the first pass on a directory, and one of the second. -/
theorem restrictpathx_ok :
    restrictpathx (fuel + 1) dir paths = some (.ok view) ↔
      ∃ allowed, restrictdirx dir (firsts paths) = .ok allowed ∧
        descend (restrictpathx fuel) paths (firsts paths) allowed = some (.ok view) := by
  show (match restrictdirx dir (firsts paths) with
    | Except.error e => some (Except.error e)
    | .ok view => descend (restrictpathx fuel) paths (firsts paths) view) = _ ↔ _
  cases restrictdirx dir (firsts paths) <;> simp

theorem restrictdirx_child {allowed : Node} {names : List Str}
    (success : restrictdirx dir names = .ok allowed) (name : Str) :
    allowed.child name = if name ∈ names then dir.child name else none := by
  cases dir with
  | file => cases success
  | dir _ =>
    rw [← Except.ok.inj success]
    rfl

theorem subpathsof_eq_nil (relative : ∀ p ∈ paths, Relative p) :
    subpathsof name paths = [] ↔ tails name (paths.map namesof) = [] := by
  rw [← @map_eq_nil_iff _ _ namesof, eq_nil_iff_forall_not_mem,
    eq_nil_iff_forall_not_mem]
  exact forall_congr' fun t => not_congr (mem_tails_namesof relative).symm

/-- What is left is what there was, as far as letter by letter some grant goes that way. -/
theorem restrictpathx_reaches (relative : ∀ p ∈ paths, Relative p)
    (success : restrictpathx fuel dir paths = some (.ok view)) (q : List Str) :
    view.Reaches q ↔ dir.Reaches q ∧ Goes (paths.map namesof) q := by
  induction fuel generalizing dir view paths q with
  | zero => cases success
  | succ fuel ih =>
    obtain ⟨allowed, shadow, second⟩ := restrictpathx_ok.1 success
    cases q with
    | nil =>
      unfold Goes
      exact ⟨fun _ => ⟨rfl, trivial⟩, fun _ => rfl⟩
    | cons name q =>
      unfold Goes
      rw [reaches_cons, reaches_cons, mem_heads relative]
      have first := restrictdirx_child shadow name
      by_cases ends : subpathsof name paths = []
      · have stays := descend_other second (Or.inr ends)
        have none : tails name (paths.map namesof) = [] := (subpathsof_eq_nil relative).1 ends
        rw [stays, first, none]
        split
        · rename_i granted
          simp [granted]
        · rename_i other
          simp [other]
      have some_ : tails name (paths.map namesof) ≠ [] :=
        fun none => ends ((subpathsof_eq_nil relative).2 none)
      have granted : name ∈ firsts paths := by
        obtain ⟨r, member⟩ := exists_mem_of_ne_nil _ ends
        obtain ⟨_, p, here, split⟩ := mem_subpathsof.1 member
        exact mem_firsts.2 ⟨p, here, by rw [split]⟩
      obtain ⟨next, new, found, narrowed, left⟩ :=
        descend_entered (firsts_nodup paths) second granted ends
      rw [first, if_pos granted] at found
      have inside := ih (relative_subpathsof relative) narrowed q
      have behind : ∀ t, t ∈ tails name (paths.map namesof) ↔
          t ∈ (subpathsof name paths).map namesof := fun _ => mem_tails_namesof relative
      have same := goes_congr behind q
      rw [left, found]
      simp [inside, same, granted, some_]

theorem mem_firsts_congr (same : ∀ p, p ∈ paths ↔ p ∈ others) (name : Str) :
    name ∈ firsts paths ↔ name ∈ firsts others := by
  rw [mem_firsts, mem_firsts]
  exact exists_congr fun p => and_congr_left fun _ => same p

theorem mem_subpathsof_congr (same : ∀ p, p ∈ paths ↔ p ∈ others) (name r : Str) :
    r ∈ subpathsof name paths ↔ r ∈ subpathsof name others := by
  rw [mem_subpathsof, mem_subpathsof]
  exact and_congr_right fun _ => exists_congr fun q => and_congr_left fun _ => same q

/-- Whether it succeeds depends on which grants there are, not on their order or number. -/
theorem restrictpathx_congr (same : ∀ p, p ∈ paths ↔ p ∈ others)
    (success : restrictpathx fuel dir paths = some (.ok view)) :
    ∃ view', restrictpathx fuel dir others = some (.ok view') := by
  induction fuel generalizing dir view paths others with
  | zero => cases success
  | succ fuel ih =>
    have ⟨_, shadow, second⟩ := restrictpathx_ok.1 success
    have shadow' : ∃ allowed', restrictdirx dir (firsts others) = .ok allowed' := by
      cases dir with
      | file => cases shadow
      | dir _ => exact ⟨_, rfl⟩
    have ⟨allowed', shadow'⟩ := shadow'
    have second' : ∃ view',
        descend (restrictpathx fuel) others (firsts others) allowed' = some (.ok view') := by
      apply descend_succeeds (firsts_nodup others)
      intro name member goesOn
      have member' := (mem_firsts_congr same name).2 member
      have goesOn' : subpathsof name paths ≠ [] := by
        have ⟨r, here⟩ := exists_mem_of_ne_nil _ goesOn
        exact ne_nil_of_mem ((mem_subpathsof_congr same name r).2 here)
      have ⟨next, _, found, narrowed, _⟩ :=
        descend_entered (firsts_nodup paths) second member' goesOn'
      have ⟨new', narrowed'⟩ :=
        ih (mem_subpathsof_congr same name) narrowed
      rw [restrictdirx_child shadow, if_pos member'] at found
      refine ⟨next, new', ?_, narrowed'⟩
      rw [restrictdirx_child shadow', if_pos member]
      exact found
    have ⟨view', second'⟩ := second'
    exact ⟨view', restrictpathx_ok.2 ⟨allowed', shadow', second'⟩⟩

theorem shorter_subpathsof {r : Str} (member : r ∈ subpathsof name paths) :
    ∃ q ∈ paths, r.length < q.length := by
  have ⟨nonempty, q, here, split⟩ := mem_subpathsof.1 member
  refine ⟨q, here, ?_⟩
  rcases splitfirst_spec q with ⟨_, whole⟩ | ⟨first, rest, _, shape, whole⟩
  · cases split.symm.trans whole
    exact absurd rfl nonempty
  · cases split.symm.trans whole
    rw [shape, length_append, length_cons]
    omega

theorem restrictpathx_returns (dir : Node) (enough : ∀ p ∈ paths, p.length ≤ fuel) :
    restrictpathx (fuel + 1) dir paths ≠ none := by
  have step {fuel : Nat} {dir : Node} {paths : List Str} (inner : ∀ name next,
      subpathsof name paths ≠ [] → restrictpathx fuel next (subpathsof name paths) ≠ none) :
      restrictpathx (fuel + 1) dir paths ≠ none := by
    show (match restrictdirx dir (firsts paths) with
      | Except.error e => some (Except.error e)
      | .ok view => descend (restrictpathx fuel) paths (firsts paths) view) ≠ none
    cases restrictdirx dir (firsts paths) with
    | error _ => exact Option.some_ne_none _
    | ok _ => exact descend_returns fun name _ goesOn next => inner name next goesOn
  induction fuel generalizing dir paths with
  | zero =>
    apply step
    intro name _ goesOn
    have ⟨r, member⟩ := exists_mem_of_ne_nil _ goesOn
    have ⟨q, here, shorter⟩ := shorter_subpathsof member
    have bound := enough q here
    omega
  | succ fuel ih =>
    apply step
    intro _ _ _
    apply ih
    intro r member
    have ⟨q, here, shorter⟩ := shorter_subpathsof member
    have bound := enough q here
    omega

theorem restrictpathx_returns_nested :
    restrictpathx 4 (.dir fun _ => some .file) [str "a/b"] ≠ none :=
  restrictpathx_returns _ (by decide)

/-! ### What the grants say -/

def Narrows (dir : Node) (paths : List Str) (view : Node) : Prop :=
  ∃ fuel, restrictpathx fuel dir paths = some (.ok view)

/-- A path on the way to a grant, at it or below it. -/
def Covered (paths : List Str) (q : List Str) : Prop :=
  ∃ g ∈ paths.map namesof, OnPath q g

def Exact (dir : Node) (paths : List Str) (view : Node) : Prop :=
  ∀ q ≠ [], dir.Reaches q → (view.Reaches q ↔ Covered paths q)

/-- The same grants in another order succeed with the same result. -/
def Orderless (dir : Node) (paths : List Str) (view : Node) : Prop :=
  ∀ others, others.Perm paths →
    ∃ view', Narrows dir others view' ∧ ∀ q, view'.Reaches q ↔ view.Reaches q

/-- What exists below the grants is on the path of one of the longest of `longer`, those that
no other goes on from. -/
def Kept (dir : Node) (paths longer : List Str) : Prop :=
  ∀ g ∈ paths.map namesof, ∀ q, dir.Reaches q → g <+: q →
    ∃ m, Longest (longer.map namesof) m ∧ OnPath q m

theorem namesof_nonempty (relative : ∀ p ∈ paths, Relative p) :
    ∀ g ∈ paths.map namesof, g ≠ [] := by
  intro _ member
  obtain ⟨p, here, rfl⟩ := mem_map.1 member
  exact namesof_ne_nil (relative p here)

theorem narrows_reaches {dir view : Node} {paths : List Str}
    (relative : ∀ p ∈ paths, Relative p) (narrows : Narrows dir paths view) {q : List Str}
    (some_ : q ≠ []) :
    view.Reaches q ↔ dir.Reaches q ∧ ∃ m, Longest (paths.map namesof) m ∧ OnPath q m := by
  have ⟨_, success⟩ := narrows
  rw [restrictpathx_reaches relative success, goes_iff (namesof_nonempty relative) some_]

theorem narrows_orderless (relative : ∀ p ∈ paths, Relative p) (narrows : Narrows dir paths view) :
    Orderless dir paths view := by
  intro others rearranged
  have ⟨fuel, success⟩ := narrows
  have same : ∀ p, p ∈ paths ↔ p ∈ others := fun p => rearranged.mem_iff.symm
  have ⟨view', success'⟩ := restrictpathx_congr same success
  refine ⟨view', ⟨fuel, success'⟩, ?_⟩
  intro _
  have grants : ∀ g, g ∈ others.map namesof ↔ g ∈ paths.map namesof :=
    fun g => (rearranged.map namesof).mem_iff
  rw [restrictpathx_reaches (fun p member => relative p ((same p).2 member)) success',
    restrictpathx_reaches relative success, goes_congr grants]

theorem exact_iff (relative : ∀ p ∈ paths, Relative p) (narrows : Narrows dir paths view) :
    Exact dir paths view ↔ Kept dir paths paths := by
  constructor
  · intro exact_ g member q exists_ below
    have some_ : q ≠ [] := by
      rintro rfl
      exact namesof_nonempty relative g member (prefix_nil.1 below)
    have reached := (exact_ q some_ exists_).2 ⟨g, member, Or.inr below⟩
    exact ((narrows_reaches relative narrows some_).1 reached).2
  intro kept q some_ exists_
  rw [narrows_reaches relative narrows some_]
  constructor
  · rintro ⟨_, m, longest, onPath⟩
    exact ⟨m, longest.mem, onPath⟩
  rintro ⟨g, member, towards | below⟩
  · have ⟨m, longest, front⟩ := exists_longest member
    exact ⟨exists_, m, longest, Or.inl (towards.trans front)⟩
  · exact ⟨exists_, kept g member q exists_ below⟩

/-- Narrowing is exact, does not depend on the order of the grants, and leaves no less with
another grant, exactly if everything below the grants is on the path of a longest one, of
those and of those with the other. -/
theorem narrow_right_iff (dir view wider : Node) (paths : List Str) (extra : Str)
    (relative : ∀ p ∈ extra :: paths, Relative p) (narrows : Narrows dir paths view)
    (narrowsWider : Narrows dir (extra :: paths) wider) :
    (Exact dir paths view ∧ Orderless dir paths view ∧
        ∀ q, view.Reaches q → wider.Reaches q) ↔
      Kept dir paths paths ∧ Kept dir paths (extra :: paths) := by
  have relative' : ∀ p ∈ paths, Relative p :=
    (forall_mem_cons.1 relative).2
  have reaches {q : List Str} := @narrows_reaches dir view paths relative' narrows q
  have reachesWider {q : List Str} := @narrows_reaches dir wider _ relative narrowsWider q
  rw [exact_iff relative' narrows]
  constructor
  · rintro ⟨kept, _, grows⟩
    refine ⟨kept, ?_⟩
    intro g member q exists_ below
    have some_ : q ≠ [] := by
      rintro rfl
      exact namesof_nonempty relative' g member (prefix_nil.1 below)
    have reached := (reaches some_).2 ⟨exists_, kept g member q exists_ below⟩
    exact ((reachesWider some_).1 (grows q reached)).2
  rintro ⟨kept, keptWider⟩
  refine ⟨kept, narrows_orderless relative' narrows, ?_⟩
  intro q reached
  by_cases empty : q = []
  · rw [empty]
    rfl
  have ⟨exists_, m, longest, onPath⟩ := (reaches empty).1 reached
  rw [reachesWider empty]
  refine ⟨exists_, ?_⟩
  rcases onPath with towards | below
  · have member : m ∈ (extra :: paths).map namesof := mem_cons_of_mem _ longest.mem
    have ⟨m', longest', front⟩ := exists_longest member
    exact ⟨m', longest', Or.inl (towards.trans front)⟩
  · exact keptWider m longest.mem q exists_ below

/-- A directory with the directory `a`, which holds the files `b` and `c`. -/
def sampleTree : Node :=
  .dir fun name =>
    if name = str "a" then
      some (.dir fun name => if name = str "b" ∨ name = str "c" then some .file else none)
    else none

theorem narrow_right_apart : ∃ view wider,
    Narrows sampleTree [str "a/b"] view ∧ Narrows sampleTree [str "a/c", str "a/b"] wider ∧
      Exact sampleTree [str "a/b"] view ∧ Orderless sampleTree [str "a/b"] view ∧
        ∀ q, view.Reaches q → wider.Reaches q := by
  have relative : ∀ p ∈ [str "a/c", str "a/b"], Relative p := by
    unfold Relative Component
    decide
  have left : Longest ([str "a/b"].map namesof) [str "a", str "b"] :=
    ⟨by decide, by decide⟩
  have both : Longest ([str "a/c", str "a/b"].map namesof) [str "a", str "b"] :=
    ⟨by decide, by decide⟩
  have only : ∀ g ∈ [str "a/b"].map namesof, g = [str "a", str "b"] := by decide
  refine ⟨_, _, ⟨2, rfl⟩, ⟨2, rfl⟩, ?_⟩
  apply (narrow_right_iff _ _ _ _ (str "a/c") relative ⟨2, rfl⟩ ⟨2, rfl⟩).2
  constructor
  · intro g member q _ below
    rw [only g member] at below
    exact ⟨_, left, Or.inr below⟩
  · intro g member _ _ below
    rw [only g member] at below
    exact ⟨_, both, Or.inr below⟩

/-- With the grants `a` and `a/b`, the file `c` below `a` is gone. -/
theorem narrow_wrong_nested : ∃ view,
    Narrows sampleTree [str "a", str "a/b"] view ∧
      ¬ Exact sampleTree [str "a", str "a/b"] view := by
  refine ⟨_, ⟨2, rfl⟩, ?_⟩
  intro exact_
  have covered : Covered [str "a", str "a/b"] [str "a", str "c"] :=
    ⟨[str "a"], by decide, Or.inr (by decide)⟩
  have gone := (exact_ [str "a", str "c"] (by decide) rfl).2 covered
  cases gone

/-! ### Delegation -/

/-- A view narrowed by one list of grants after another, the last in front. -/
inductive Delegated (dir : Node) : List (List Str) → Node → Prop where
  | start : Delegated dir [] dir
  | narrow {lists : List (List Str)} {view next : Node} {paths : List Str} :
      Delegated dir lists view → (∀ p ∈ paths, Relative p) → Narrows view paths next →
      Delegated dir (paths :: lists) next

/-- Below any number of delegations there is what each of their lists leaves: what is on the path
of one of its longest grants. Their order does not matter, and none gives anything back. -/
theorem delegated_reaches {dir view : Node} {lists : List (List Str)} {q : List Str}
    (delegated : Delegated dir lists view) (below : q ≠ []) :
    view.Reaches q ↔
      dir.Reaches q ∧ ∀ paths ∈ lists, ∃ m, Longest (paths.map namesof) m ∧ OnPath q m := by
  induction delegated with
  | start => exact ⟨fun reached => ⟨reached, forall_mem_nil _⟩, And.left⟩
  | narrow _ relative narrows ih =>
    rw [narrows_reaches relative narrows below, ih, forall_mem_cons, and_assoc]
    exact and_congr_right fun _ => and_comm

theorem delegated_reaches_twice : ∃ view, Delegated sampleTree [[str "a/b"], [str "a"]] view ∧
    (view.Reaches [str "a", str "b"] ↔
      sampleTree.Reaches [str "a", str "b"] ∧ ∀ paths ∈ [[str "a/b"], [str "a"]],
        ∃ m, Longest (paths.map namesof) m ∧ OnPath [str "a", str "b"] m) := by
  have relative : ∀ p ∈ [str "a", str "a/b"], Relative p := by
    unfold Relative Component
    decide
  have ⟨first, second⟩ := forall_mem_cons.1 relative
  have once : Delegated sampleTree [[str "a"]] _ :=
    .narrow .start (forall_mem_singleton.2 first) ⟨2, rfl⟩
  have twice : Delegated sampleTree [[str "a/b"], [str "a"]] _ := .narrow once second ⟨2, rfl⟩
  exact ⟨_, twice, delegated_reaches twice (cons_ne_nil _ _)⟩

end Infernode.Veltro
