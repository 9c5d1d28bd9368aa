import Infernode.Text.Tokens
import Infernode.Text.Decimal
import Infernode.Order.Prefixes
import Mathlib.Data.List.Induction

/-!
Contract: path names and the places that they name.

Owns: the components of a path, the place that a path names when `.` and `..` are followed,
the proper names, and the parent of a path; how far some components lead up and down again, and
when that keeps to a subdirectory from wherever they start.
-/

namespace Infernode.Pathname

open Text List

/-- The components of a path, without the empty ones. -/
def segments (path : Str) : List Str := tokens (· == 47) path

def IsName (name : Str) : Prop :=
  name ≠ [] ∧ 47 ∉ name ∧ name ≠ str "." ∧ name ≠ str ".."

instance (name : Str) : Decidable (IsName name) := inferInstanceAs (Decidable (_ ∧ _))

def follow (here : List Str) (component : Str) : List Str :=
  if component = str "." then here
  else if component = str ".." then here.dropLast
  else here ++ [component]

def place (path : Str) : List Str := (segments path).foldl follow []

/-- The path `dir/c₁/…/cₙ`. -/
def below (dir : Str) (comps : List Str) : Str := dir ++ comps.flatMap (47 :: ·)

/-! ### Components -/

theorem segments_slash (front back : Str) :
    segments (front ++ 47 :: back) = segments front ++ segments back :=
  tokens_append_delim (by rfl) _ _

theorem segments_name {name : Str} (isName : IsName name) : segments name = [name] := by
  refine tokens_eq_singleton isName.1 fun c member => ?_
  have other : c ≠ 47 := fun same => isName.2.1 (same ▸ member)
  simpa using other

theorem below_concat (dir : Str) (comps : List Str) (name : Str) :
    below dir (comps ++ [name]) = below dir comps ++ 47 :: name := by
  simp [below]

/-! ### Places -/

variable {comps sub : List Str} {dir : Str}

theorem foldl_follow (names : ∀ c ∈ comps, IsName c) (here : List Str) :
    comps.foldl follow here = here ++ comps := by
  induction comps generalizing here with
  | nil => simp
  | cons c _ ih =>
    obtain ⟨-, -, notDot, notDotdot⟩ := names c mem_cons_self
    rw [foldl_cons, ih (forall_mem_cons.1 names).2,
      follow, if_neg notDot, if_neg notDotdot]
    simp

theorem place_slash (dir rest : Str) :
    place (dir ++ 47 :: rest) = (segments rest).foldl follow (place dir) := by
  rw [place, segments_slash, foldl_append]
  rfl

theorem place_slash_names {rest : Str} (names : ∀ c ∈ segments rest, IsName c) :
    place (dir ++ 47 :: rest) = place dir ++ segments rest := by
  rw [place_slash, foldl_follow names]

theorem place_slash_name {name : Str} (isName : IsName name) :
    place (dir ++ 47 :: name) = place dir ++ [name] := by
  have names : ∀ c ∈ segments name, IsName c := by
    rw [segments_name isName]
    simpa using isName
  rw [place_slash_names names, segments_name isName]

theorem place_below {dir : Str} {comps : List Str} (names : ∀ c ∈ comps, IsName c) :
    place (below dir comps) = place dir ++ comps := by
  induction comps using List.reverseRecOn with
  | nil => simp [below]
  | append_singleton _ last ih =>
    rw [below_concat, place_slash_name (names last (by simp)),
      ih fun c member => names c (mem_append_left _ member)]
    simp

/-! ### Up and down -/

/-- Where a path leads a process in the directory `cwd`. -/
def resolve (cwd : List Str) (path : Str) : List Str :=
  (segments path).foldl follow (if path.head? = some 47 then [] else cwd)

/-- A component more, for components that lead so many levels up and then down some names. -/
def lead (s : Nat × List Str) (component : Str) : Nat × List Str :=
  if component = str "." then s
  else if component = str ".." then
    if s.2 = [] then (s.1 + 1, []) else (s.1, s.2.dropLast)
  else (s.1, s.2 ++ [component])

/-- How many levels some components lead up, and by what names down from there: a `..` undoes
the name before it. -/
def leads (comps : List Str) : Nat × List Str := comps.foldl lead (0, [])

/-- The components lead below `sub`. -/
structure Lands (sub comps : List Str) : Prop where
  level : (leads comps).1 = 0
  front : sub <+: (leads comps).2
  beyond : (leads comps).2 ≠ sub

/-- The components lead up only, or to somewhere on the way to `sub` or below it. -/
def Passes (sub comps : List Str) : Prop :=
  (leads comps).2 = [] ∨ (leads comps).1 = 0 ∧ Prefixes.OnPath (leads comps).2 sub

theorem follow_lead (base : List Str) (s : Nat × List Str) (c : Str) :
    follow (base.take (base.length - s.1) ++ s.2) c =
      base.take (base.length - (lead s c).1) ++ (lead s c).2 := by
  unfold follow lead
  split
  · rfl
  split
  · split
    · rename_i flat
      rw [flat, append_nil, append_nil, dropLast_eq_take, take_take,
        length_take]
      congr 1
      omega
    · rename_i down
      rw [dropLast_append_of_ne_nil down]
  · rw [append_assoc]

theorem foldl_follow_leads (base comps : List Str) :
    comps.foldl follow base = base.take (base.length - (leads comps).1) ++ (leads comps).2 := by
  have steps : ∀ s : Nat × List Str,
      comps.foldl follow (base.take (base.length - s.1) ++ s.2) =
        base.take (base.length - (comps.foldl lead s).1) ++ (comps.foldl lead s).2 := by
    induction comps with
    | nil => exact fun s => rfl
    | cons c _ ih =>
      intro s
      rw [foldl_cons, foldl_cons, follow_lead]
      exact ih (lead s c)
  have whole := steps (0, [])
  rwa [Nat.sub_zero, take_length, append_nil] at whole

theorem resolve_slash (nonempty : dir ≠ []) (cwd : List Str) (rest : Str) :
    resolve cwd (dir ++ 47 :: rest) = (segments rest).foldl follow (resolve cwd dir) := by
  unfold resolve
  rw [segments_slash, foldl_append, head?_append_of_ne_nil _ nonempty]

theorem resolve_below (nonempty : dir ≠ []) (cwd : List Str) (comps : List Str) :
    resolve cwd (below dir comps) = (comps.flatMap segments).foldl follow (resolve cwd dir) := by
  induction comps using List.reverseRecOn with
  | nil => rw [below, flatMap_nil, append_nil]; rfl
  | append_singleton front _ ih =>
    have there : below dir front ≠ [] := fun empty => nonempty (append_eq_nil_iff.1 empty).1
    rw [below_concat, resolve_slash there, ih, flatMap_append,
      foldl_append, flatMap_singleton]

/-- From every directory, components that pass keep to the way to its subdirectory. -/
theorem onPath_of_passes (passes : Passes sub comps) (base : List Str) :
    Prefixes.OnPath (comps.foldl follow base) (base ++ sub) := by
  rw [foldl_follow_leads]
  rcases passes with flat | ⟨level, front | behind⟩
  · rw [flat, append_nil]
    exact Or.inl ((List.take_prefix _ _).trans (prefix_append _ _))
  · rw [level, Nat.sub_zero, take_length]
    exact Or.inl (prefix_append_right_inj _ |>.2 front)
  · rw [level, Nat.sub_zero, take_length]
    exact Or.inr (prefix_append_right_inj _ |>.2 behind)

theorem below_of_lands (lands : Lands sub comps) (base : List Str) :
    base ++ sub <+: comps.foldl follow base ∧ comps.foldl follow base ≠ base ++ sub := by
  rw [foldl_follow_leads, lands.level, Nat.sub_zero, take_length]
  refine ⟨prefix_append_right_inj _ |>.2 lands.front, ?_⟩
  intro same
  exact lands.beyond (append_cancel_left same)

def unlike (names : List Str) : Str := if names.head? = some (str "a") then str "b" else str "a"

theorem unlike_ne (names : List Str) : names.head? ≠ some (unlike names) := by
  unfold unlike
  split
  · rename_i same
    rw [same]
    decide
  · assumption

theorem unlike_isName (names : List Str) : IsName (unlike names) := by
  unfold unlike
  split <;> decide

/-- A directory deep enough below the root, whose names are all unlike those led down by. -/
def elsewhere (comps : List Str) : List Str :=
  List.replicate ((leads comps).1 + 1) (unlike (leads comps).2)

theorem foldl_follow_elsewhere (comps : List Str) :
    comps.foldl follow (elsewhere comps) = unlike (leads comps).2 :: (leads comps).2 := by
  rw [foldl_follow_leads, elsewhere, length_replicate, take_replicate]
  have one : min ((leads comps).1 + 1 - (leads comps).1) ((leads comps).1 + 1) = 1 := by omega
  rw [one]
  rfl

theorem elsewhere_eq (comps sub : List Str) :
    elsewhere comps ++ sub = unlike (leads comps).2 ::
      (List.replicate (leads comps).1 (unlike (leads comps).2) ++ sub) := rfl

theorem elsewhere_isName (comps : List Str) : ∀ c ∈ elsewhere comps, IsName c := by
  intro _ member
  rw [eq_of_mem_replicate member]
  exact unlike_isName _

/-- What is led down by is no beginning of the rest of that directory, nor begins with it. -/
theorem not_onPath_replicate {names : List Str} (nonempty : names ≠ []) {k : Nat}
    (positive : 0 < k) :
    ¬Prefixes.OnPath names (List.replicate k (unlike names) ++ sub) := by
  obtain ⟨_, rfl⟩ := Nat.exists_eq_add_of_lt positive
  obtain ⟨first, rest, rfl⟩ := exists_cons_of_ne_nil nonempty
  have other := unlike_ne (first :: rest)
  rw [Nat.zero_add, replicate_succ, cons_append]
  rintro (front | front)
  · exact other (congrArg some (cons_prefix_cons.1 front).1)
  · exact other (congrArg some (cons_prefix_cons.1 front).1.symm)

/-- Components that keep to the way to the subdirectory from there pass. -/
theorem passes_of_onPath
    (onPath : Prefixes.OnPath (comps.foldl follow (elsewhere comps)) (elsewhere comps ++ sub)) :
    Passes sub comps := by
  by_contra fails
  have ⟨down, other⟩ := not_or.1 fails
  rw [foldl_follow_elsewhere, elsewhere_eq] at onPath
  have inner : Prefixes.OnPath (leads comps).2
      (List.replicate (leads comps).1 (unlike (leads comps).2) ++ sub) :=
    onPath.imp (fun front => (cons_prefix_cons.1 front).2)
      (fun front => (cons_prefix_cons.1 front).2)
  rcases Nat.eq_zero_or_pos (leads comps).1 with level | up
  · rw [level] at inner
    exact other ⟨level, inner⟩
  · exact not_onPath_replicate down up inner

theorem lands_of_below (inside : elsewhere comps ++ sub <+: comps.foldl follow (elsewhere comps))
    (other : comps.foldl follow (elsewhere comps) ≠ elsewhere comps ++ sub) : Lands sub comps := by
  rw [foldl_follow_elsewhere, elsewhere_eq] at inside other
  have inner := (cons_prefix_cons.1 inside).2
  have level : (leads comps).1 = 0 := by
    by_contra up
    have positive := Nat.pos_of_ne_zero up
    have down : (leads comps).2 ≠ [] := by
      intro flat
      have short := inner.length_le
      rw [flat, length_append, length_replicate, length_nil] at short
      omega
    exact not_onPath_replicate down positive (Or.inr inner)
  rw [level] at inner other
  exact ⟨level, inner, fun same => other (by rw [same]; rfl)⟩

end Infernode.Pathname
