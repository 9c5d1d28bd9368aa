import Infernode.Veltro.Tools9p

/-!
What a provisioned child may do, against what its parent may do.

Owns: the start of a child from the arguments that a request gives it, the condition
on a request that keeps nested read-only grants read-only, and the theorem about
whole lines of descent.
-/

namespace Infernode.Tools9p

open Text Strings Veltro Narrowest List

/-! ### The narrowest grant decides -/

def MayWrite (boundpaths : List BoundPath) (path : Str) : Prop :=
  Writable (fun grant want => pathwithin grant want = true) BoundPath.path (fun b => b.perm = .rw)
    boundpaths path

private def Best (path : Str) (seen : List BoundPath) (found : Str × Perm) : Prop :=
  (found = ([], .ro) ∧ ∀ b ∈ seen, ¬pathwithin b.path path = true) ∨
    ∃ g, IsNarrowest (fun grant want => pathwithin grant want = true) BoundPath.path seen path g ∧
      g.path = found.1 ∧ (found.2 = .rw ↔ ∀ other ∈ seen, other.path = g.path → other.perm = .rw)

variable {path name args : Str} {b : BoundPath} {st child : State} {toollist : List Str}

private theorem best_narrower {seen : List BoundPath} {found : Str × Perm}
    (best : Best path seen found) (nonempty : b.path ≠ []) :
    Best path (seen ++ [b]) (narrower path found b) := by
  have cases : ∀ {other : BoundPath}, other ∈ seen ++ [b] → other ∈ seen ∨ other = b := by
    intro other member
    simpa using member
  by_cases covers : pathwithin b.path path = true
  · rcases best with ⟨rfl, none⟩ | ⟨g, ⟨member, above, narrowest⟩, same, ties⟩
    · have longer : 0 < b.path.length := length_pos_of_ne_nil nonempty
      have taken : narrower path ([], .ro) b = (b.path, b.perm) := if_pos ⟨covers, Or.inl longer⟩
      rw [taken]
      refine Or.inr ⟨b, ⟨by simp, covers, ?_⟩, rfl, ?_⟩
      · intro other inSeen otherCovers
        rcases cases inSeen with old | rfl
        · exact absurd otherCovers (none other old)
        · exact pathwithin_refl _
      constructor
      · intro writable other inSeen samePath
        rcases cases inSeen with old | rfl
        · exact absurd (samePath ▸ covers) (none other old)
        · exact writable
      · exact fun all => all b (by simp) rfl
    · by_cases longer : g.path.length < b.path.length
      · have taken : narrower path found b = (b.path, b.perm) :=
          if_pos ⟨covers, Or.inl (same ▸ longer)⟩
        have inner : pathwithin g.path b.path = true :=
          pathwithin_of_length_le above covers (Nat.le_of_lt longer)
        rw [taken]
        refine Or.inr ⟨b, ⟨by simp, covers, ?_⟩, rfl, ?_⟩
        · intro other inSeen otherCovers
          rcases cases inSeen with old | rfl
          · exact pathwithin_trans (narrowest other old otherCovers) inner
          · exact pathwithin_refl _
        constructor
        · intro writable other inSeen samePath
          rcases cases inSeen with old | rfl
          · have outer := narrowest other old (samePath ▸ covers)
            have sizes := length_le_of_pathwithin outer
            rw [samePath] at sizes
            omega
          · exact writable
        · exact fun all => all b (by simp) rfl
      · have outer : pathwithin b.path g.path = true :=
          pathwithin_of_length_le covers above (Nat.le_of_not_lt longer)
        have still : IsNarrowest (fun grant want => pathwithin grant want = true) BoundPath.path
            (seen ++ [b]) path g := by
          refine ⟨mem_append_left _ member, above, ?_⟩
          intro other inSeen otherCovers
          rcases cases inSeen with old | rfl
          · exact narrowest other old otherCovers
          · exact outer
        by_cases tie : b.path.length = g.path.length ∧ b.perm = .ro
        · have taken : narrower path found b = (b.path, b.perm) :=
            if_pos ⟨covers, Or.inr (same ▸ tie)⟩
          have samePath : g.path = b.path := forest_pathwithin.antisymm
            (pathwithin_of_length_le above covers (Nat.le_of_eq tie.1.symm)) outer
          rw [taken]
          refine Or.inr ⟨g, still, samePath, ?_⟩
          constructor
          · intro writable
            exact absurd (tie.2.symm.trans writable) (by decide)
          · exact fun all => all b (by simp) samePath.symm
        · have kept : narrower path found b = found := by
            refine if_neg ?_
            rintro ⟨_, deeper | again⟩
            · exact longer (same ▸ deeper)
            · exact tie (same ▸ again)
          rw [kept]
          refine Or.inr ⟨g, still, same, ties.trans ?_⟩
          constructor
          · intro all other inSeen samePath
            rcases cases inSeen with old | rfl
            · exact all other old samePath
            · cases perm : other.perm with
              | rw => rfl
              | ro => exact absurd ⟨congrArg List.length samePath, perm⟩ tie
          · exact fun all other old => all other (mem_append_left _ old)
  · have kept : narrower path found b = found := if_neg fun both => covers both.1
    rw [kept]
    rcases best with ⟨rfl, none⟩ | ⟨g, ⟨member, above, narrowest⟩, same, ties⟩
    · refine Or.inl ⟨rfl, ?_⟩
      intro other inSeen
      rcases cases inSeen with old | rfl
      · exact none other old
      · exact covers
    refine Or.inr ⟨g, ⟨mem_append_left _ member, above, ?_⟩, same, ties.trans ?_⟩
    · intro other inSeen otherCovers
      rcases cases inSeen with old | rfl
      · exact narrowest other old otherCovers
      · exact absurd otherCovers covers
    constructor
    · intro all other inSeen samePath
      rcases cases inSeen with old | rfl
      · exact all other old samePath
      · exact absurd (samePath ▸ above) covers
    · exact fun all other old => all other (mem_append_left _ old)

private theorem best_foldl (path : Str) (rest : List BoundPath) : ∀ (seen : List BoundPath)
    (found : Str × Perm), (∀ b ∈ rest, b.path ≠ []) → Best path seen found →
      Best path (seen ++ rest) (rest.foldl (narrower path) found) := by
  induction rest with
  | nil =>
    intro seen found _ best
    simpa using best
  | cons b _ ih =>
    intro seen found nonempty best
    have step := ih (seen ++ [b]) (narrower path found b)
      (forall_mem_cons.1 nonempty).2
      (best_narrower best (nonempty b mem_cons_self))
    rw [append_assoc, singleton_append] at step
    exact step

/-- `pathperm` finds the narrowest grant. -/
theorem pathperm_eq_rw_iff {boundpaths : List BoundPath} (nonempty : ∀ b ∈ boundpaths, b.path ≠ [])
    (ordinary : path ≠ scratch) :
    pathperm boundpaths path = .grant .rw ↔ MayWrite boundpaths path := by
  have best := best_foldl path boundpaths [] ([], .ro) nonempty (Or.inl ⟨rfl, by simp⟩)
  rw [nil_append] at best
  unfold pathperm
  rw [if_neg ordinary, Effective.grant.injEq]
  rcases best with ⟨found, none⟩ | ⟨g, narrow, _, ties⟩
  · rw [found]
    constructor
    · intro writable
      cases writable
    · intro writable
      have ⟨b, member, covers, _⟩ := writable.exists_covers
      exact absurd covers (none b member)
  · rw [ties]
    constructor
    · exact fun all => ⟨g, narrow, all⟩
    rintro ⟨g', narrow', all⟩ other member samePath
    refine all other member (samePath.trans (forest_pathwithin.antisymm ?_ ?_))
    · exact narrow'.2.2 g narrow.1 narrow.2.1
    · exact narrow.2.2 g' narrow'.1 narrow'.2.1

/-! ### What a request asks for -/

/-- The grants that a request names, in order. -/
def requested (args : Str) : List BoundPath :=
  match tokens (· == 32) args with
  | [] => []
  | _ :: toks =>
    match attrs toks ⟨none, none⟩ with
    | .error _ => []
    | .ok found =>
      (tokens (· == 44) (found.paths.getD [])).map fun raw =>
        ⟨(splitpathperm raw).1, (splitpathperm raw).2⟩

/-- The grant that the child gets: read-only where the path is read-only here. -/
def attenuate (st : State) (b : BoundPath) : BoundPath :=
  ⟨b.path, if pathperm st.boundpaths b.path = .grant .ro then .ro else b.perm⟩

theorem requestedtools_ok (ttoks : List Str) : ∀ {acc toollist : List Str},
    requestedtools st ttoks acc = .ok toollist →
      ∀ name ∈ toollist, name ∈ acc ∨
        (validtooltoken name = true ∧ name ∈ childbudget st ∧ toolavailable st name = true) := by
  induction ttoks with
  | nil =>
    intro acc toollist done name member
    cases done
    exact Or.inl member
  | cons _ _ ih =>
    intro _ _ done name member
    unfold requestedtools at done
    split_ifs at done with invalid denied
    simp only [Bool.not_eq_true', Bool.not_eq_false, Bool.or_eq_true, not_or] at invalid denied
    rcases ih done name member with found | proper
    · rcases mem_cons.1 found with rfl | old
      · exact Or.inr ⟨invalid, contains_iff_mem.1 denied.1, denied.2⟩
      · exact Or.inl old
    · exact Or.inr proper

theorem requestedpaths_ok (ptoks : List Str) : ∀ {acc pathcaps : List BoundPath},
    requestedpaths st ptoks acc = .ok pathcaps →
      pathcaps.reverse = acc.reverse ++ (ptoks.map fun raw =>
        (⟨(splitpathperm raw).1, (splitpathperm raw).2⟩ : BoundPath)).map (attenuate st) ∧
      ∀ raw ∈ ptoks, validatepath (splitpathperm raw).1 = none ∧
        childpathallowed st (splitpathperm raw).1 = true := by
  induction ptoks with
  | nil =>
    intro acc pathcaps done
    cases done
    simp
  | cons raw ptoks ih =>
    intro acc pathcaps done
    unfold requestedpaths at done
    split_ifs at done with empty
    simp only at done
    split at done
    · cases done
    rename_i valid
    by_cases denied : (!childpathallowed st (splitpathperm raw).1) = true
    · rw [if_pos denied] at done
      cases done
    rw [if_neg denied] at done
    simp only [Bool.not_eq_true', Bool.not_eq_false] at denied
    have ⟨shape, proper⟩ := ih done
    constructor
    · rw [shape, reverse_cons, append_assoc, singleton_append, map_cons,
        map_cons]
      rfl
    intro other member
    rcases mem_cons.1 member with rfl | later
    · exact ⟨valid, denied⟩
    · exact proper other later

theorem mem_withbasics (member : name ∈ withbasics st toollist) :
    name ∈ toollist ∨ (name ∈ basics ∧ findtool st name = true) := by
  unfold withbasics at member
  have general : ∀ (added : List Str) (acc : List Str), name ∈ added.foldl
      (fun toollist name =>
        if findtool st name && !toollist.contains name then name :: toollist else toollist) acc →
      name ∈ acc ∨ (name ∈ added ∧ findtool st name = true) := by
    intro added
    induction added with
    | nil => exact fun acc member => Or.inl member
    | cons _ _ ih =>
      intro _ member
      rcases ih _ member with found | ⟨later, active⟩
      · beta_reduce at found
        split_ifs at found with adds
        · rcases mem_cons.1 found with rfl | old
          · exact Or.inr ⟨mem_cons_self, (Bool.and_eq_true _ _ ▸ adds).1⟩
          · exact Or.inl old
        · exact Or.inl found
      · exact Or.inr ⟨mem_cons_of_mem _ later, active⟩
  exact general basics toollist member

variable {id : Int} {pathcaps : List BoundPath}

theorem provisionparse_ok {mpt : Str} {rargs : List Str}
    (accepted : provisionparse st args = .ok (id, mpt, rargs)) :
    ∃ toollist pathcaps,
      rargs = childargs st id (withbasics st toollist) pathcaps ∧
      (∀ name ∈ toollist, validtooltoken name = true ∧ name ∈ childbudget st ∧
        toolavailable st name = true) ∧
      pathcaps.reverse = (requested args).map (attenuate st) ∧
      ∀ b ∈ requested args, validatepath b.path = none ∧ childpathallowed st b.path = true := by
  unfold provisionparse at accepted
  unfold requested
  cases words : tokens (· == 32) args with
  | nil =>
    rw [words] at accepted
    cases accepted
  | cons idstr toks =>
    rw [words] at accepted
    simp only at accepted ⊢
    cases number : parseactivityid idstr with
    | error _ =>
      rw [number] at accepted
      cases accepted
    | ok _ =>
      rw [number] at accepted
      simp only at accepted
      cases read : attrs toks ⟨none, none⟩ with
      | error _ =>
        rw [read] at accepted
        cases accepted
      | ok found =>
        rw [read] at accepted
        cases names : requestedtools st (tokens (· == 44) (found.tools.getD [])) [] with
        | error _ =>
          simp only [bind, Except.bind, names] at accepted
          cases accepted
        | ok toollist =>
          cases grants : requestedpaths st (tokens (· == 44) (found.paths.getD [])) [] with
          | error _ =>
            simp only [bind, Except.bind, names, grants] at accepted
            cases accepted
          | ok pathcaps =>
            simp only [bind, Except.bind, names, grants, pure, Except.pure, Except.ok.injEq,
              Prod.mk.injEq] at accepted
            obtain ⟨rfl, _, rfl⟩ := accepted
            have ⟨shape, proper⟩ := requestedpaths_ok _ grants
            refine ⟨toollist, pathcaps, rfl, ?_, by simpa using shape, ?_⟩
            · intro name member
              rcases requestedtools_ok _ names name member with none | proper
              · exact absurd none not_mem_nil
              · exact proper
            · intro _ member
              obtain ⟨raw, inTokens, rfl⟩ := mem_map.1 member
              exact proper raw inTokens

/-! ### The start of a child -/

theorem splitpathperm_append (nonempty : path ≠ []) (perm : Perm) :
    splitpathperm (path ++ 58 :: perm.text) = (path, perm) := by
  have long : 0 < path.length := length_pos_of_ne_nil nonempty
  have size : (path ++ 58 :: perm.text).length - 3 = path.length := by
    cases perm <;> simp [Perm.text, str]
  unfold splitpathperm
  simp only [size, take_left, drop_left]
  cases perm with
  | ro => rw [if_pos ⟨by simp [Perm.text, str]; omega, by decide⟩]
  | rw =>
    rw [if_neg (fun both => absurd both.2 (by decide)),
      if_pos ⟨by simp [Perm.text, str]; omega, by decide⟩]

def stage (staged : List BoundPath) (b : BoundPath) : List BoundPath :=
  if b.path = scratch ∨ findboundpath staged b.path ≠ none then staged else b :: staged

def Binds (boundpaths : List BoundPath) (st st' : State) : Prop :=
  st'.boundpaths = boundpaths ∧ st'.extpaths = st.extpaths ∧ st'.budget = st.budget

theorem nonempty_of_valid (valid : validatepath path = none) : path ≠ [] := by
  rintro rfl
  cases valid

theorem pathoption_ok (st : State) (valid : validatepath b.path = none)
    (allowed : bindpathallowed b.path = true) :
    ∃ st', pathoption st (b.path ++ 58 :: b.perm.text) = .ok st' ∧
      Binds (stage st.boundpaths b) st st' := by
  have cut := splitpathperm_append (nonempty_of_valid valid) b.perm
  have long : 0 < b.path.length := length_pos_of_ne_nil (nonempty_of_valid valid)
  have size : (b.path ++ 58 :: b.perm.text).length - 3 = b.path.length := by
    cases b.perm <;> simp [Perm.text, str]
  have explicit : 3 < (b.path ++ 58 :: b.perm.text).length ∧
      (58 :: b.perm.text = str ":ro" ∨ 58 :: b.perm.text = str ":rw") := by
    constructor
    · cases b.perm <;> simp [Perm.text, str] <;> omega
    · cases b.perm <;> decide
  unfold pathoption
  simp only [cut, size, drop_left]
  rw [dif_pos valid, dif_pos allowed]
  by_cases special : b.path = scratch
  · rw [dif_neg (not_not_intro special)]
    exact ⟨st, rfl, (if_pos (Or.inl special)).symm, rfl, rfl⟩
  rw [dif_pos special, if_pos explicit]
  by_cases bound : findboundpath st.boundpaths b.path = none
  · rw [if_pos bound]
    refine ⟨_, rfl, ?_, rfl, rfl⟩
    exact (if_neg (not_or.2 ⟨special, not_not_intro bound⟩)).symm
  · rw [if_neg bound]
    exact ⟨st, rfl, (if_pos (Or.inr bound)).symm, rfl, rfl⟩

theorem getopts_letter {c : Nat} (letter : c ≠ 45 ∧ c ≠ 0) {args : List Str} {st' : State}
    {rest : Arg} (done : option c ⟨[], args⟩ st = .ok (st', rest)) :
    getopts ⟨[], [45, c] :: args⟩ st = getopts rest st' := by
  rw [getopts]
  have read := Arg.opt_letter letter.1 args
  split
  · rename_i ended
    rw [read] at ended
    exact absurd ended letter.2
  split
  · rename_i raised failed
    rw [read, done] at failed
    cases failed
  rename_i next after carried
  rw [read, done] at carried
  cases carried
  rfl

/-- The options end at an argument list that begins with no dash. -/
theorem getopts_words (words : List Str) (plain : ∀ word ∈ words.head?, word.head? ≠ some 45)
    (st : State) : getopts ⟨[], words⟩ st = .ok (st, words) := by
  have ends : Arg.opt ⟨[], words⟩ = (0, ⟨[], words⟩) := by
    cases words with
    | nil => rfl
    | cons word others => exact Arg.opt_word (plain word rfl) others
  rw [getopts, dif_pos (by rw [ends]), ends]

theorem option_path (st : State) (parg : Str) (rest : List Str) :
    option 112 ⟨[], parg :: rest⟩ st = (pathoption st parg).map (·, ⟨[], rest⟩) := rfl

theorem getopts_paths (words : List Str) (grants : List BoundPath) : ∀ st : State,
    (∀ b ∈ grants, validatepath b.path = none ∧ bindpathallowed b.path = true) →
      ∃ st', getopts ⟨[], grants.flatMap pathargs ++ words⟩ st = getopts ⟨[], words⟩ st' ∧
        Binds (grants.foldl stage st.boundpaths) st st' := by
  induction grants with
  | nil => exact fun st _ => ⟨st, rfl, rfl, rfl, rfl⟩
  | cons b _ ih =>
    intro st proper
    have ⟨valid, allowed⟩ := proper b mem_cons_self
    have ⟨next, bound, boundpaths, extpaths, budget⟩ := pathoption_ok st valid allowed
    have ⟨st', later, staged, sameExt, sameBudget⟩ := ih next
      (forall_mem_cons.1 proper).2
    refine ⟨st', ?_, ?_, sameExt.trans extpaths, sameBudget.trans budget⟩
    · rw [← later]
      refine getopts_letter (c := 112) (by decide) ?_
      exact (option_path st _ _).trans (by rw [bound]; rfl)
    · rw [staged, boundpaths, foldl_cons]

/-- The options of a child before its paths. -/
theorem getopts_front (st : State) (id : Int) (rest : List Str) :
    ∃ st', getopts (Arg.init (str "tools9p" :: (if st.verbose then [str "-v"] else []) ++
        [str "-N", str "-r", str "child", str "-a", decimal id, str "-m", str "/tool." ++ decimal id] ++
          rest)) State.loaded = getopts ⟨[], rest⟩ st' ∧ Binds [] State.loaded st' := by
  have front : ∀ st, ∃ st', getopts ⟨[], [str "-N", str "-r", str "child", str "-a", decimal id,
      str "-m", str "/tool." ++ decimal id] ++ rest⟩ st = getopts ⟨[], rest⟩ st' ∧
        Binds st.boundpaths st st' := by
    intro st
    refine ⟨{ st with
      agentnodevs := true
      agentrole := .child
      activityid := toint (decimal id)
      mountpt := str "/tool." ++ decimal id }, ?_, rfl, rfl, rfl⟩
    refine (getopts_letter (by decide) rfl).trans ?_
    refine (getopts_letter (by decide) rfl).trans ?_
    refine (getopts_letter (by decide) rfl).trans ?_
    exact getopts_letter (by decide) rfl
  cases st.verbose with
  | false => exact front State.loaded
  | true =>
    have ⟨st', read, binds⟩ := front { State.loaded with verbose := true }
    refine ⟨st', ?_, binds⟩
    rw [← read]
    exact getopts_letter (by decide) rfl

/-- Starting a child on its arguments comes down to its tools. -/
theorem init_childargs (st : State) (id : Int) (plain : ∀ name ∈ toollist, name.head? ≠ some 45)
    (proper : ∀ b ∈ pathcaps.reverse, validatepath b.path = none ∧ bindpathallowed b.path = true) :
    ∃ read, getopts (Arg.init (childargs st id toollist pathcaps)) State.loaded =
        .ok (read, toollist.reverse) ∧
      Binds (pathcaps.reverse.foldl stage []) State.loaded read := by
  have ⟨front, readFront, frontBound, frontExt, frontBudget⟩ := getopts_front st id
    (pathcaps.reverse.flatMap pathargs ++ toollist.reverse)
  have ⟨read, readPaths, bound, ext, budget⟩ :=
    getopts_paths toollist.reverse pathcaps.reverse front proper
  have readWords := getopts_words toollist.reverse (fun word isHead =>
    plain word (mem_reverse.1 (mem_of_mem_head? isHead))) read
  refine ⟨read, ?_, by rw [bound, frontBound], ext.trans frontExt, budget.trans frontBudget⟩
  unfold childargs
  rw [append_assoc, readFront, readPaths, readWords]

theorem init_ok (plain : ∀ name ∈ toollist, name.head? ≠ some 45)
    (proper : ∀ b ∈ pathcaps.reverse, validatepath b.path = none ∧ bindpathallowed b.path = true)
    (started : init (childargs st id toollist pathcaps) = .ok child) :
    child.boundpaths = pathcaps.reverse.foldl stage [] ∧ child.extpaths = [] ∧
      child.budget = [] ∧ child.tools = inittools toollist.reverse [] := by
  have ⟨_, options, bound, ext, budget⟩ := init_childargs st id plain proper
  unfold init at started
  rw [options] at started
  simp only at started
  split_ifs at started
  cases started
  exact ⟨bound, ext, budget, rfl⟩

theorem exists_init (st : State) (id : Int) (toollist : List Str) (pathcaps : List BoundPath)
    (plain : ∀ name ∈ toollist, name.head? ≠ some 45)
    (proper : ∀ b ∈ pathcaps.reverse, validatepath b.path = none ∧ bindpathallowed b.path = true)
    (known : inittools toollist.reverse [] ≠ []) :
    ∃ child, init (childargs st id toollist pathcaps) = .ok child := by
  have ⟨_, options, _⟩ := init_childargs st id plain proper
  have named : toollist.reverse ≠ [] := by
    intro none
    rw [none] at known
    exact known rfl
  unfold init
  rw [options]
  simp only
  rw [if_neg named, if_neg known]
  exact ⟨_, rfl⟩

/-! ### One request -/

theorem head?_of_toolpath (known : toolpath name ≠ none) : name.head? ≠ some 45 := by
  have table : ∀ tool ∈ TOOL_PATHS, tool.1.head? ≠ some 45 := by decide +kernel
  intro dash
  apply known
  unfold toolpath
  rw [Option.map_eq_none_iff, find?_eq_none]
  intro tool member same
  apply table tool member
  rw [beq_iff_eq.1 same]
  cases name with
  | nil => cases dash
  | cons _ _ =>
    cases dash
    rfl

theorem toolpath_of_toolavailable (available : toolavailable st name = true) :
    toolpath name ≠ none := by
  have known := st.known (tolower name) (by
    simpa [toolavailable, findtool, findalltool] using available)
  unfold toolpath at known ⊢
  rwa [tolower_tolower] at known

theorem tolower_of_validtooltoken (valid : validtooltoken name = true) : tolower name = name := by
  unfold validtooltoken at valid
  simp only [Bool.and_eq_true, all_eq_true, Bool.or_eq_true, decide_eq_true_eq,
    beq_iff_eq] at valid
  unfold tolower
  conv_rhs => rw [← map_id name]
  refine map_congr_left fun c member => ?_
  have char := valid.2 c member
  rw [if_neg (by omega), id]

theorem tolower_of_mem_basics : ∀ name ∈ basics, tolower name = name := by decide +kernel

theorem mem_inittools (args : List Str) : ∀ {active : List Str} {name : Str},
    name ∈ inittools args active → name ∈ active ∨ ∃ arg ∈ args, name = tolower arg := by
  induction args with
  | nil => exact fun member => Or.inl member
  | cons arg _ ih =>
    intro _ _ member
    unfold inittools at member
    simp only at member
    split_ifs at member
    · rcases ih member with old | ⟨other, inArgs, same⟩
      · exact Or.inl old
      · exact Or.inr ⟨other, mem_cons_of_mem _ inArgs, same⟩
    rcases ih member with found | ⟨other, inArgs, same⟩
    · rcases mem_append.1 found with old | new
      · exact Or.inl old
      · exact Or.inr ⟨arg, mem_cons_self, mem_singleton.1 new⟩
    · exact Or.inr ⟨other, mem_cons_of_mem _ inArgs, same⟩

theorem mem_foldl_stage (grants : List BoundPath) : ∀ staged : List BoundPath,
    b ∈ grants.foldl stage staged ↔
      b ∈ staged ∨ (b.path ≠ scratch ∧ findboundpath staged b.path = none ∧
        findboundpath grants b.path = some b) := by
  induction grants with
  | nil => simp [findboundpath]
  | cons g grants ih =>
    intro staged
    rw [foldl_cons, ih]
    have find : ∀ rest : List BoundPath, findboundpath (g :: rest) b.path =
        if g.path = b.path then some g else findboundpath rest b.path := by
      intro _
      unfold findboundpath
      by_cases same : g.path = b.path
      · rw [if_pos same, find?_cons_of_pos (by simpa using same)]
      · rw [if_neg same, find?_cons_of_neg (by simpa using same)]
    rw [find grants]
    unfold stage
    by_cases skip : g.path = scratch ∨ findboundpath staged g.path ≠ none
    · rw [if_pos skip]
      by_cases same : g.path = b.path
      · rw [same] at skip
        rw [if_pos same]
        constructor <;> rintro (old | ⟨ordinary, unbound, _⟩)
        · exact Or.inl old
        · exact absurd (skip.resolve_left ordinary) (not_not_intro unbound)
        · exact Or.inl old
        · exact absurd (skip.resolve_left ordinary) (not_not_intro unbound)
      · rw [if_neg same]
    · rw [if_neg skip, find staged]
      have ⟨ordinary, unbound⟩ := not_or.1 skip
      rw [not_not] at unbound
      by_cases same : g.path = b.path
      · rw [if_pos same, if_pos same, same] at *
        simp only [mem_cons, reduceCtorEq, false_and, and_false, or_false, Option.some.injEq]
        constructor
        · rintro (rfl | old)
          · exact Or.inr ⟨ordinary, unbound, rfl⟩
          · exact Or.inl old
        · rintro (old | ⟨_, _, rfl⟩)
          · exact Or.inr old
          · exact Or.inl rfl
      · have other : b ≠ g := fun equal => same (congrArg BoundPath.path equal).symm
        rw [if_neg same, if_neg same, mem_cons, or_iff_right other]

/-- What a child that starts has, in terms of the request. -/
theorem provision_some (started : provision st args = some child) :
    child.boundpaths = ((requested args).map (attenuate st)).foldl stage [] ∧
      child.extpaths = [] ∧ child.budget = [] ∧
      (∀ name ∈ child.tools, name ∈ childbudget st ∨ (name ∈ basics ∧ name ∈ st.tools)) ∧
      ∀ b ∈ requested args, childpathallowed st b.path = true := by
  unfold provision at started
  cases parsed : provisionparse st args with
  | error _ =>
    rw [parsed] at started
    cases started
  | ok accepted =>
    have ⟨id, _, _⟩ := accepted
    rw [parsed] at started
    simp only at started
    obtain ⟨toollist, pathcaps, rfl, tools, shape, proper⟩ := provisionparse_ok parsed
    have names : ∀ name ∈ withbasics st toollist, tolower name = name ∧ name.head? ≠ some 45 ∧
        (name ∈ childbudget st ∨ (name ∈ basics ∧ name ∈ st.tools)) := by
      intro name member
      rcases mem_withbasics member with asked | ⟨basic, active⟩
      · have ⟨valid, inBudget, available⟩ := tools name asked
        exact ⟨tolower_of_validtooltoken valid,
          head?_of_toolpath (toolpath_of_toolavailable available), Or.inl inBudget⟩
      have lower := tolower_of_mem_basics name basic
      have isActive : name ∈ st.tools := by
        have found := contains_iff_mem.1 active
        rwa [lower] at found
      exact ⟨lower, head?_of_toolpath (st.known name (Or.inl isActive)),
        Or.inr ⟨basic, isActive⟩⟩
    have grantable : ∀ b ∈ pathcaps.reverse,
        validatepath b.path = none ∧ bindpathallowed b.path = true := by
      intro b member
      rw [shape] at member
      obtain ⟨q, inRequest, rfl⟩ := mem_map.1 member
      have ⟨valid, allowed⟩ := proper q inRequest
      refine ⟨valid, ?_⟩
      unfold childpathallowed at allowed
      split_ifs at allowed with privileged mail
      all_goals simp [attenuate, bindpathallowed, privileged, mail]
    cases ran : init (childargs st id (withbasics st toollist) pathcaps) with
    | error _ =>
      rw [ran] at started
      cases started
    | ok _ =>
      rw [ran] at started
      cases started
      have ⟨bound, ext, budget, active⟩ :=
        init_ok (fun name member => (names name member).2.1) grantable ran
      rw [shape] at bound
      refine ⟨bound, ext, budget, ?_, fun b member => (proper b member).2⟩
      intro _ member
      rw [active] at member
      rcases mem_inittools _ member with none | ⟨arg, inArgs, rfl⟩
      · exact absurd none not_mem_nil
      · have ⟨lower, _, _⟩ := names arg (mem_reverse.1 inArgs)
        rwa [lower]

/-! ### Authority -/

def Covers (st : State) (path : Str) : Prop :=
  (∃ grant ∈ st.extpaths, pathwithin grant path = true) ∨
    ∃ b ∈ st.boundpaths, pathwithin b.path path = true

/-- No more than: read-only is the least permission, copy on write stands by itself. -/
def AtMost : Effective → Effective → Prop
  | .cow, .cow => True
  | .grant .ro, .grant _ => True
  | .grant .rw, .grant .rw => True
  | _, _ => False

def UnderWritePath (st : State) (path : Str) : Prop :=
  ∃ grant ∈ genwritepaths st.boundpaths, pathwithin grant path = true

/-- The authority of a process against that of one before it. -/
structure Narrows (parent child : State) : Prop where
  tools : ∀ name ∈ child.tools,
    name ∈ childbudget parent ∨ (name ∈ basics ∧ name ∈ parent.tools)
  covered : ∀ path, Covers child path → Covers parent path
  perm : ∀ path, AtMost (pathperm child.boundpaths path) (pathperm parent.boundpaths path)
  write : ∀ path, UnderWritePath child path → UnderWritePath parent path

/-- `q` is the first mention of the narrowest path, scratch apart, that covers `want`. -/
def NamedFor (grants : List BoundPath) (want : Str) (q : BoundPath) : Prop :=
  q.path ≠ scratch ∧ findboundpath grants q.path = some q ∧ pathwithin q.path want = true ∧
    ∀ g ∈ grants, g.path ≠ scratch → pathwithin g.path want = true → pathwithin g.path q.path = true

def KeepsReadOnly (st : State) (args : Str) : Prop :=
  ∀ r ∈ st.boundpaths, r.perm = .ro → ∀ q, NamedFor (requested args) r.path q →
    q.perm = .ro ∨ pathperm st.boundpaths q.path = .grant .ro

theorem AtMost.trans {a b c : Effective} (left : AtMost a b) (right : AtMost b c) : AtMost a c := by
  rcases a with _ | (_ | _) <;> rcases b with _ | (_ | _) <;> rcases c with _ | (_ | _) <;> trivial

theorem nonempty_of_mem (member : b ∈ st.boundpaths) : b.path ≠ [] :=
  nonempty_of_valid (st.grantable b member).1

theorem atMost_iff {parent : State} :
    (∀ path, AtMost (pathperm child.boundpaths path) (pathperm parent.boundpaths path)) ↔
      ∀ path, path ≠ scratch → MayWrite child.boundpaths path → MayWrite parent.boundpaths path := by
  have bridge : ∀ st : State, ∀ path, path ≠ scratch →
      (pathperm st.boundpaths path = .grant .rw ↔ MayWrite st.boundpaths path) :=
    fun st path ordinary => pathperm_eq_rw_iff (fun _ member => nonempty_of_mem member) ordinary
  constructor
  · intro atMost path ordinary writable
    have bound := atMost path
    rw [(bridge child path ordinary).2 writable] at bound
    apply (bridge parent path ordinary).1
    cases perm : pathperm parent.boundpaths path with
    | cow => rw [perm] at bound; exact bound.elim
    | grant perm' =>
      cases perm' with
      | rw => rfl
      | ro => rw [perm] at bound; exact bound.elim
  · intro mono path
    by_cases special : path = scratch
    · rw [pathperm, pathperm, if_pos special, if_pos special]
      trivial
    cases perm : (child.boundpaths.foldl (narrower path) ([], .ro)).2 with
    | ro =>
      rw [pathperm, pathperm, if_neg special, if_neg special, perm]
      trivial
    | rw =>
      have writable : pathperm child.boundpaths path = .grant .rw := by
        rw [pathperm, if_neg special, perm]
      rw [writable, (bridge parent path special).2
        (mono path special ((bridge child path special).1 writable))]
      trivial

theorem mem_boundpaths (started : provision st args = some child) :
    b ∈ child.boundpaths ↔ b.path ≠ scratch ∧
      ∃ q, findboundpath (requested args) q.path = some q ∧ attenuate st q = b := by
  rw [(provision_some started).1, mem_foldl_stage]
  have find : findboundpath ((requested args).map (attenuate st)) b.path =
      (findboundpath (requested args) b.path).map (attenuate st) := by
    unfold findboundpath
    rw [find?_map]
    rfl
  simp only [not_mem_nil, false_or, find, Option.map_eq_some_iff]
  constructor
  · rintro ⟨ordinary, _, q, found, same⟩
    refine ⟨ordinary, q, ?_, same⟩
    have samePath : q.path = b.path := (congrArg BoundPath.path same : (attenuate st q).path = b.path)
    rwa [samePath]
  · rintro ⟨ordinary, q, found, rfl⟩
    exact ⟨ordinary, rfl, q, found, rfl⟩

/-- A grant is only handed on to be written where it may be written. -/
theorem mayWrite_of_mem (started : provision st args = some child) (member : b ∈ child.boundpaths)
    (writable : b.perm = .rw) : MayWrite st.boundpaths b.path := by
  obtain ⟨ordinary, q, _, rfl⟩ := (mem_boundpaths started).1 member
  have notRo : pathperm st.boundpaths q.path ≠ .grant .ro := by
    intro readOnly
    simp only [attenuate, readOnly, if_true] at writable
    cases writable
  refine (pathperm_eq_rw_iff (fun _ inParent => nonempty_of_mem inParent) ordinary).1 ?_
  change pathperm st.boundpaths q.path = .grant .rw
  change q.path ≠ scratch at ordinary
  unfold pathperm at notRo ⊢
  rw [if_neg ordinary] at notRo ⊢
  cases perm : (st.boundpaths.foldl (narrower q.path) ([], .ro)).2 with
  | rw => rfl
  | ro => exact absurd (congrArg Effective.grant perm) notRo

theorem mayWrite_iff (started : provision st args = some child) {want : Str} :
    MayWrite child.boundpaths want ↔
      ∃ q, NamedFor (requested args) want q ∧ q.perm = .rw ∧
        pathperm st.boundpaths q.path ≠ .grant .ro := by
  have mentioned : ∀ g ∈ requested args, g.path ≠ scratch →
      ∃ b ∈ child.boundpaths, b.path = g.path := by
    intro g member ordinary
    have isSome : (findboundpath (requested args) g.path).isSome :=
      find?_isSome.2 ⟨g, member, by simp⟩
    have ⟨q, found⟩ := Option.isSome_iff_exists.1 isSome
    have samePath : q.path = g.path := by simpa using find?_some found
    refine ⟨attenuate st q, (mem_boundpaths started).2 ⟨?_, q, ?_, rfl⟩, samePath⟩
    · change q.path ≠ scratch
      rwa [samePath]
    · rw [samePath]
      exact found
  constructor
  · rintro ⟨b, ⟨member, covers, narrowest⟩, ties⟩
    have writable := ties b member rfl
    obtain ⟨ordinary, q, found, rfl⟩ := (mem_boundpaths started).1 member
    refine ⟨q, ⟨ordinary, found, covers, ?_⟩, ?_⟩
    · intro g inRequest other gCovers
      have ⟨b, inChild, samePath⟩ := mentioned g inRequest other
      rw [← samePath] at gCovers ⊢
      exact narrowest b inChild gCovers
    · unfold attenuate at writable
      split_ifs at writable with readOnly
      exact ⟨writable, readOnly⟩
  · rintro ⟨q, ⟨ordinary, found, covers, narrowest⟩, writable, notRo⟩
    have perm : (attenuate st q).perm = .rw := by
      simp only [attenuate, notRo, if_false, writable]
    refine ⟨attenuate st q, ⟨(mem_boundpaths started).2 ⟨ordinary, q, found, rfl⟩, covers, ?_⟩, ?_⟩
    · intro other member otherCovers
      obtain ⟨otherOrdinary, g, gFound, rfl⟩ := (mem_boundpaths started).1 member
      exact narrowest g (mem_of_find?_eq_some gFound) otherOrdinary otherCovers
    intro _ member samePath
    obtain ⟨_, g, gFound, rfl⟩ := (mem_boundpaths started).1 member
    have same : g = q := by
      change g.path = q.path at samePath
      rw [samePath, found] at gFound
      exact (Option.some.inj gFound).symm
    rw [same]
    exact perm

/-- A child has no more authority than its parent exactly if the request keeps the
read-only grants that it names paths around. -/
theorem narrows_iff (started : provision st args = some child) :
    Narrows st child ↔ KeepsReadOnly st args := by
  have ⟨_, noExt, _, tools, allowed⟩ := provision_some started
  have delegated : ∀ b ∈ child.boundpaths, b.perm = .rw → MayWrite st.boundpaths b.path :=
    fun b member writable => mayWrite_of_mem started member writable
  have mono := writable_mono_iff forest_pathwithin delegated
  have restrictive : (∀ r ∈ st.boundpaths, ¬r.perm = .rw → ¬MayWrite child.boundpaths r.path) ↔
      KeepsReadOnly st args := by
    refine forall₂_congr fun r member => ?_
    have isRo : ¬r.perm = .rw ↔ r.perm = .ro := by cases r.perm <;> simp
    rw [isRo]
    refine imp_congr_right fun _ => ?_
    rw [mayWrite_iff started]
    constructor
    · intro none q named
      by_contra neither
      have ⟨notAsked, notRo⟩ := not_or.1 neither
      refine none ⟨q, named, ?_, notRo⟩
      cases perm : q.perm with
      | rw => rfl
      | ro => exact absurd perm notAsked
    · rintro keeps ⟨q, named, writable, notRo⟩
      rcases keeps q named with readOnly | readOnly
      · exact absurd (readOnly.symm.trans writable) (by decide)
      · exact notRo readOnly
  rw [← restrictive]
  constructor
  · intro narrows r member readOnly writable
    have notHere : ¬MayWrite st.boundpaths r.path :=
      not_writable_path forest_pathwithin member readOnly
    exact notHere <| atMost_iff.1 narrows.perm r.path (st.grantable r member).2.2 writable
  intro kept
  refine ⟨tools, ?_, atMost_iff.2 fun path _ => mono.2 kept path, ?_⟩
  · rintro path (⟨grant, member, _⟩ | ⟨b, member, covers⟩)
    · rw [noExt] at member
      exact absurd member not_mem_nil
    obtain ⟨_, q, found, rfl⟩ := (mem_boundpaths started).1 member
    have permitted := allowed q (mem_of_find?_eq_some found)
    change pathwithin q.path path = true at covers
    unfold childpathallowed at permitted
    split_ifs at permitted
    all_goals
      simp only [Bool.or_eq_true, any_eq_true, beq_iff_eq] at permitted
      rcases permitted with ⟨grant, inParent, above⟩ | ⟨grant, inParent, above⟩
    · exact Or.inl ⟨grant, inParent, above ▸ covers⟩
    · exact Or.inr ⟨grant, inParent, above ▸ covers⟩
    · exact Or.inl ⟨grant, inParent, pathwithin_trans above covers⟩
    · exact Or.inr ⟨grant, inParent, pathwithin_trans above covers⟩
  · rintro path ⟨grant, member, covers⟩
    simp only [genwritepaths, mem_reverse, mem_map, mem_filter,
      beq_iff_eq] at member
    obtain ⟨b, ⟨inChild, writable⟩, rfl⟩ := member
    have ⟨g, inParent, above, gWritable⟩ := (delegated b inChild writable).exists_covers
    refine ⟨g.path, ?_, pathwithin_trans above covers⟩
    simp only [genwritepaths, mem_reverse, mem_map, mem_filter, beq_iff_eq]
    exact ⟨g, ⟨inParent, gWritable⟩, rfl⟩

/-! ### Lines of descent -/

theorem Narrows.trans {first middle last : State} (noBudget : middle.budget = [])
    (upper : Narrows first middle) (lower : Narrows middle last) : Narrows first last where
  tools := by
    intro name member
    rcases lower.tools name member with inBudget | ⟨_, active⟩
    · simp [childbudget, noBudget] at inBudget
    · exact upper.tools name active
  covered := fun path covers => upper.covered path (lower.covered path covers)
  perm := fun path => (lower.perm path).trans (upper.perm path)
  write := fun path under => upper.write path (lower.write path under)

def LineKeepsReadOnly (st : State) : List Str → Prop
  | [] => True
  | args :: requests =>
    ∀ child, provision st args = some child →
      KeepsReadOnly st args ∧ LineKeepsReadOnly child requests

theorem head_descend (st : State) (requests : List Str) :
    ∃ later, descend st requests = st :: later := by
  cases requests with
  | nil => exact ⟨[], rfl⟩
  | cons args _ =>
    unfold descend
    cases provision st args with
    | none => exact ⟨[], rfl⟩
    | some _ => exact ⟨_, rfl⟩

/-- Every process of a line has no more authority than each one before it exactly if
every request keeps the read-only grants of the process that it is made to. -/
theorem descend_narrows_iff (requests : List Str) : ∀ st : State,
    (descend st requests).Pairwise Narrows ↔ LineKeepsReadOnly st requests := by
  induction requests with
  | nil => exact fun st => iff_of_true (pairwise_singleton _ _) trivial
  | cons args requests ih =>
    intro st
    unfold descend LineKeepsReadOnly
    cases started : provision st args with
    | none => exact iff_of_true (pairwise_singleton _ _) (by rintro child ⟨⟩)
    | some child =>
      have ⟨_, shape⟩ := head_descend child requests
      have noBudget := (provision_some started).2.2.1
      simp only [Option.some.injEq, forall_eq']
      rw [pairwise_cons, ← ih child, ← narrows_iff started]
      refine and_congr_left fun line => ?_
      rw [shape] at line ⊢
      constructor
      · exact fun all => all child mem_cons_self
      intro narrows last member
      rcases mem_cons.1 member with rfl | further
      · exact narrows
      · exact narrows.trans noBudget ((pairwise_cons.1 line).1 last further)

/-- A process with a read-only grant inside a writable one. -/
def nestedParent : State where
  tools := [str "read"]
  alltools := []
  extpaths := []
  boundpaths := [⟨str "/a", .rw⟩, ⟨str "/a/b", .ro⟩]
  budget := []
  activityid := 0
  mountpt := str "/tool"
  verbose := false
  agentrole := .toplevel
  agentnodevs := false
  grantable := by decide +kernel
  known := by
    rintro name (active | inactive)
    · rw [mem_singleton.1 active]
      decide +kernel
    · exact absurd inactive not_mem_nil

/-- The child that is given the outer grant may write what its parent may not. -/
theorem descend_widens : ¬(descend nestedParent [str "1 paths=/a"]).Pairwise Narrows := by
  have parsed : provisionparse nestedParent (str "1 paths=/a") =
      .ok (1, str "/tool.1", childargs nestedParent 1 [str "read"] [⟨str "/a", .rw⟩]) := by
    decide +kernel
  have ⟨child, ran⟩ := exists_init nestedParent 1 [str "read"]
    [⟨str "/a", .rw⟩] (by decide +kernel) (by decide +kernel) (by decide +kernel)
  have started : provision nestedParent (str "1 paths=/a") = some child := by
    rw [provision, parsed]
    simp only [ran]
    rfl
  intro narrow
  rw [descend, started] at narrow
  have keeps := (narrows_iff started).1 ((pairwise_cons.1 narrow).1 child mem_cons_self)
  have named : NamedFor (requested (str "1 paths=/a")) (str "/a/b") ⟨str "/a", .rw⟩ :=
    ⟨by decide +kernel, by decide +kernel, by decide +kernel, by decide +kernel⟩
  rcases keeps ⟨str "/a/b", .ro⟩ (by decide +kernel) rfl ⟨str "/a", .rw⟩ named with asked | readOnly
  · cases asked
  · revert readOnly
    decide +kernel

end Infernode.Tools9p
