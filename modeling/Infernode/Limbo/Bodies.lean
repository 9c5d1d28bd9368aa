import Infernode.Limbo.Labels

/-!
Where the arms of a case are, and the pcs that they give to the labels.

Owns: the body that a value selects, and that the labels of a case get the pcs of their bodies.
-/

namespace Infernode.Limbo

open Runs List Option

variable {α : Type}

/-! ### Places -/

def placed : (pc : Nat) → List (Arm α) → List (Nat × Qual α)
  | _, [] => []
  | pc, arm :: rest => arm.quals.map (fun qual => (pc, qual)) ++ placed (pc + arm.size + 1) rest

def finish : (pc : Nat) → List (Arm α) → Nat
  | pc, [] => pc
  | pc, arm :: rest => finish (pc + arm.size + 1) rest

/-- The pc of the arm number `k`. -/
def entry : (pc : Nat) → List (Arm α) → (k : Nat) → Nat
  | pc, [], _ => pc
  | pc, _ :: _, 0 => pc
  | pc, arm :: rest, k + 1 => entry (pc + arm.size + 1) rest k

def Qual.isWild : Qual α → Bool
  | .wild => true
  | _ => false

/-- The pc of the arm with `*`, or else the pc behind the arms. -/
def defaultOf (origin : Nat) (arms : List (Arm α)) : Nat :=
  (((placed origin arms).find? fun item => item.2.isWild).map Prod.fst).getD (finish origin arms)

/-- The pc of the body that the value selects. -/
def bodyOf [LinearOrder α] (origin : Nat) (arms : List (Arm α)) (v : α) : Nat :=
  (((placed origin arms).find? fun item => decide (item.2.Holds v)).map Prod.fst).getD
    (defaultOf origin arms)

variable {pc : Nat} {qual : Qual α}

variable {pc' : Nat} {wild : Option Nat}

theorem mem_placed {arms : List (Arm α)} :
    (pc', qual) ∈ placed pc arms ↔ ∃ k, Has arms k qual ∧ pc' = entry pc arms k := by
  induction arms generalizing pc with
  | nil =>
    constructor
    · intro member
      exact absurd member not_mem_nil
    · rintro ⟨k, ⟨arm, is, -⟩, -⟩
      exact absurd is (by simp)
  | cons arm _ ih =>
    unfold placed
    rw [mem_append, ih]
    constructor
    · rintro (here | ⟨k, ⟨arm', at_, member⟩, is⟩)
      · have ⟨_, member, same⟩ := mem_map.1 here
        cases same
        exact ⟨0, ⟨arm, rfl, member⟩, rfl⟩
      · exact ⟨k + 1, ⟨arm', at_, member⟩, is⟩
    rintro ⟨k, ⟨arm', at_, member⟩, is⟩
    cases k with
    | zero =>
      cases at_
      exact Or.inl (mem_map.2 ⟨qual, member, by rw [is]; rfl⟩)
    | succ k => exact Or.inr ⟨k, ⟨arm', at_, member⟩, is⟩

theorem map_placed (pc : Nat) (arms : List (Arm α)) :
    (placed pc arms).map Prod.snd = arms.flatMap Arm.quals := by
  induction arms generalizing pc with
  | nil => rfl
  | cons _ _ ih =>
    unfold placed
    rw [map_append, ih, flatMap_cons, List.map_map]
    congr 1
    exact map_id _

abbrev placing (ctype : Ctype α)
    (ranged : List (Label α) → α → α → Nat → Option (List (Label α))) (c : Cased α)
    (item : Nat × Qual α) : Option (Cased α) :=
  qualifier ctype ranged item.1 c item.2

theorem casearms_run (ctype : Ctype α)
    (ranged : List (Label α) → α → α → Nat → Option (List (Label α))) (arms : List (Arm α)) :
    ∀ pc c, casearms ctype ranged pc c arms =
      (run (placing ctype ranged) c (placed pc arms)).map fun c => (c, finish pc arms) := by
  have quals (pc : Nat) (quals : List (Qual α)) : ∀ c, quals.foldlM (qualifier ctype ranged pc) c =
      run (placing ctype ranged) c (quals.map fun qual => (pc, qual)) := by
    induction quals with
    | nil => exact fun c => rfl
    | cons qual _ ih =>
      intro c
      rw [foldlM_cons, map_cons]
      show (qualifier ctype ranged pc c qual).bind _ = _
      unfold run
      congr 1
      funext after
      exact ih after
  induction arms with
  | nil => exact fun pc c => rfl
  | cons arm _ ih =>
    intro pc c
    unfold casearms placed
    rw [quals, run_append]
    cases run (placing ctype ranged) c (arm.quals.map fun qual => (pc, qual)) with
    | none => rfl
    | some _ =>
      rw [bind_some, bind_some, ih]
      rfl

variable {v : α}

section Selected

variable [LinearOrder α] {origin : Nat} {arms : List (Arm α)}

theorem Qual.Apart.symm {a b : Qual α} (apart : a.Apart b) : b.Apart a :=
  ⟨fun v hasB hasA => apart.1 v hasA hasB, fun both => apart.2 both.symm⟩

theorem placed_apart (proper : Proper arms) (origin : Nat) :
    (placed origin arms).Pairwise fun a b => a.2.Apart b.2 := by
  have apart := proper.apart
  rw [← map_placed origin, pairwise_map] at apart
  exact apart

theorem placed_unique (proper : Proper arms) {a b : Nat × Qual α} (memberA : a ∈ placed origin arms)
    (memberB : b ∈ placed origin arms) (holdsA : a.2.Holds v) (holdsB : b.2.Holds v) : a = b := by
  by_contra different
  have symm : Std.Symm fun a b : Nat × Qual α => a.2.Apart b.2 := ⟨fun _ _ apart => apart.symm⟩
  have apart := (placed_apart proper origin).forall memberA memberB different
  exact apart.1 v holdsA holdsB

theorem wild_unique (proper : Proper arms) (member : (pc, .wild) ∈ placed origin arms)
    (member' : (pc', .wild) ∈ placed origin arms) : pc = pc' := by
  by_contra different
  have symm : Std.Symm fun a b : Nat × Qual α => a.2.Apart b.2 := ⟨fun _ _ apart => apart.symm⟩
  have apart := (placed_apart proper origin).forall member member'
    fun same => different (congrArg Prod.fst same)
  exact apart.2 ⟨rfl, rfl⟩

theorem bodyOf_of_holds (proper : Proper arms) (member : (pc, qual) ∈ placed origin arms)
    (holds : qual.Holds v) : bodyOf origin arms v = pc := by
  unfold bodyOf
  cases found : (placed origin arms).find? fun item => decide (item.2.Holds v) with
  | none =>
    have none := find?_eq_none.1 found (pc, qual) member
    exact absurd (decide_eq_true holds) none
  | some _ =>
    have holds' := of_decide_eq_true (find?_eq_some_iff_append.1 found).1
    have same := placed_unique proper (mem_of_find?_eq_some found) member holds' holds
    rw [same]
    rfl

theorem bodyOf_of_none (none : ∀ pc qual, (pc, qual) ∈ placed origin arms →
    ¬ qual.Holds v) : bodyOf origin arms v = defaultOf origin arms := by
  have absent : ((placed origin arms).find? fun item => decide (item.2.Holds v)) = .none := by
    rw [find?_eq_none]
    intro item member holds
    exact none item.1 item.2 member (of_decide_eq_true holds)
  unfold bodyOf
  rw [absent]
  rfl

omit [LinearOrder α] in
theorem isWild_iff : qual.isWild = true ↔ qual = .wild := by
  cases qual with
  | const _ => exact ⟨nofun, nofun⟩
  | range _ _ => exact ⟨nofun, nofun⟩
  | wild => exact ⟨fun _ => rfl, fun _ => rfl⟩

theorem defaultOf_of_wild (proper : Proper arms) (member : (pc, .wild) ∈ placed origin arms) :
    defaultOf origin arms = pc := by
  unfold defaultOf
  cases found : (placed origin arms).find? fun item => item.2.isWild with
  | none =>
    have none := find?_eq_none.1 found (pc, .wild) member
    exact absurd rfl none
  | some item =>
    have wild := isWild_iff.1 (find?_eq_some_iff_append.1 found).1
    have at_ := mem_of_find?_eq_some found
    have ⟨_, _⟩ := item
    simp only at wild
    subst wild
    exact wild_unique proper at_ member

omit [LinearOrder α] in
theorem defaultOf_of_none (none : ∀ pc, (pc, .wild) ∉ placed origin arms) :
    defaultOf origin arms = finish origin arms := by
  have absent : ((placed origin arms).find? fun item => item.2.isWild) = .none := by
    rw [find?_eq_none]
    intro item member wild
    apply none item.1
    rw [← isWild_iff.1 wild]
    exact member
  unfold defaultOf
  rw [absent]
  rfl

end Selected

/-! ### Marks -/

/-- The labels `out` are those of `labs`, the pcs aside. -/
def Marked (labs out : List (Label α)) (g : Nat → Option Nat) : Prop :=
  ∀ i, out[i]? = (labs[i]?).map fun lab : Label α => { lab with inst := g i }

/-- The pc of `*` so far. -/
structure Wilds (done : List (Nat × Qual α)) (wild : Option Nat) : Prop where
  seen : ∀ pc, (pc, .wild) ∈ done → wild = some pc
  unseen : (∀ pc, (pc, .wild) ∉ done) → wild = none

variable {done : List (Nat × Qual α)}

variable {item : Nat × Qual α} {todo : List (Nat × Qual α)}

section Marks

variable {labs out : List (Label α)} {g : Nat → Option Nat}

theorem Marked.setinst (marked : Marked labs out g) (i pc : Nat) :
    Marked labs (setinst out i pc) fun j => if j = i then some pc else g j := by
  intro j
  unfold Limbo.setinst
  rw [getElem?_modify, marked j]
  cases labs[j]? with
  | none => rfl
  | some _ =>
    show some _ = some _
    beta_reduce
    by_cases same : i = j
    · rw [if_pos same, if_pos same.symm]
    · rw [if_neg same, if_neg fun same' => same same'.symm]

theorem Marked.length (marked : Marked labs out g) : out.length = labs.length := by
  apply Nat.le_antisymm
  · rw [← List.getElem?_eq_none_iff, marked, map_eq_none_iff, List.getElem?_eq_none_iff]
  rw [← List.getElem?_eq_none_iff]
  have missing := marked out.length
  rw [List.getElem?_eq_none_iff.2 (Nat.le_refl _)] at missing
  exact map_eq_none_iff.1 missing.symm

theorem Marked.eq_map (marked : Marked labs out g) {f : Label α → Option Nat}
    (same : ∀ i lab, labs[i]? = some lab → g i = f lab) :
    out = labs.map fun lab => { lab with inst := f lab } := by
  apply ext_getElem?
  intro i
  rw [marked, getElem?_map]
  cases is : labs[i]? with
  | none => rfl
  | some lab => rw [map_some, map_some, same i lab is]

theorem Marked.lined [LinearOrder α] (marked : Marked labs out g) (lined : Lined labs) :
    Lined out := by
  refine ⟨?_, ?_⟩
  · intro _ member
    have ⟨i, is⟩ := mem_iff_getElem?.1 member
    rw [marked, map_eq_some_iff] at is
    obtain ⟨lab', is', rfl⟩ := is
    exact lined.nonempty lab' (mem_of_getElem? is')
  rw [pairwise_iff_getElem]
  intro i j insideI insideJ before
  have isI := marked i
  have isJ := marked j
  rw [getElem?_eq_getElem insideI] at isI
  rw [getElem?_eq_getElem insideJ] at isJ
  have ⟨a, isA, sameA⟩ := map_eq_some_iff.1 isI.symm
  have ⟨b, isB, sameB⟩ := map_eq_some_iff.1 isJ.symm
  rw [← sameA, ← sameB]
  have apart : a.stop < b.start := lined.before isA isB before
  exact apart

theorem Wilds.nil : Wilds (α := α) [] none := ⟨nofun, fun _ => rfl⟩

theorem Wilds.concat (wilds : Wilds done wild) (other : item.2 ≠ .wild) :
    Wilds (done ++ [item]) wild := by
  have absent (pc : Nat) : (pc, .wild) ∈ done ++ [item] → (pc, .wild) ∈ done := by
    intro member
    rcases mem_append.1 member with before | here
    · exact before
    · exact absurd (congrArg Prod.snd (mem_singleton.1 here)).symm other
  refine ⟨fun pc member => wilds.seen pc (absent pc member), fun none => wilds.unseen ?_⟩
  intro pc member
  exact none pc (mem_append_left _ member)

/-- `*` of an arm. -/
theorem Wilds.put {items : List (Nat × Qual α)}
    (apart : items.Pairwise fun a b => ¬ (a.2 = .wild ∧ b.2 = .wild))
    (split : items = done ++ (pc, .wild) :: todo) : Wilds (done ++ [(pc, .wild)]) (some pc) := by
  rw [split, pairwise_append] at apart
  refine ⟨?_, fun none => absurd (mem_append_right _ (mem_singleton_self _)) (none pc)⟩
  intro pc' member
  rcases mem_append.1 member with before | here
  · have different := apart.2.2 (pc', .wild) before (pc, .wild) (mem_cons_self ..)
    exact absurd ⟨rfl, rfl⟩ different
  · cases mem_singleton.1 here
    rfl

end Marks

/-! ### Cases with a table of labels -/

section Tables

variable [LinearOrder α] {ctype : Ctype α} {origin : Nat} {arms : List (Arm α)}
  {labs : List (Label α)}

/-- `*` goes where it should, once all arms are done. -/
theorem Wilds.getD (proper : Proper arms) (wilds : Wilds (placed origin arms) wild) :
    wild.getD (finish origin arms) = defaultOf origin arms := by
  by_cases any : ∃ pc, (pc, .wild) ∈ placed origin arms
  · have ⟨pc, member⟩ := any
    rw [wilds.seen pc member, defaultOf_of_wild proper member]
    rfl
  · have none : ∀ pc, (pc, .wild) ∉ placed origin arms := fun pc member => any ⟨pc, member⟩
    rw [wilds.unseen none, defaultOf_of_none none]
    rfl

def Qual.first : Qual α → Option α
  | .const p => some p
  | .range p _ => some p
  | .wild => none

def Qual.last : Qual α → Option α
  | .const p => some p
  | .range _ q => some q
  | .wild => none

theorem holds_first (proper : Proper arms) (member : (pc, qual) ∈ placed origin arms)
    (is : qual.first = some v) : qual.Holds v := by
  cases qual with
  | const _ =>
    cases is
    rfl
  | range _ _ =>
    cases is
    obtain ⟨k, ⟨arm, at_, inArm⟩, -⟩ := mem_placed.1 member
    exact ⟨le_refl _, proper.nonempty arm (mem_of_getElem? at_) _ _ inArm⟩
  | wild => cases is

/-- The label that has a value of a qualifier has the pc of the qualifier's arm. -/
structure Tabled (labs : List (Label α)) (origin : Nat) (arms : List (Arm α))
    (done : List (Nat × Qual α)) (c : Cased α) : Prop where
  marked : ∃ g, Marked labs c.labs g ∧ ∀ item ∈ done, ∀ v, item.2.first = some v →
    ∀ (i : Nat) (lab : Label α), labs[i]? = some lab → lab.Has v →
      g i = some (entry origin arms lab.node)
  wilds : Wilds done c.wild

theorem Checked.label (checked : Checked arms labs) (proper : Proper arms)
    (member : (pc, qual) ∈ placed origin arms) (is : qual.first = some v) :
    ∃ (i : Nat) (lab : Label α), labs[i]? = some lab ∧ lab.Has v ∧
      pc = entry origin arms lab.node := by
  have holds := holds_first proper member is
  obtain ⟨k, has, rfl⟩ := mem_placed.1 member
  have notWild : qual ≠ .wild := by
    rintro rfl
    cases is
  have ⟨lab, inLabs, node, covers⟩ := checked.covers k qual has notWild
  have ⟨i, at_⟩ := mem_iff_getElem?.1 inLabs
  exact ⟨i, lab, at_, covers v holds, by rw [node]⟩

variable {lab : Label α}

variable {c : Cased α}

theorem Tabled.mark {i : Nat} (checked : Checked arms labs)
    (tabled : Tabled labs origin arms done c) (is : qual.first = some v) (at_ : labs[i]? = some lab)
    (has : lab.Has v) (goes : pc = entry origin arms lab.node) :
    Tabled labs origin arms (done ++ [(pc, qual)]) { c with labs := setinst c.labs i pc } := by
  have ⟨_, marked, goods⟩ := tabled.marked
  refine ⟨⟨_, marked.setinst i pc, ?_⟩, tabled.wilds.concat ?_⟩
  · intro item member w first j lab' at' has'
    by_cases same : j = i
    · rw [if_pos same, goes]
      rw [same, at_] at at'
      rw [Option.some.inj at']
    rw [if_neg same]
    rcases mem_append.1 member with before | here
    · exact goods item before w first j lab' at' has'
    rw [mem_singleton.1 here] at first
    have sameValue := Option.some.inj (first.symm.trans is)
    rw [sameValue] at has'
    exact absurd (checked.place at' at_ has' has) same
  · rintro rfl
    cases is

theorem tabled_taken (lawful : ctype.Lawful) (proper : Proper arms) (checked : Checked arms labs)
    (split : placed origin arms = done ++ item :: todo) (tabled : Tabled labs origin arms done c) :
    ∃ after, placing ctype (fun labs _ _ _ => some labs) c item = some after ∧
      Tabled labs origin arms (done ++ [item]) after := by
  have member : item ∈ placed origin arms := by
    rw [split]
    simp
  obtain ⟨g, marked, -⟩ := tabled.marked
  have found {v : α} {i : Nat} {lab : Label α} (at_ : labs[i]? = some lab) (has : lab.Has v) :
      findlab ctype v c.labs = some i := by
    have at' : c.labs[i]? = some { lab with inst := g i } := by
      rw [marked i, at_]
      rfl
    exact findlab_of_has lawful (marked.lined checked.toLined) at' has
  have ⟨_, qual⟩ := item
  cases qual with
  | const _ =>
    have ⟨i, lab, at_, has, goes⟩ := checked.label proper member rfl
    refine ⟨_, ?_, tabled.mark checked rfl at_ has goes⟩
    unfold placing qualifier
    simp only
    rw [found at_ has]
    rfl
  | range _ _ =>
    have ⟨_, _, at_, has, goes⟩ := checked.label proper member rfl
    refine ⟨_, ?_, tabled.mark checked rfl at_ has goes⟩
    unfold placing qualifier
    simp only
    rw [found at_ has]
    rfl
  | wild =>
    have apart := (placed_apart proper origin).imp fun apart => apart.2
    have ⟨g, marked, goods⟩ := tabled.marked
    refine ⟨_, rfl, ⟨g, marked, ?_⟩, Wilds.put apart split⟩
    intro item inDone v first
    rcases mem_append.1 inDone with before | here
    · exact goods item before v first
    · rw [mem_singleton.1 here] at first
      cases first

theorem marked_self (checked : Checked arms labs) : Marked labs labs fun _ => none := by
  intro i
  cases is : labs[i]? with
  | none => rfl
  | some lab =>
    have inst := checked.inst lab (mem_of_getElem? is)
    rw [map_some, ← inst]

theorem casecom_cased (lawful : ctype.Lawful) (proper : Proper arms)
    (checked : Checked arms labs) : casecom ctype origin arms labs =
      some ⟨labs.map fun lab => { lab with inst := some (entry origin arms lab.node) },
        defaultOf origin arms⟩ := by
  have initial : Tabled labs origin arms [] ⟨labs, none⟩ :=
    ⟨⟨_, marked_self checked, nofun⟩, Wilds.nil⟩
  have ⟨c, reached, tabled⟩ := run_history
    (fun done item todo c split tabled =>
      tabled_taken lawful proper checked split tabled) initial
  have ⟨_, marked, goods⟩ := tabled.marked
  unfold casecom
  rw [casearms_run, reached, map_some, map_some]
  simp only
  rw [tabled.wilds.getD proper]
  congr 2
  apply marked.eq_map
  intro i lab at_
  have nonempty := checked.nonempty lab (mem_of_getElem? at_)
  have ⟨qual, has, holds⟩ := checked.covered lab (mem_of_getElem? at_) lab.start
    ⟨le_refl _, nonempty⟩
  have member : (entry origin arms lab.node, qual) ∈ placed origin arms :=
    mem_placed.2 ⟨lab.node, has, rfl⟩
  obtain ⟨v, first⟩ : ∃ v, qual.first = some v := by
    cases qual with
    | const p => exact ⟨p, rfl⟩
    | range p _ => exact ⟨p, rfl⟩
    | wild => exact holds.elim
  have notWild : qual ≠ .wild := by
    rintro rfl
    exact holds
  obtain ⟨lab', inLabs, -, covers⟩ := checked.covers lab.node qual has notWild
  have same : lab' = lab := checked.unique inLabs (mem_of_getElem? at_)
    (covers lab.start holds) ⟨le_refl _, nonempty⟩
  rw [same] at covers
  exact goods _ member v first i lab at_ (covers v (holds_first proper member first))

theorem Checked.ends (checked : Checked arms labs) (member : lab ∈ labs) :
    (∃ k qual, Has arms k qual ∧ qual.first = some lab.start) ∧
      ∃ k qual, Has arms k qual ∧ qual.last = some lab.stop := by
  have nonempty := checked.nonempty lab member
  have within {v : α} (has : lab.Has v) : ∃ qual, Has arms lab.node qual ∧ qual.Holds v ∧
      lab.Covers qual := by
    have ⟨qual, hasQual, holds⟩ := checked.covered lab member v has
    have notWild : qual ≠ .wild := by
      rintro rfl
      exact holds
    obtain ⟨_, inLabs, -, covers⟩ := checked.covers lab.node qual hasQual notWild
    rw [checked.unique inLabs member (covers v holds) has] at covers
    exact ⟨qual, hasQual, holds, covers⟩
  constructor
  · have ⟨qual, has, holds, covers⟩ := within ⟨le_refl _, nonempty⟩
    refine ⟨lab.node, qual, has, ?_⟩
    cases qual with
    | const p =>
      have same : lab.start = p := holds
      rw [same]
      rfl
    | range p q =>
      have inside : p ≤ lab.start ∧ lab.start ≤ q := holds
      have low := (covers p ⟨le_refl p, inside.1.trans inside.2⟩).1
      rw [le_antisymm low inside.1]
      rfl
    | wild => exact holds.elim
  · have ⟨qual, has, holds, covers⟩ := within ⟨nonempty, le_refl _⟩
    refine ⟨lab.node, qual, has, ?_⟩
    cases qual with
    | const p =>
      have same : lab.stop = p := holds
      rw [same]
      rfl
    | range p q =>
      have inside : p ≤ lab.stop ∧ lab.stop ≤ q := holds
      have high := (covers q ⟨inside.1.trans inside.2, le_refl q⟩).2
      rw [le_antisymm inside.2 high]
      rfl
    | wild => exact holds.elim

theorem bodyOf_of_has (proper : Proper arms) (checked : Checked arms labs) (member : lab ∈ labs)
    (has : lab.Has v) : bodyOf origin arms v = entry origin arms lab.node := by
  have ⟨_, hasQual, holds⟩ := checked.covered lab member v has
  exact bodyOf_of_holds proper (mem_placed.2 ⟨lab.node, hasQual, rfl⟩) holds

theorem bodyOf_of_no_label (checked : Checked arms labs) (none : ∀ lab ∈ labs, ¬ lab.Has v) :
    bodyOf origin arms v = defaultOf origin arms := by
  apply bodyOf_of_none
  intro _ qual member holds
  obtain ⟨k, has, -⟩ := mem_placed.1 member
  have notWild : qual ≠ .wild := by
    rintro rfl
    exact holds
  obtain ⟨lab, inLabs, -, covers⟩ := checked.covers k qual has notWild
  exact none lab inLabs (covers v holds)

end Tables

end Infernode.Limbo
