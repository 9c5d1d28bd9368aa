import Infernode.Limbo.Casecom
import Infernode.Program.Runs
import Mathlib.Data.List.Pairwise
import Mathlib.Data.List.Infix
import Mathlib.Order.Lattice

/-!
The labels of a case that has no two qualifiers for one value.

Owns: when a value meets a qualifier, the cases that the check is to pass, what it makes of their
labels, and that the label of a value is found.
-/

namespace Infernode.Limbo

open List

variable {α : Type} [LinearOrder α]

/-! ### Qualifiers -/

def Qual.Holds (v : α) : Qual α → Prop
  | .const p => v = p
  | .range p q => p ≤ v ∧ v ≤ q
  | .wild => False

instance (v : α) : (qual : Qual α) → Decidable (qual.Holds v)
  | .const p => inferInstanceAs (Decidable (v = p))
  | .range p q => inferInstanceAs (Decidable (p ≤ v ∧ v ≤ q))
  | .wild => inferInstanceAs (Decidable False)

/-- No value meets both qualifiers, and they are not both `*`. -/
def Qual.Apart (a b : Qual α) : Prop :=
  (∀ v, a.Holds v → ¬ b.Holds v) ∧ ¬ (a = .wild ∧ b = .wild)

/-- The ranges are not empty, and no two qualifiers overlap. -/
structure Proper (arms : List (Arm α)) : Prop where
  nonempty : ∀ arm ∈ arms, ∀ p q, Qual.range p q ∈ arm.quals → p ≤ q
  apart : (arms.flatMap Arm.quals).Pairwise Qual.Apart

structure Ctype.Lawful (ctype : Ctype α) : Prop where
  below : ∀ a b, ctype.casecmp a b < 0 ↔ a < b
  above : ∀ a b, 0 < ctype.casecmp a b ↔ b < a
  follows : ∀ start p, ctype.follows start p = true → ∀ v, v ≤ p ∨ start ≤ v

/-- The qualifier is one of the arm number `k`. -/
def Has (arms : List (Arm α)) (k : Nat) (qual : Qual α) : Prop :=
  ∃ arm, arms[k]? = some arm ∧ qual ∈ arm.quals

def Label.Has (lab : Label α) (v : α) : Prop := lab.start ≤ v ∧ v ≤ lab.stop

def Label.Covers (lab : Label α) (qual : Qual α) : Prop := ∀ v, qual.Holds v → lab.Has v

/-! ### Labels in order -/

/-- Labels that are not empty, each before the next. -/
structure Lined (labs : List (Label α)) : Prop where
  nonempty : ∀ lab ∈ labs, lab.start ≤ lab.stop
  sorted : labs.Pairwise fun a b => a.stop < b.start

structure Checked (arms : List (Arm α)) (labs : List (Label α)) : Prop extends Lined labs where
  one : ∀ lab ∈ labs, lab.one = true → lab.stop = lab.start
  inst : ∀ lab ∈ labs, lab.inst = none
  covers : ∀ k qual, Has arms k qual → qual ≠ .wild →
    ∃ lab ∈ labs, lab.node = k ∧ lab.Covers qual
  covered : ∀ lab ∈ labs, ∀ v, lab.Has v → ∃ qual, Has arms lab.node qual ∧ qual.Holds v

variable {lab : Label α}

section Lines

variable {labs : List (Label α)} {v : α}

theorem Lined.tail (lined : Lined (lab :: labs)) : Lined labs :=
  ⟨fun l member => lined.nonempty l (mem_cons_of_mem _ member),
    (pairwise_cons.1 lined.sorted).2⟩

variable {a b : Label α}

/-- Labels at different places have no value in common. -/
theorem Lined.before (lined : Lined labs) {i j : Nat} (isA : labs[i]? = some a)
    (isB : labs[j]? = some b) (before : i < j) : a.stop < b.start := by
  obtain ⟨insideA, rfl⟩ := List.getElem?_eq_some_iff.1 isA
  obtain ⟨insideB, rfl⟩ := List.getElem?_eq_some_iff.1 isB
  exact pairwise_iff_getElem.1 lined.sorted i j insideA insideB before

theorem Lined.place (lined : Lined labs) {i j : Nat} (isA : labs[i]? = some a)
    (isB : labs[j]? = some b) (hasA : a.Has v) (hasB : b.Has v) : i = j := by
  rcases Nat.lt_trichotomy i j with before | same | after
  · have apart := lined.before isA isB before
    exact absurd (hasB.1.trans hasA.2) (not_le.2 apart)
  · exact same
  · have apart := lined.before isB isA after
    exact absurd (hasA.1.trans hasB.2) (not_le.2 apart)

theorem Lined.unique (lined : Lined labs) (memberA : a ∈ labs) (memberB : b ∈ labs) (hasA : a.Has v)
    (hasB : b.Has v) : a = b := by
  have ⟨_, isA⟩ := mem_iff_getElem?.1 memberA
  have ⟨_, isB⟩ := mem_iff_getElem?.1 memberB
  rw [lined.place isA isB hasA hasB, isB] at isA
  exact (Option.some.inj isA).symm

end Lines

/-! ### The label of a value -/

section Found

variable {ctype : Ctype α} {labs : List (Label α)} {v : α}

theorem findlabfrom_spec (lawful : ctype.Lawful) (lined : Lined labs) {k : Nat}
    (is : labs[k]? = some lab) (has : lab.Has v) (l r : Nat) (low : l ≤ k + 1) (high : k < r)
    (inside : r ≤ labs.length) (ends : l ≤ r) : findlabfrom ctype v labs l r = some (k + 1) := by
  induction l, r using findlabfrom.induct ctype v labs with
  | case1 _ _ _ missing =>
    rw [List.getElem?_eq_none_iff] at missing
    omega
  | case2 _ _ more middle at_ under ih =>
    have below : middle.start ≤ v := by
      rw [← not_lt, ← lawful.above]
      omega
    unfold findlabfrom
    rw [dif_pos more, at_]
    simp only
    rw [if_pos under]
    apply ih
    · by_contra beyond
      have apart := lined.before is at_ (by omega)
      exact absurd (below.trans has.2) (not_le.2 apart)
    · exact high
    · exact inside
    · omega
  | case3 _ _ more middle at_ above ih =>
    have past : v < middle.start := by
      rw [← lawful.above]
      omega
    unfold findlabfrom
    rw [dif_pos more, at_]
    simp only
    rw [if_neg above]
    apply ih
    · exact low
    · by_contra beyond
      rcases Nat.eq_or_lt_of_le (Nat.le_of_not_lt beyond) with same | before
      · rw [same, is] at at_
        obtain rfl := Option.some.inj at_
        exact absurd has.1 (not_le.2 past)
      · have apart := lined.before at_ is before
        have nonempty := lined.nonempty middle (mem_of_getElem? at_)
        exact absurd (nonempty.trans (apart.le.trans has.1)) (not_le.2 past)
    · omega
    · omega
  | case4 _ _ done =>
    unfold findlabfrom
    rw [dif_neg done]
    congr 1
    omega

theorem findlab_of_has (lawful : ctype.Lawful) (lined : Lined labs) {k : Nat}
    (is : labs[k]? = some lab) (has : lab.Has v) : findlab ctype v labs = some k := by
  have inside := (List.getElem?_eq_some_iff.1 is).1
  unfold findlab
  by_cases few : labs.length ≤ 1
  · rw [if_pos few]
    congr 1
    omega
  have found := findlabfrom_spec lawful lined is has 1 labs.length (by omega) inside
    (Nat.le_refl _) (by omega)
  have low : ¬ 0 < ctype.casecmp lab.start v := by
    rw [lawful.above, not_lt]
    exact has.1
  have high : ¬ ctype.casecmp lab.stop v < 0 := by
    rw [lawful.below, not_lt]
    exact has.2
  rw [if_neg few, found, Option.bind_some, Nat.add_sub_cancel, is, Option.bind_some,
    if_neg (not_or.2 ⟨low, high⟩)]

end Found

/-! ### The labels before they are sorted -/

section Unsorted

variable {arms : List (Arm α)} {node : Nat} {lab : Label α} {v : α}

theorem has_label {qual : Qual α} (is : qual.label node = some lab) :
    lab.Has v ↔ qual.Holds v := by
  cases qual with
  | const _ =>
    cases is
    exact ⟨fun has => le_antisymm has.2 has.1, fun same => ⟨same.ge, same.le⟩⟩
  | range _ _ =>
    cases is
    exact Iff.rfl
  | wild => cases is

omit [LinearOrder α] in
theorem shape_label {qual : Qual α} (is : qual.label node = some lab) :
    lab.node = node ∧ lab.inst = none ∧ (lab.one = true → lab.stop = lab.start) := by
  cases qual with
  | const _ =>
    cases is
    exact ⟨rfl, rfl, fun _ => rfl⟩
  | range _ _ =>
    cases is
    exact ⟨rfl, rfl, nofun⟩
  | wild => cases is

omit [LinearOrder α] in
theorem mem_labels : lab ∈ labels node arms ↔
    ∃ k qual, Has arms k qual ∧ qual.label (node + k) = some lab := by
  induction arms generalizing node with
  | nil =>
    constructor
    · intro member
      exact absurd member not_mem_nil
    · rintro ⟨k, qual, ⟨arm, is, -⟩, -⟩
      exact absurd is (by simp)
  | cons arm _ ih =>
    unfold labels
    rw [mem_append, mem_filterMap, ih]
    constructor
    · rintro (⟨qual, member, is⟩ | ⟨k, qual, ⟨arm', at_, member⟩, is⟩)
      · exact ⟨0, qual, ⟨arm, rfl, member⟩, is⟩
      refine ⟨k + 1, qual, ⟨arm', at_, member⟩, ?_⟩
      rw [← is]
      congr 1
      omega
    rintro ⟨k, qual, ⟨arm', at_, member⟩, is⟩
    cases k with
    | zero =>
      cases at_
      exact Or.inl ⟨qual, member, is⟩
    | succ k =>
      refine Or.inr ⟨k, qual, ⟨arm', at_, member⟩, ?_⟩
      rw [← is]
      congr 1
      omega

theorem labels_apart (apart : (arms.flatMap Arm.quals).Pairwise Qual.Apart) :
    (labels node arms).Pairwise fun a b => ∀ v, a.Has v → ¬ b.Has v := by
  induction arms generalizing node with
  | nil => exact List.Pairwise.nil
  | cons _ _ ih =>
    rw [flatMap_cons, pairwise_append] at apart
    have ⟨here, later, across⟩ := apart
    unfold labels
    rw [pairwise_append]
    refine ⟨?_, ih later, ?_⟩
    · rw [pairwise_filterMap]
      apply here.imp
      intro a b apart _ isA _ isB v hasA hasB
      exact apart.1 v ((has_label isA).1 hasA) ((has_label isB).1 hasB)
    intro _ memberA _ memberB v hasA hasB
    have ⟨qual, inArm, isA⟩ := mem_filterMap.1 memberA
    have ⟨k, qual', ⟨arm', at_, member⟩, isB⟩ := mem_labels.1 memberB
    have inRest := mem_flatMap.2 ⟨arm', mem_of_getElem? at_, member⟩
    exact (across qual inArm qual' inRest).1 v ((has_label isA).1 hasA) ((has_label isB).1 hasB)

theorem nonempty_label (proper : Proper arms) (member : lab ∈ labels 0 arms) :
    lab.start ≤ lab.stop := by
  have ⟨k, qual, ⟨arm, at_, inArm⟩, is⟩ := mem_labels.1 member
  cases qual with
  | const p =>
    cases is
    exact le_refl p
  | range p q =>
    cases is
    exact proper.nonempty arm (mem_of_getElem? at_) p q inArm
  | wild => cases is

end Unsorted

/-! ### The check -/

section Checklabels

variable {ctype : Ctype α} {arms : List (Arm α)}

theorem lined_casesort (lawful : ctype.Lawful) (proper : Proper arms) :
    Lined (casesort ctype (labels 0 arms)) := by
  have perm : (casesort ctype (labels 0 arms)).Perm (labels 0 arms) := mergeSort_perm _ _
  have below (a b : Label α) :
      decide (ctype.casecmp a.start b.start ≤ 0) = true ↔ a.start ≤ b.start := by
    rw [decide_eq_true_eq, ← not_lt, lawful.above, not_lt]
  have sorted : (casesort ctype (labels 0 arms)).Pairwise fun a b => a.start ≤ b.start := by
    apply (pairwise_mergeSort _ _ _).imp
    · intro a b
      exact (below a b).1
    · intro a b _ first second
      rw [below] at first second ⊢
      exact first.trans second
    · intro a b
      rw [Bool.or_eq_true, below, below]
      exact le_total _ _
  have nonempty : ∀ lab ∈ casesort ctype (labels 0 arms), lab.start ≤ lab.stop :=
    fun lab member => nonempty_label proper (perm.mem_iff.1 member)
  refine ⟨nonempty, ?_⟩
  have apart : (casesort ctype (labels 0 arms)).Pairwise fun a b => ∀ v, a.Has v → ¬ b.Has v :=
    perm.symm.pairwise (labels_apart proper.apart) fun apart v has has' => apart v has' has
  apply (sorted.and apart).imp_of_mem
  rintro a b memberA memberB ⟨ordered, apart⟩
  rw [← not_le]
  intro overlap
  exact apart b.start ⟨ordered, overlap⟩ ⟨le_refl _, nonempty b memberB⟩

/-- The labels `out` are those of `labs`, some of which have become one. -/
structure Merges (labs out : List (Label α)) : Prop extends Lined out where
  low : ∀ o ∈ out, ∃ l ∈ labs.head?, l.start ≤ o.start
  one : (∀ l ∈ labs, l.one = true → l.stop = l.start) → ∀ o ∈ out, o.one = true → o.stop = o.start
  inst : (∀ l ∈ labs, l.inst = none) → ∀ o ∈ out, o.inst = none
  covers : ∀ l ∈ labs, ∃ o ∈ out, o.node = l.node ∧ ∀ v, l.Has v → o.Has v
  covered : ∀ o ∈ out, ∀ v, o.Has v → ∃ l ∈ labs, l.node = o.node ∧ l.Has v

/-- A label that follows on one of the same arm is merged with it. -/
theorem Merges.join {next : Label α} {rest out : List (Label α)}
    (lined : Lined (lab :: next :: rest)) (node : next.node = lab.node)
    (follows : ∀ v, v ≤ lab.stop ∨ next.start ≤ v)
    (merges : Merges ({ lab with stop := next.stop, one := false } :: rest) out) :
    Merges (lab :: next :: rest) out := by
  have first := lined.nonempty lab (mem_cons_self ..)
  have second := lined.nonempty next (by simp)
  have between : lab.stop < next.start :=
    (pairwise_cons.1 lined.sorted).1 next (mem_cons_self ..)
  have part (v : α) : (lab.Has v ∨ next.Has v) ↔
      ({ lab with stop := next.stop, one := false } : Label α).Has v := by
    constructor
    · rintro (has | has)
      · exact ⟨has.1, has.2.trans (between.le.trans second)⟩
      · exact ⟨first.trans (between.le.trans has.1), has.2⟩
    intro has
    rcases follows v with inFirst | inSecond
    · exact Or.inl ⟨has.1, inFirst⟩
    · exact Or.inr ⟨inSecond, has.2⟩
  refine ⟨merges.toLined, ?_, ?_, ?_, ?_, ?_⟩
  · intro o member
    have ⟨l, is, low⟩ := merges.low o member
    cases is
    exact ⟨lab, rfl, low⟩
  · intro one
    apply merges.one
    intro l member
    rcases mem_cons.1 member with rfl | inRest
    · nofun
    · exact one l (by simp [inRest])
  · intro inst
    apply merges.inst
    intro l member
    rcases mem_cons.1 member with rfl | inRest
    · exact inst lab (mem_cons_self ..)
    · exact inst l (by simp [inRest])
  · intro l member
    have ⟨o, inOut, sameNode, covers⟩ :=
      merges.covers { lab with stop := next.stop, one := false } (mem_cons_self ..)
    rcases mem_cons.1 member with rfl | later
    · exact ⟨o, inOut, sameNode, fun v has => covers v ((part v).1 (Or.inl has))⟩
    · rcases mem_cons.1 later with rfl | inRest
      · exact ⟨o, inOut, sameNode.trans node.symm, fun v has => covers v ((part v).1 (Or.inr has))⟩
      · exact merges.covers l (mem_cons_of_mem _ inRest)
  · intro o inOut v has
    have ⟨l, member, sameNode, hasL⟩ := merges.covered o inOut v has
    rcases mem_cons.1 member with rfl | inRest
    · rcases (part v).2 hasL with inFirst | inSecond
      · exact ⟨lab, mem_cons_self .., sameNode, inFirst⟩
      · exact ⟨next, by simp, node.trans sameNode, inSecond⟩
    · exact ⟨l, by simp [inRest], sameNode, hasL⟩

theorem Merges.cons {lab next : Label α} {rest out : List (Label α)}
    (lined : Lined (lab :: next :: rest)) (merges : Merges (next :: rest) out) :
    Merges (lab :: next :: rest) (lab :: out) := by
  have first := lined.nonempty lab (mem_cons_self ..)
  have between : lab.stop < next.start :=
    (pairwise_cons.1 lined.sorted).1 next (mem_cons_self ..)
  have behind : ∀ o ∈ out, lab.stop < o.start := by
    intro o inOut
    have ⟨l, is, low⟩ := merges.low o inOut
    cases is
    exact between.trans_le low
  refine ⟨⟨?_, pairwise_cons.2 ⟨behind, merges.sorted⟩⟩, ?_, ?_, ?_, ?_, ?_⟩
  · intro o member
    rcases mem_cons.1 member with rfl | inOut
    · exact first
    · exact merges.nonempty o inOut
  · intro o member
    refine ⟨lab, rfl, ?_⟩
    rcases mem_cons.1 member with rfl | inOut
    · exact le_refl _
    · exact first.trans (behind o inOut).le
  · intro one o member
    rcases mem_cons.1 member with rfl | inOut
    · exact one o (mem_cons_self ..)
    · exact merges.one (forall_mem_cons.1 one).2 o inOut
  · intro inst o member
    rcases mem_cons.1 member with rfl | inOut
    · exact inst o (mem_cons_self ..)
    · exact merges.inst (forall_mem_cons.1 inst).2 o inOut
  · intro l member
    rcases mem_cons.1 member with rfl | later
    · exact ⟨l, mem_cons_self .., rfl, fun _ has => has⟩
    · have ⟨o, inOut, sameNode, covers⟩ := merges.covers l later
      exact ⟨o, mem_cons_of_mem _ inOut, sameNode, covers⟩
  intro o member v has
  rcases mem_cons.1 member with rfl | inOut
  · exact ⟨o, mem_cons_self .., rfl, has⟩
  · have ⟨l, inRest, sameNode, hasL⟩ := merges.covered o inOut v has
    exact ⟨l, mem_cons_of_mem _ inRest, sameNode, hasL⟩

theorem Merges.single (lined : Lined [lab]) : Merges [lab] [lab] where
  toLined := lined
  low := by
    intro o member
    rw [mem_singleton.1 member]
    exact ⟨lab, rfl, le_refl _⟩
  one := id
  inst := id
  covers := fun l member => ⟨l, member, rfl, fun _ has => has⟩
  covered := fun o member _ has => ⟨o, member, rfl, has⟩

theorem checkfrom_merges (lawful : ctype.Lawful) (rest : List (Label α)) : ∀ lab : Label α,
    Lined (lab :: rest) → ∃ out, checkfrom ctype lab rest = some out ∧ Merges (lab :: rest) out := by
  induction rest with
  | nil => exact fun lab lined => ⟨[lab], rfl, Merges.single lined⟩
  | cons next rest ih =>
    intro lab lined
    have between : lab.stop < next.start :=
      (pairwise_cons.1 lined.sorted).1 next (mem_cons_self ..)
    have first := lined.nonempty lab (mem_cons_self ..)
    have second := lined.nonempty next (by simp)
    have noOverlap : ¬ ctype.casecmp next.start lab.stop ≤ 0 := by
      rw [not_le, lawful.above]
      exact between
    unfold checkfrom
    rw [if_neg noOverlap]
    by_cases joins : ctype.follows next.start lab.stop ∧ next.node = lab.node
    · rw [if_pos joins]
      have joined : Lined ({ lab with stop := next.stop, one := false } :: rest) := by
        refine ⟨?_, pairwise_cons.2 ⟨(pairwise_cons.1 lined.tail.sorted).1,
          lined.tail.tail.sorted⟩⟩
        intro l member
        rcases mem_cons.1 member with rfl | inRest
        · exact first.trans (between.le.trans second)
        · exact lined.nonempty l (by simp [inRest])
      have ⟨out, result, merges⟩ := ih _ joined
      exact ⟨out, result, merges.join lined joins.2 (lawful.follows _ _ joins.1)⟩
    · have matchable : ¬ 0 < ctype.casecmp next.start next.stop := by
        rw [lawful.above, not_lt]
        exact second
      rw [if_neg joins, if_neg matchable]
      have ⟨out, result, merges⟩ := ih next lined.tail
      refine ⟨lab :: out, ?_, merges.cons lined⟩
      rw [result]
      rfl

theorem checked_of_merges {out : List (Label α)}
    (merges : Merges (casesort ctype (labels 0 arms)) out) : Checked arms out := by
  have perm : (casesort ctype (labels 0 arms)).Perm (labels 0 arms) := mergeSort_perm _ _
  have unsorted {lab : Label α} (member : lab ∈ casesort ctype (labels 0 arms)) :
      ∃ k qual, Has arms k qual ∧ qual.label k = some lab := by
    have ⟨k, qual, has, is⟩ := mem_labels.1 (perm.mem_iff.1 member)
    rw [Nat.zero_add] at is
    exact ⟨k, qual, has, is⟩
  refine ⟨merges.toLined, merges.one ?_, merges.inst ?_, ?_, ?_⟩
  · intro lab member
    obtain ⟨k, qual, -, is⟩ := unsorted member
    exact (shape_label is).2.2
  · intro lab member
    obtain ⟨k, qual, -, is⟩ := unsorted member
    exact (shape_label is).2.1
  · intro k qual has notWild
    obtain ⟨lab, is⟩ : ∃ lab, qual.label k = some lab := by
      cases qual with
      | const _ => exact ⟨_, rfl⟩
      | range _ _ => exact ⟨_, rfl⟩
      | wild => exact absurd rfl notWild
    have member : lab ∈ casesort ctype (labels 0 arms) :=
      perm.mem_iff.2 (mem_labels.2 ⟨k, qual, has, by rw [Nat.zero_add]; exact is⟩)
    have ⟨o, inOut, sameNode, covers⟩ := merges.covers lab member
    exact ⟨o, inOut, sameNode.trans (shape_label is).1,
      fun v holds => covers v ((has_label is).2 holds)⟩
  · intro o inOut v has
    have ⟨_, member, sameNode, hasLab⟩ := merges.covered o inOut v has
    have ⟨_, qual, hasQual, is⟩ := unsorted member
    rw [← sameNode, (shape_label is).1]
    exact ⟨qual, hasQual, (has_label is).1 hasLab⟩

theorem checklabels_checked (lawful : ctype.Lawful) (proper : Proper arms) :
    ∃ labs, checklabels ctype arms = some labs ∧ Checked arms labs := by
  have lined := lined_casesort lawful proper
  unfold checklabels
  cases sorted : casesort ctype (labels 0 arms) with
  | nil =>
    have merges : Merges (casesort ctype (labels 0 arms)) [] := by
      rw [sorted]
      exact ⟨⟨nofun, List.Pairwise.nil⟩, nofun, nofun, nofun, nofun, nofun⟩
    exact ⟨[], rfl, checked_of_merges merges⟩
  | cons lab rest =>
    rw [sorted] at lined
    have matchable : ¬ 0 < ctype.casecmp lab.start lab.stop := by
      rw [lawful.above, not_lt]
      exact lined.nonempty lab (mem_cons_self ..)
    have ⟨out, result, merges⟩ := checkfrom_merges lawful rest lab lined
    rw [← sorted] at merges
    refine ⟨out, ?_, checked_of_merges merges⟩
    simp only
    rw [if_neg matchable, result]

end Checklabels

end Infernode.Limbo
