import Infernode.Dis.Jumps
import Infernode.Dis.Strtables

/-!
The body that a case selects.

Owns: that compiling, loading and running a case takes every selector to the body of the label that
has it, and when it does not.
-/

namespace Infernode.Dis

open Limbo Search Text List

/-! ### Pcs -/

/-- The loader takes no module with more instructions, or with more data, than these. In every
table a label has a word at least. -/
structure Loads {α : Type} (ctype : Ctype α) (origin : Nat) (arms : List (Arm α)) : Prop where
  instructions : finish origin arms ≤ 1024 * 1024
  data : ∀ labs, checklabels ctype arms = some labs → IBY2WD * labs.length ≤ 128 * 1024 * 1024

variable {k : Nat} {qual : Qual Int}

variable {origin : Nat} {α : Type}

section Pcs

variable {α : Type}

theorem entry_le_finish (arms : List (Arm α)) : ∀ origin k,
    origin ≤ entry origin arms k ∧ entry origin arms k ≤ finish origin arms := by
  induction arms with
  | nil =>
    intro origin k
    cases k with
    | zero => exact ⟨Nat.le_refl origin, Nat.le_refl origin⟩
    | succ _ => exact ⟨Nat.le_refl origin, Nat.le_refl origin⟩
  | cons arm rest ih =>
    intro origin k
    have later := ih (origin + arm.size + 1)
    cases k with
    | zero =>
      have bounds := later 0
      show origin ≤ origin ∧ origin ≤ finish (origin + arm.size + 1) rest
      omega
    | succ k =>
      have bounds := later k
      show origin ≤ entry (origin + arm.size + 1) rest k ∧ _
      exact ⟨by omega, bounds.2⟩

/-- The bodies are behind each other, and the end is behind them all. -/
theorem entry_lt_finish (arms : List (Arm α)) : ∀ origin k, k < arms.length →
    entry origin arms k < finish origin arms ∧
      ∀ k' < k, entry origin arms k' < entry origin arms k := by
  induction arms with
  | nil => exact fun origin k inside => absurd inside (Nat.not_lt_zero k)
  | cons arm rest ih =>
    intro origin k inside
    cases k with
    | zero =>
      have bounds := entry_le_finish rest (origin + arm.size + 1) 0
      refine ⟨?_, fun k' before => absurd before (Nat.not_lt_zero k')⟩
      show origin < finish (origin + arm.size + 1) rest
      omega
    | succ k =>
      have later := ih (origin + arm.size + 1) k (Nat.lt_of_succ_lt_succ inside)
      refine ⟨later.1, ?_⟩
      intro k' before
      cases k' with
      | zero =>
        have bounds := entry_le_finish rest (origin + arm.size + 1) k
        show origin < entry (origin + arm.size + 1) rest k
        omega
      | succ k' => exact later.2 k' (Nat.lt_of_succ_lt_succ before)

variable {arms : List (Arm α)}

theorem has_inside {qual : Qual α} (has : Has arms k qual) : k < arms.length := by
  obtain ⟨_, is, -⟩ := has
  exact (List.getElem?_eq_some_iff.1 is).1

/-- The default is the body of an arm only where the arm has `*`. -/
theorem defaultOf_eq_entry [LinearOrder α] (proper : Proper arms) (inside : k < arms.length) :
    defaultOf origin arms = entry origin arms k ↔ Has arms k .wild := by
  constructor
  · intro same
    by_cases any : ∃ pc, (pc, .wild) ∈ placed origin arms
    · have ⟨pc, member⟩ := any
      rw [defaultOf_of_wild proper member] at same
      have ⟨k', has, _⟩ := mem_placed.1 member
      have inside' := has_inside has
      rcases Nat.lt_trichotomy k k' with before | equal | after
      · have less := (entry_lt_finish arms origin k' inside').2 k before
        omega
      · rw [equal]
        exact has
      · have less := (entry_lt_finish arms origin k inside).2 k' after
        omega
    · have behind := (entry_lt_finish arms origin k inside).1
      rw [defaultOf_of_none fun pc member => any ⟨pc, member⟩] at same
      omega
  · intro has
    exact defaultOf_of_wild proper (mem_placed.2 ⟨k, has, rfl⟩)

theorem defaultOf_le_finish [LinearOrder α] (proper : Proper arms) :
    defaultOf origin arms ≤ finish origin arms := by
  by_cases any : ∃ pc, (pc, .wild) ∈ placed origin arms
  · have ⟨pc, member⟩ := any
    rw [defaultOf_of_wild proper member]
    obtain ⟨k, -, is⟩ := mem_placed.1 member
    rw [is]
    exact (entry_le_finish arms origin k).2
  · rw [defaultOf_of_none fun pc member => any ⟨pc, member⟩]

theorem bodyOf_le_finish [LinearOrder α] (proper : Proper arms) (v : α) :
    bodyOf origin arms v ≤ finish origin arms := by
  by_cases any : ∃ item ∈ placed origin arms, item.2.Holds v
  · have ⟨⟨pc, qual⟩, member, holds⟩ := any
    rw [bodyOf_of_holds proper member holds]
    obtain ⟨k, -, is⟩ := mem_placed.1 member
    rw [is]
    exact (entry_le_finish arms origin k).2
  · rw [bodyOf_of_none fun pc qual member holds => any ⟨(pc, qual), member, holds⟩]
    exact defaultOf_le_finish proper

theorem inWord_pc {pc : Nat} (small : pc ≤ 1024 * 1024) : InWord pc := by
  unfold InWord
  omega

end Pcs

/-! ### Tables of labels -/

section Labelled

variable {α : Type} [LinearOrder α] {ctype : Ctype α} {origin : Nat} {arms : List (Arm α)}
  {labs : List (Label α)}

/-- The case as `casecom` leaves it. -/
def cased (origin : Nat) (arms : List (Arm α)) (labs : List (Label α)) : Cse α :=
  ⟨labs.map fun lab => { lab with inst := some (entry origin arms lab.node) },
    defaultOf origin arms⟩

omit [LinearOrder α] in
theorem mem_cased {lab : Label α} (member : lab ∈ (cased origin arms labs).labs) :
    ∃ lab' ∈ labs, lab = { lab' with inst := some (entry origin arms lab'.node) } := by
  have ⟨lab', inLabs, is⟩ := mem_map.1 member
  exact ⟨lab', inLabs, is.symm⟩

theorem fitting_cased (proper : Proper arms) (loads : Loads ctype origin arms)
    (checks : checklabels ctype arms = some labs) : Fitting (cased origin arms labs) where
  few := by
    have data := loads.data labs checks
    unfold IBY2WD at data
    have length : (cased origin arms labs).labs.length = labs.length := length_map _
    omega
  pcs := by
    intro _ member
    obtain ⟨lab', -, rfl⟩ := mem_cased member
    exact inWord_pc ((entry_le_finish arms origin lab'.node).2.trans loads.instructions)
  wild := inWord_pc ((defaultOf_le_finish proper).trans loads.instructions)

theorem lined_cased (lined : Lined labs) : Lined (cased origin arms labs).labs := by
  have marked : Marked labs (cased origin arms labs).labs
      fun i => (labs[i]?).bind fun lab => some (entry origin arms lab.node) := by
    intro i
    unfold cased
    rw [getElem?_map]
    beta_reduce
    cases labs[i]? with
    | none => rfl
    | some _ => rfl
  exact marked.lined lined

end Labelled

/-! ### Cases of numbers -/

/-- The value of a qualifier that goes up to `top`. -/
def Tops (top : Int) : Qual Int → Prop
  | .const p => p = top
  | .range _ q => q = top
  | .wild => False

def Numbers (half : Int) (arms : List (Arm Int)) : Prop :=
  ∀ k qual, Has arms k qual → ∀ v, qual.Holds v → -half ≤ v ∧ v < half

section Numbered

variable {origin : Nat} {arms : List (Arm Int)} {labs : List (Label Int)} {half v : Int}

theorem ranged_of_checked (checked : Checked arms labs) (numbers : Numbers half arms) :
    Ranged half labs := by
  intro lab member
  have nonempty := checked.nonempty lab member
  have ⟨qual, has, holds⟩ := checked.covered lab member lab.start ⟨le_refl _, nonempty⟩
  have ⟨qual', has', holds'⟩ := checked.covered lab member lab.stop ⟨nonempty, le_refl _⟩
  exact ⟨numbers _ qual has _ holds, numbers _ qual' has' _ holds'⟩

theorem ranged_cased (ranged : Ranged half labs) :
    Ranged half (cased origin arms labs).labs := by
  intro _ member
  obtain ⟨lab', inLabs, rfl⟩ := mem_cased member
  exact ranged lab' inLabs

theorem tops_of_holds (numbers : Numbers half arms) (has : Has arms k qual)
    (holds : qual.Holds (half - 1)) : Tops (half - 1) qual := by
  cases qual with
  | const p =>
    have same : half - 1 = p := holds
    exact same.symm
  | range p q =>
    have inside : p ≤ half - 1 ∧ half - 1 ≤ q := holds
    have upper := (numbers k _ has q ⟨inside.1.trans inside.2, le_refl _⟩).2
    show q = half - 1
    omega
  | wild => exact holds.elim

theorem holds_of_tops (proper : Proper arms) (has : Has arms k qual) {top : Int}
    (tops : Tops top qual) : qual.Holds top := by
  cases qual with
  | const _ => exact tops.symm
  | range p q =>
    have ⟨arm, is, member⟩ := has
    have nonempty := proper.nonempty arm (mem_of_getElem? is) p q member
    have same : q = top := tops
    rw [← same]
    exact ⟨nonempty, le_refl _⟩
  | wild => exact tops.elim

variable {stride base : Nat} {entry : Nat → Label Int → List (Nat × Datum)}

/-- The search of a table selects the body of the number, where an arm with the greatest number has
`*` as well. -/
theorem searched_cased (placing : Placing stride base entry half) (proper : Proper arms)
    (checked : Checked arms labs) (fitting : Fitting (cased origin arms labs))
    (numbers : Numbers half arms)
    (wilds : ∀ k qual, Has arms k qual → Tops (half - 1) qual → Has arms k .wild)
    (least : -half ≤ v) :
    searched stride base entry (cased origin arms labs) v = bodyOf origin arms v := by
  have ranged : Ranged half (cased origin arms labs).labs :=
    ranged_cased (ranged_of_checked checked numbers)
  have lined : Lined (cased origin arms labs).labs := lined_cased checked.toLined
  by_cases any : ∃ lab ∈ labs, lab.Has v
  · have ⟨lab, member, has⟩ := any
    have body : bodyOf origin arms v = Limbo.entry origin arms lab.node :=
      bodyOf_of_has proper checked member has
    have inCased : { lab with inst := some (Limbo.entry origin arms lab.node) } ∈
        (cased origin arms labs).labs := mem_map.2 ⟨lab, member, rfl⟩
    by_cases top : lab.stop = half - 1
    · have only : ∀ lab' ∈ (cased origin arms labs).labs, lab'.Has v → lab'.stop = half - 1 := by
        intro lab' member' has'
        obtain ⟨original, inLabs, rfl⟩ := mem_cased member'
        have same : original = lab := checked.unique inLabs member has' has
        rw [same]
        exact top
      have missing := placing.of_none lined fitting ranged least only
      have ⟨qual, hasQual, holds⟩ := checked.covered lab member lab.stop
        ⟨checked.nonempty lab member, le_refl _⟩
      rw [top] at holds
      have wild := wilds _ qual hasQual (tops_of_holds numbers hasQual holds)
      rw [missing, body, ← (defaultOf_eq_entry proper (has_inside hasQual)).2 wild]
      rfl
    · rw [placing.of_has lined fitting ranged least inCased has top, body]
      rfl
  · have none : ∀ lab ∈ labs, ¬ lab.Has v := fun lab member has => any ⟨lab, member, has⟩
    rw [bodyOf_of_no_label checked none]
    apply placing.of_none lined fitting ranged least
    intro _ member' has'
    obtain ⟨original, inLabs, rfl⟩ := mem_cased member'
    exact absurd has' (none original inLabs)

theorem searched_greatest (placing : Placing stride base entry half) (checked : Checked arms labs)
    (fitting : Fitting (cased origin arms labs)) (numbers : Numbers half arms)
    (positive : 0 < half) :
    searched stride base entry (cased origin arms labs) (half - 1) = defaultOf origin arms := by
  have ranged := ranged_of_checked checked numbers
  apply placing.of_none (lined_cased checked.toLined) fitting (ranged_cased ranged) (by omega)
  intro _ member has
  obtain ⟨original, inLabs, rfl⟩ := mem_cased member
  have upper := (ranged original inLabs).2
  have reaches : half - 1 ≤ original.stop := has.2
  show original.stop = half - 1
  omega

/-- An arm with the greatest number whose numbers come to its body has `*`. -/
theorem wild_of_searched (placing : Placing stride base entry half) (proper : Proper arms)
    (checked : Checked arms labs) (fitting : Fitting (cased origin arms labs))
    (numbers : Numbers half arms) (positive : 0 < half)
    (right : searched stride base entry (cased origin arms labs) (half - 1) =
      bodyOf origin arms (half - 1)) (has : Has arms k qual) (tops : Tops (half - 1) qual) :
    Has arms k .wild := by
  have holds := holds_of_tops proper has tops
  have body : bodyOf origin arms (half - 1) = Limbo.entry origin arms k :=
    bodyOf_of_holds proper (mem_placed.2 ⟨k, has, rfl⟩) holds
  rw [searched_greatest placing checked fitting numbers positive, body] at right
  exact (defaultOf_eq_entry proper (has_inside has)).1 (Int.ofNat_inj.1 right)

end Numbered

/-! ### Cases of ints -/

/-- The case goes to the bodies that its selectors select, and its two forms agree. -/
structure IntRight (indirect : Bool) (origin : Nat) (arms : List (Arm Int)) : Prop where
  bodies : ∃ f, caseint indirect origin arms = some f ∧
    ∀ v, InWord v → f v = some (bodyOf origin arms v : Int)
  agree : ∀ labs, checklabels tint arms = some labs → jumps labs = true →
    ∃ f g, jumpform indirect origin arms labs = some f ∧ tableform origin arms labs = some g ∧
      ∀ v, InWord v → f v = g v

/-- An arm with the greatest int has `*` as well. Where a table of jumps is made, the int is a
constant and there is a label for each value. -/
structure IntSafe (arms : List (Arm Int)) : Prop where
  wilds : ∀ k qual, Has arms k qual → Tops (2147483648 - 1) qual → Has arms k .wild
  filled : ∀ labs, checklabels tint arms = some labs → jumps labs = true →
    ∀ k qual, Has arms k qual → Tops (2147483648 - 1) qual →
      Full labs ∧ ∀ p q, qual ≠ .range p q

section Ints

variable {indirect : Bool} {origin : Nat} {arms : List (Arm Int)} {labs : List (Label Int)}

theorem tableform_eq (proper : Proper arms) (checked : Checked arms labs) :
    tableform origin arms labs = some fun v =>
      some (searched (3 * IBY2WD) IBY2WD intentry (cased origin arms labs) v) := by
  unfold tableform
  rw [casecom_cased lawful_tint proper checked]
  rfl

theorem ints_of_ranged (ranged : Ranged 2147483648 labs) : Ints labs := by
  intro lab member
  have range := ranged lab member
  exact ⟨⟨range.1.1, by omega⟩, ⟨range.2.1, by omega⟩⟩

theorem tops_of_stop (checked : Checked arms labs) (numbers : Numbers 2147483648 arms)
    {lab : Label Int} (member : lab ∈ labs) (top : lab.stop = 2147483647) :
    ∃ k qual, Has arms k qual ∧ Tops (2147483648 - 1) qual := by
  have ⟨qual, has, holds⟩ := checked.covered lab member lab.stop
    ⟨checked.nonempty lab member, le_refl _⟩
  rw [top] at holds
  exact ⟨_, qual, has, tops_of_holds numbers has holds⟩

/-- The values of the qualifiers are those of the table. -/
theorem jumpable_of_checked (proper : Proper arms) (checked : Checked arms labs) (numbers : Numbers 2147483648 arms)
    {first last : Int} (spans : Spans labs first last) {length : Nat}
    (size : (length : Int) = last - first + 1)
    (ends : ∀ k p, ¬ Has arms k (.range p 2147483647)) : Jumpable origin arms first length := by
  refine ⟨?_, ?_, ?_⟩
  · intro item member v holds
    obtain ⟨k, has, -⟩ := mem_placed.1 member
    have notWild : item.2 ≠ .wild := by
      intro wild
      rw [wild] at holds
      exact holds
    obtain ⟨_, inLabs, -, covers⟩ := checked.covers k item.2 has notWild
    have inside := covers v holds
    unfold Label.Has at inside
    have ⟨_, is⟩ := mem_iff_getElem?.1 inLabs
    have within := (List.getElem?_eq_some_iff.1 is).1
    have bounds := checked.before_last spans is
    exact ⟨by omega, by omega⟩
  · intro item member v holds
    obtain ⟨k, has, -⟩ := mem_placed.1 member
    have range := numbers k item.2 has v holds
    exact ⟨range.1, by omega⟩
  · intro _ member p q is
    obtain ⟨k, has, -⟩ := mem_placed.1 member
    rw [is] at has
    have ⟨arm, at_, inArm⟩ := has
    have nonempty := proper.nonempty arm (mem_of_getElem? at_) p q inArm
    have upper := (numbers k _ ⟨arm, at_, inArm⟩ q ⟨nonempty, le_refl _⟩).2
    by_contra greatest
    have same : q = 2147483647 := by omega
    rw [same] at inArm
    exact ends k p ⟨arm, at_, inArm⟩

/-- A table of jumps that can be filled in goes to the bodies. -/
theorem jumpform_right (proper : Proper arms) (checked : Checked arms labs)
    (numbers : Numbers 2147483648 arms) (loads : Loads tint origin arms)
    (checks : checklabels tint arms = some labs) (chosen : jumps labs = true)
    (safe : ∀ k qual, Has arms k qual → Tops (2147483648 - 1) qual →
      Full labs ∧ ∀ p q, qual ≠ .range p q) :
    ∃ f, jumpform indirect origin arms labs = some f ∧
      ∀ v, InWord v → f v = some (bodyOf origin arms v : Int) := by
  have ints := ints_of_ranged (ranged_of_checked checked numbers)
  have ⟨first, last, spans, _, _, spread⟩ :=
    spread_of_jumps checked.toLined ints chosen
  have ⟨f, head, start⟩ := spans.head
  have ⟨l, tail, stop⟩ := spans.last
  have lowest : InWord first := by
    rw [← start]
    exact (ints f (mem_of_head? head)).1
  have highest : InWord last := by
    rw [← stop]
    exact (ints l (mem_of_getLast? tail)).2
  have ends : last < 2147483647 ∨ Full labs := by
    by_cases top : last = 2147483647
    · have ⟨k, qual, has, tops⟩ :=
        tops_of_stop checked numbers (mem_of_getLast? tail) (stop.trans top)
      exact Or.inr (safe k qual has tops).1
    · unfold InWord at highest
      exact Or.inl (by omega)
  have ⟨out, made, dense, length, clear⟩ :=
    dogoto_dense checked.toLined ints chosen spans ends
  have jumpable := @jumpable_of_checked origin arms labs proper checked numbers first last spans
    out.length length (fun k p has => (safe k _ has rfl).2 _ _ rfl)
  have ⟨c, compiled, denseC, lengthC, wild, pcs⟩ := gotocom_dense proper dense clear jumpable
  have jumptable : Jumptable c first := by
    refine ⟨denseC, by omega, lowest, ?_, ?_, ?_, ?_⟩
    · rw [lengthC, length, show first + (last - first + 1) - 1 = last by omega]
      exact highest
    · have few := loads.data labs checks
      have spread := spread f l head tail
      unfold IBY2WD at few
      unfold jumps at chosen
      rw [head, tail] at chosen
      simp only [decide_eq_true_eq] at chosen
      omega
    · intro lab member
      have ⟨i, is⟩ := mem_iff_getElem?.1 member
      unfold pcof
      rw [pcs i lab is]
      exact inWord_pc ((bodyOf_le_finish proper _).trans loads.instructions)
    · rw [wild]
      exact inWord_pc ((defaultOf_le_finish proper).trans loads.instructions)
  refine ⟨_, by unfold jumpform; rw [made, Option.bind_some, compiled]; rfl, ?_⟩
  intro v word
  beta_reduce
  by_cases inside : ∃ i < c.labs.length, v = first + (i : Int)
  · obtain ⟨i, inside, rfl⟩ := inside
    have is := getElem?_eq_getElem inside
    rw [dispatch_of_label jumptable indirect is rfl]
    unfold pcof
    rw [pcs i _ is]
    rfl
  have outside : ∀ i < c.labs.length, v ≠ first + (i : Int) :=
    fun i within same => inside ⟨i, within, same⟩
  rw [dispatch_of_none jumptable word indirect outside, wild]
  have none : ∀ lab ∈ labs, ¬ lab.Has v := by
    intro _ member has
    unfold Label.Has at has
    have ⟨_, is⟩ := mem_iff_getElem?.1 member
    have within := (List.getElem?_eq_some_iff.1 is).1
    have bounds := checked.before_last spans is
    apply outside (v - first).toNat
    · omega
    · omega
  rw [bodyOf_of_no_label checked none]

theorem jumpform_greatest (proper : Proper arms) (checked : Checked arms labs)
    (numbers : Numbers 2147483648 arms) (chosen : jumps labs = true) (has : Has arms k qual)
    (tops : Tops (2147483648 - 1) qual) (unfilled : ¬ (Full labs ∧ ∀ p q, qual ≠ .range p q)) :
    jumpform indirect origin arms labs = none := by
  have ints := ints_of_ranged (ranged_of_checked checked numbers)
  have holds := holds_of_tops proper has tops
  unfold jumpform
  by_cases full : Full labs
  · obtain ⟨p, q, is⟩ : ∃ p q, qual = .range p q := by
      by_contra other
      exact unfilled ⟨full, fun p q same => other ⟨p, q, same⟩⟩
    rw [is] at has holds tops
    have top : q = 2147483647 := tops
    rw [top] at has
    have word := numbers k _ has p ⟨le_refl _, holds.1⟩
    have member : (Limbo.entry origin arms k, Qual.range p 2147483647) ∈ placed origin arms :=
      mem_placed.2 ⟨k, has, rfl⟩
    cases dogoto labs with
    | none => rfl
    | some _ =>
      rw [Option.bind_some, gotocom_greatest ⟨word.1, by omega⟩ member]
      rfl
  · have notWild : qual ≠ .wild := by
      rintro rfl
      exact holds
    obtain ⟨lab, inLabs, -, covers⟩ := checked.covers k qual has notWild
    have upper := (ints lab inLabs).2.2
    have reaches : (2147483648 : Int) - 1 ≤ lab.stop := (covers _ holds).2
    rw [dogoto_greatest checked.toLined ints chosen full ⟨lab, inLabs, by omega⟩]
    rfl

theorem caseint_eq (checks : checklabels tint arms = some labs) :
    caseint indirect origin arms =
      if jumps labs then jumpform indirect origin arms labs else tableform origin arms labs := by
  unfold caseint
  rw [checks]
  rfl

/-- Cases of ints are right where they are safe, and only there. -/
theorem intRight_iff (proper : Proper arms) (numbers : Numbers 2147483648 arms)
    (loads : Loads tint origin arms) : IntRight indirect origin arms ↔ IntSafe arms := by
  have ⟨labs, checks, checked⟩ := checklabels_checked lawful_tint proper
  have fitting := fitting_cased proper loads checks
  have table := @tableform_eq origin arms labs proper checked
  have only {labs' : List (Label Int)} (checks' : checklabels tint arms = some labs') :
      labs' = labs := Option.some.inj (checks'.symm.trans checks)
  constructor
  · intro right
    have ⟨f, compiled, goes⟩ := right.bodies
    have top := goes (2147483648 - 1) (by decide)
    rw [caseint_eq checks] at compiled
    refine ⟨?_, ?_⟩
    · intro k qual has tops
      apply wild_of_searched placing_intentry proper checked fitting numbers (by decide) _ has tops
      by_cases chosen : jumps labs = true
      · rw [if_pos chosen] at compiled
        have ⟨_, _, isF, isG, same⟩ := right.agree labs checks chosen
        rw [compiled] at isF
        cases isF
        rw [table] at isG
        cases isG
        rw [same _ (by decide)] at top
        exact Option.some.inj top
      · rw [if_neg chosen, table] at compiled
        cases compiled
        exact Option.some.inj top
    · intro labs' checks' chosen _ _ has tops
      rw [only checks'] at chosen ⊢
      by_contra unfilled
      rw [if_pos chosen, jumpform_greatest proper checked numbers chosen has tops unfilled]
        at compiled
      cases compiled
  · intro safe
    have searches (v : Int) (word : InWord v) :
        searched (3 * IBY2WD) IBY2WD intentry (cased origin arms labs) v =
          bodyOf origin arms v :=
      searched_cased placing_intentry proper checked fitting numbers safe.wilds word.1
    refine ⟨?_, ?_⟩
    · rw [caseint_eq checks]
      by_cases chosen : jumps labs = true
      · rw [if_pos chosen]
        exact jumpform_right proper checked numbers loads checks chosen
          (safe.filled labs checks chosen)
      rw [if_neg chosen, table]
      refine ⟨_, rfl, ?_⟩
      intro v word
      rw [searches v word]
    · intro _ checks' chosen
      rw [only checks'] at chosen ⊢
      have ⟨f, isF, goes⟩ := @jumpform_right indirect origin arms labs proper checked numbers
        loads checks chosen (safe.filled labs checks chosen)
      refine ⟨f, _, isF, table, ?_⟩
      intro v word
      rw [goes v word, searches v word]

end Ints

/-! ### Cases of bigs -/

/-- The case goes to the bodies that its selectors select. -/
def BigRight (origin : Nat) (arms : List (Arm Int)) : Prop :=
  ∃ f, casebig origin arms = some f ∧
    ∀ v, -9223372036854775808 ≤ v → v < 9223372036854775808 → f v = bodyOf origin arms v

/-- An arm with the greatest big has `*` as well. -/
def BigSafe (arms : List (Arm Int)) : Prop :=
  ∀ k qual, Has arms k qual → Tops (9223372036854775808 - 1) qual → Has arms k .wild

theorem bigRight_iff {arms : List (Arm Int)} (proper : Proper arms)
    (numbers : Numbers 9223372036854775808 arms) (loads : Loads tbig origin arms) :
    BigRight origin arms ↔ BigSafe arms := by
  have ⟨labs, checks, checked⟩ := checklabels_checked lawful_tbig proper
  have fitting := fitting_cased proper loads checks
  have compiled : casebig origin arms = some fun v =>
      searched (2 * IBY2LG + 2 * IBY2WD) (2 * IBY2WD) bigentry (cased origin arms labs) v := by
    unfold casebig
    rw [checks, Option.bind_some, casecom_cased lawful_tbig proper checked]
    rfl
  constructor
  · rintro ⟨f, is, goes⟩ k qual has tops
    rw [compiled] at is
    cases is
    exact wild_of_searched placing_bigentry proper checked fitting numbers (by decide)
      (goes _ (by decide) (by decide)) has tops
  intro safe
  refine ⟨_, compiled, ?_⟩
  intro _ least _
  exact searched_cased placing_bigentry proper checked fitting numbers safe least

/-! ### Cases of strings -/

/-- The case goes to the bodies that its selectors select, whichever of the two searches runs. -/
structure StringRight (origin : Nat) (arms : List (Arm Str)) : Prop where
  bodies : ∃ f, casestring origin arms = some f ∧
    ∀ sv : Option DisString, Plain (sv.getD snil) → f sv = bodyOf origin arms (charsOf sv)
  agree : ∀ labs c, checklabels tstring arms = some labs → casecom tstring origin arms labs = some c →
    ∀ sv : Option DisString, Plain (sv.getD snil) →
      bisect (3 * IBY2WD) (probec (loaded (discasec c)) sv) c.labs.length IBY2WD =
        scan (3 * IBY2WD) (matchc (loaded (discasec c)) sv) c.labs.length IBY2WD

def RunesOnly (arms : List (Arm Str)) : Prop :=
  ∀ k qual, Has arms k qual → ∀ s, qual.first = some s ∨ qual.last = some s → Lib9.Runes s

section Strings

variable {origin : Nat} {arms : List (Arm Str)} {labs : List (Label Str)}

theorem texts_cased (checked : Checked arms labs) (runes : RunesOnly arms) :
    Texts (loaded (discasec (cased origin arms labs))) (cased origin arms labs).labs (3 * IBY2WD)
      IBY2WD := by
  apply texts_discasec
  · intro lab member
    obtain ⟨original, inLabs, rfl⟩ := mem_cased member
    have ⟨⟨k, qual, has, first⟩, ⟨k', qual', has', last⟩⟩ := checked.ends inLabs
    exact ⟨runes k qual has _ (Or.inl first), runes k' qual' has' _ (Or.inr last)⟩
  · intro _ member
    obtain ⟨original, inLabs, rfl⟩ := mem_cased member
    exact checked.one original inLabs

theorem stringRight (proper : Proper arms) (runes : RunesOnly arms)
    (loads : Loads tstring origin arms) : StringRight origin arms := by
  have ⟨labs, checks, checked⟩ := checklabels_checked lawful_tstring proper
  have fitting := fitting_cased proper loads checks
  have texts := @texts_cased origin arms labs checked runes
  have lined : Lined (cased origin arms labs).labs := lined_cased checked.toLined
  have compiled : casecom tstring origin arms labs = some (cased origin arms labs) :=
    casecom_cased lawful_tstring proper checked
  refine ⟨⟨casec (loaded (discasec (cased origin arms labs))), ?_, ?_⟩, ?_⟩
  · unfold casestring
    rw [checks, Option.bind_some, compiled]
    rfl
  · intro sv plain
    by_cases any : ∃ lab ∈ labs, lab.Has (charsOf sv)
    · have ⟨lab, member, has⟩ := any
      have inCased : { lab with inst := some (Limbo.entry origin arms lab.node) } ∈
          (cased origin arms labs).labs := mem_map.2 ⟨lab, member, rfl⟩
      rw [casec_of_has texts lined fitting plain inCased has,
        bodyOf_of_has proper checked member has]
      rfl
    · have none : ∀ lab ∈ labs, ¬ lab.Has (charsOf sv) := fun lab member has =>
        any ⟨lab, member, has⟩
      rw [bodyOf_of_no_label checked none]
      apply casec_of_none texts lined fitting plain
      intro _ member has
      obtain ⟨original, inLabs, rfl⟩ := mem_cased member
      exact none original inLabs has
  · intro _ _ checks' compiled' _ plain
    cases checks.symm.trans checks'
    cases compiled.symm.trans compiled'
    exact bisect_eq_scan_texts texts lined plain

end Strings

/-! ### All cases -/

/-- Cases that the compiler accepts and the loader takes. -/
structure Accepted (origin : Nat) (ints bigs : List (Arm Int)) (strings : List (Arm Str)) :
    Prop where
  properInts : Proper ints
  properBigs : Proper bigs
  properStrings : Proper strings
  numbersInts : Numbers 2147483648 ints
  numbersBigs : Numbers 9223372036854775808 bigs
  runes : RunesOnly strings
  loadsInts : Loads tint origin ints
  loadsBigs : Loads tbig origin bigs
  loadsStrings : Loads tstring origin strings

/-- Cases select the bodies that they should but where a label goes up to the greatest number. -/
theorem cases_right_iff {indirect : Bool} {origin : Nat} {ints bigs : List (Arm Int)}
    {strings : List (Arm Str)} (accepted : Accepted origin ints bigs strings) :
    (IntRight indirect origin ints ↔ IntSafe ints) ∧ (BigRight origin bigs ↔ BigSafe bigs) ∧
      StringRight origin strings :=
  ⟨intRight_iff accepted.properInts accepted.numbersInts accepted.loadsInts,
    bigRight_iff accepted.properBigs accepted.numbersBigs accepted.loadsBigs,
    stringRight accepted.properStrings accepted.runes accepted.loadsStrings⟩

def single {α : Type} (qual : Qual α) : List (Arm α) := [⟨[qual], 1⟩]

theorem has_single {qual qual' : Qual α} : Has (single qual) k qual' → k = 0 ∧ qual' = qual := by
  rintro ⟨arm, is, member⟩
  cases k with
  | zero =>
    cases is
    exact ⟨rfl, mem_singleton.1 member⟩
  | succ _ => cases is

theorem proper_single [LinearOrder α] {qual : Qual α} (nonempty : ∀ p q, qual = .range p q → p ≤ q)
    : Proper (single qual) := by
  refine ⟨?_, pairwise_singleton _ _⟩
  intro _ member p q inArm
  rw [mem_singleton.1 member] at inArm
  exact nonempty p q (mem_singleton.1 inArm).symm

theorem loads_single (ctype : Ctype α) (qual : Qual α) :
    Loads ctype 0 (single qual) where
  instructions := by
    show 0 + 1 + 1 ≤ 1024 * 1024
    decide
  data := by
    intro labs checks
    have few : labs.length ≤ 1 := by
      cases qual with
      | const _ =>
        simp [checklabels, casesort, single, labels, Qual.label, checkfrom] at checks
        rw [← checks.2]
        exact Nat.le_refl 1
      | range _ _ =>
        simp [checklabels, casesort, single, labels, Qual.label, checkfrom] at checks
        rw [← checks.2]
        exact Nat.le_refl 1
      | wild =>
        have empty : checklabels ctype (single .wild) = some [] := by
          have sorted : casesort ctype (labels 0 (single .wild)) = [] := mergeSort_nil
          unfold checklabels
          rw [sorted]
        cases empty.symm.trans checks
        exact Nat.zero_le 1
    unfold IBY2WD
    omega

theorem accepted_single {qualBig : Qual Int} {qualString : Qual Str}
    (ints : ∀ v, qual.Holds v → -2147483648 ≤ v ∧ v < 2147483648)
    (bigs : ∀ v, qualBig.Holds v → -9223372036854775808 ≤ v ∧ v < 9223372036854775808)
    (strings : ∀ s, qualString.first = some s ∨ qualString.last = some s → Lib9.Runes s)
    (nonempty : ∀ p q, qual = .range p q → p ≤ q)
    (nonemptyBig : ∀ p q, qualBig = .range p q → p ≤ q)
    (nonemptyString : ∀ p q, qualString = .range p q → p ≤ q) :
    Accepted 0 (single qual) (single qualBig) (single qualString) where
  properInts := proper_single nonempty
  properBigs := proper_single nonemptyBig
  properStrings := proper_single nonemptyString
  numbersInts := by
    intro k qual' has
    rw [(has_single has).2]
    exact ints
  numbersBigs := by
    intro k qual' has
    rw [(has_single has).2]
    exact bigs
  runes := by
    intro _ _ has
    rw [(has_single has).2]
    exact strings
  loadsInts := loads_single tint qual
  loadsBigs := loads_single tbig qualBig
  loadsStrings := loads_single tstring qualString

theorem runes_nil : Lib9.Runes [] := fun _ inside => absurd inside not_mem_nil

theorem runes_letter : Lib9.Runes [99] := by
  intro _ member
  rw [mem_singleton.1 member]
  decide

/-- Cases that stay below the greatest numbers select their bodies. -/
theorem cases_right_below : IntRight true 0 (single (.range 1 3)) ∧
    BigRight 0 (single (.const 9223372036854775806)) ∧ StringRight 0 (single (.range [] [99])) := by
  have accepted : Accepted 0 (single (.range 1 3)) (single (.const 9223372036854775806))
      (single (.range [] [99])) := by
    apply accepted_single
    · intro v holds
      have inside : 1 ≤ v ∧ v ≤ 3 := holds
      omega
    · rintro v rfl
      decide
    · rintro s (is | is)
      · cases is
        exact runes_nil
      · cases is
        exact runes_letter
    · intro p q is
      cases is
      decide
    · nofun
    · intro _ _ is
      cases is
      decide
  have right := @cases_right_iff true 0 _ _ _ accepted
  refine ⟨right.1.2 ⟨?_, ?_⟩, right.2.1.2 ?_, right.2.2⟩
  · intro k qual has tops
    rw [(has_single has).2] at tops
    exact absurd tops (show _ ≠ _ by decide)
  · intro _ _ _ k qual has tops
    rw [(has_single has).2] at tops
    exact absurd tops (show _ ≠ _ by decide)
  · intro _ _ has tops
    rw [(has_single has).2] at tops
    exact absurd tops (show _ ≠ _ by decide)

/-- A case of the greatest int, or of the greatest big, goes to the default; one of the ints up to
the greatest has no end. -/
theorem greatest_missed :
    Accepted 0 (single (.const 2147483647)) (single (.const 9223372036854775807))
        (single (.const [])) ∧
      (caseint false 0 (single (.const 2147483647))).map (fun f => f 2147483647) =
        some (some 2) ∧
      bodyOf 0 (single (.const (2147483647 : Int))) 2147483647 = 0 ∧
      ¬ IntRight false 0 (single (.const 2147483647)) ∧
      (casebig 0 (single (.const 9223372036854775807))).map
        (fun f => f 9223372036854775807) = some 2 ∧
      bodyOf 0 (single (.const (9223372036854775807 : Int))) 9223372036854775807 = 0 ∧
      (caseint false 0 (single (.range 2147483645 2147483647))).isNone = true := by
  have goes : (caseint false 0 (single (.const 2147483647))).map (fun f => f 2147483647) =
      some (some 2) := by
    decide +kernel
  have body : bodyOf 0 (single (.const (2147483647 : Int))) 2147483647 = 0 := by
    decide +kernel
  refine ⟨?_, goes, body, ?_, by decide +kernel, by decide +kernel, by decide +kernel⟩
  · apply accepted_single
    · rintro v rfl
      decide
    · rintro v rfl
      decide
    · rintro s (is | is)
      · cases is
        exact runes_nil
      · cases is
        exact runes_nil
    · nofun
    · nofun
    · nofun
  · intro right
    have ⟨_, compiled, selects⟩ := right.bodies
    have selected := selects 2147483647 (by decide)
    rw [compiled, Option.map_some, selected, body] at goes
    cases goes

end Infernode.Dis
