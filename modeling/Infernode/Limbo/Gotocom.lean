import Infernode.Limbo.Collate
import Infernode.Limbo.Bodies

/-!
Cases with a table of jumps.

Owns: that the labels of such a table are one for each value, where the loops that make it end and
where they do not, and that the labels get the pcs of the bodies that their values select.
-/

namespace Infernode.Limbo

open Runs Text List Option

/-! ### Dense labels -/

/-- The labels are those of the values from `first` on, one for each. -/
def Dense (labs : List (Label Int)) (first : Int) : Prop :=
  ∀ (i : Nat) (lab : Label Int), labs[i]? = some lab → lab.start = first + i ∧ lab.stop = first + i

def Ints (labs : List (Label Int)) : Prop := ∀ lab ∈ labs, InWord lab.start ∧ InWord lab.stop

section Dense

variable {labs rest : List (Label Int)} {lab : Label Int} {first : Int}

theorem Dense.nil (first : Int) : Dense [] first := by
  intro _ _ is
  exact absurd is (by simp)

theorem Dense.cons (start : lab.start = first) (stop : lab.stop = first)
    (dense : Dense rest (first + 1)) : Dense (lab :: rest) first := by
  intro i lab' is
  cases i with
  | zero =>
    cases is
    rw [start, stop]
    exact ⟨by omega, by omega⟩
  | succ i =>
    have next := dense i lab' is
    rw [next.1, next.2]
    exact ⟨by omega, by omega⟩

theorem Dense.append {more : List (Label Int)} (dense : Dense labs first)
    (denseMore : Dense more (first + labs.length)) : Dense (labs ++ more) first := by
  intro i lab is
  by_cases inside : i < labs.length
  · rw [getElem?_append_left inside] at is
    exact dense i lab is
  rw [getElem?_append_right (Nat.le_of_not_lt inside)] at is
  have later := denseMore _ lab is
  rw [later.1, later.2]
  exact ⟨by omega, by omega⟩

theorem Dense.lined (dense : Dense labs first) : Lined labs := by
  refine ⟨?_, ?_⟩
  · intro lab member
    have ⟨i, is⟩ := mem_iff_getElem?.1 member
    have at_ := dense i lab is
    rw [at_.1, at_.2]
  rw [pairwise_iff_getElem]
  intro i j insideI insideJ _
  have isI := (dense i _ (getElem?_eq_getElem insideI)).2
  have isJ := (dense j _ (getElem?_eq_getElem insideJ)).1
  omega

end Dense

/-! ### The loops -/

theorem inWord_succ {x : Int} (word : InWord x) (lower : x < 2147483647) : wrap (x + 1) = x + 1 :=
  wrap_of_inWord ⟨by unfold InWord at word; omega, by omega⟩

theorem fill_dense {lab : Label Int} {q : Int} (word : InWord q) (lower : q < 2147483647)
    (room : Nat) : ∀ j, InWord j → j ≤ q + 1 → q + 1 - j ≤ room →
      ∃ out, fill lab q room j = some out ∧ (out.length : Int) = q + 1 - j ∧ Dense out j ∧
        ∀ lab ∈ out, lab.inst = none := by
  induction room with
  | zero =>
    intro j _ upper enough
    refine ⟨[], ?_, ?_, Dense.nil j, nofun⟩
    · unfold fill
      rw [if_neg (by omega)]
    · simp
      omega
  | succ _ ih =>
    intro j wordJ _ _
    unfold fill
    by_cases more : j ≤ q
    · rw [if_pos more, inWord_succ wordJ (by omega)]
      have wordNext : InWord (j + 1) := by
        unfold InWord at *
        omega
      have ⟨out, filled, _, dense, inst⟩ :=
        ih (j + 1) wordNext (by omega) (by omega)
      refine ⟨⟨j, j, true, lab.node, none⟩ :: out, by rw [filled]; rfl, ?_,
        Dense.cons rfl rfl dense, ?_⟩
      · rw [length_cons]
        omega
      intro lab' member
      rcases mem_cons.1 member with rfl | later
      · rfl
      · exact inst lab' later
    · rw [if_neg more]
      refine ⟨[], rfl, ?_, Dense.nil j, nofun⟩
      simp
      omega

/-- The loop up to the greatest int does not end. -/
theorem fill_greatest (lab : Label Int) (room : Nat) :
    ∀ j, InWord j → fill lab 2147483647 room j = none := by
  induction room with
  | zero => exact fun j word => if_pos word.2
  | succ _ ih =>
    intro _ word
    unfold fill
    rw [if_pos word.2, ih _ (inWord_wrap _)]
    rfl

theorem expand_greatest (labs : List (Label Int)) (top : ∃ lab ∈ labs, lab.stop = 2147483647) :
    ∀ room v, expand room v labs = none := by
  induction labs with
  | nil =>
    obtain ⟨lab, member, -⟩ := top
    exact absurd member not_mem_nil
  | cons lab _ ih =>
    intro room v
    unfold expand
    have ⟨lab', member, stop⟩ := top
    rcases mem_cons.1 member with rfl | later
    · rw [stop, fill_greatest _ _ _ (inWord_wrap _)]
      rfl
    cases fill lab lab.stop room (wrap (v + 1)) with
    | none => rfl
    | some _ =>
      rw [bind_some, ih ⟨lab', later, stop⟩]
      rfl

/-- The room for the labels from the value `j` on. -/
def Roomy (room : Nat) (j : Int) : List (Label Int) → Prop
  | [] => room = 0
  | lab :: rest => (room : Int) = ((lab :: rest).getLast (List.cons_ne_nil _ _)).stop + 1 - j

theorem expand_dense (labs : List (Label Int)) : ∀ room v j, wrap (v + 1) = j → Lined labs →
    Ints labs → (∀ lab ∈ labs, lab.stop < 2147483647) → (∀ lab ∈ labs, j ≤ lab.start) →
      Roomy room j labs → ∃ out, expand room v labs = some out ∧ out.length = room ∧
        Dense out j ∧ ∀ lab ∈ out, lab.inst = none := by
  induction labs with
  | nil =>
    intro room v j _ _ _ _ _ roomy
    have none : room = 0 := roomy
    refine ⟨[], ?_, none.symm, Dense.nil j, nofun⟩
    unfold expand
    exact if_pos none
  | cons lab rest ih =>
    intro room _ j start lined ints lower low roomy
    have word := ints lab (mem_cons_self ..)
    have lowerLab := lower lab (mem_cons_self ..)
    have nonempty := lined.nonempty lab (mem_cons_self ..)
    have lowLab := low lab (mem_cons_self ..)
    have wordJ : InWord j := by
      rw [← start]
      exact inWord_wrap _
    have behind : ∀ lab' ∈ rest, lab.stop + 1 ≤ lab'.start := by
      intro lab' member
      have apart := (pairwise_cons.1 lined.sorted).1 lab' member
      omega
    have last : lab.stop ≤ ((lab :: rest).getLast (cons_ne_nil _ _)).stop := by
      rcases mem_cons.1 (getLast_mem (cons_ne_nil lab rest)) with same | later
      · rw [same]
      · have apart := behind _ later
        have nonemptyLast := lined.nonempty _ (mem_cons_of_mem _ later)
        omega
    have roomIs : (room : Int) =
        ((lab :: rest).getLast (cons_ne_nil _ _)).stop + 1 - j := roomy
    have ⟨filled, isFilled, length, dense, inst⟩ :=
      @fill_dense lab lab.stop word.2 lowerLab room j wordJ (by omega) (by omega)
    have left : Roomy (room - filled.length) (lab.stop + 1) rest := by
      cases rest with
      | nil =>
        have single : ([lab].getLast (cons_ne_nil _ _)).stop = lab.stop := rfl
        show room - filled.length = 0
        omega
      | cons next rest =>
        have same : ((lab :: next :: rest).getLast (cons_ne_nil _ _)).stop =
            ((next :: rest).getLast (cons_ne_nil _ _)).stop := by
          rw [getLast_cons (cons_ne_nil _ _)]
        show ((room - filled.length : Nat) : Int) = _
        omega
    have ⟨more, isMore, lengthMore, denseMore, instMore⟩ :=
      ih (room - filled.length) lab.stop (lab.stop + 1)
        (inWord_succ word.2 lowerLab) lined.tail
        (fun lab' member => ints lab' (mem_cons_of_mem _ member))
        (fun lab' member => lower lab' (mem_cons_of_mem _ member)) behind left
    refine ⟨filled ++ more, ?_, ?_, ?_, ?_⟩
    · unfold expand
      rw [start, isFilled, bind_some, isMore]
      rfl
    · rw [length_append, lengthMore]
      omega
    · apply dense.append
      rw [length, show j + (lab.stop + 1 - j) = lab.stop + 1 by omega]
      exact denseMore
    intro lab' member
    rcases mem_append.1 member with inFilled | inMore
    · exact inst lab' inFilled
    · exact instMore lab' inMore

/-! ### The choice -/

/-- The labels run from the value `first` to the value `last`. -/
structure Spans (labs : List (Label Int)) (first last : Int) : Prop where
  head : ∃ lab, labs.head? = some lab ∧ lab.start = first
  last : ∃ lab, labs.getLast? = some lab ∧ lab.stop = last

def Full (labs : List (Label Int)) : Prop :=
  ∃ first last, Spans labs first last ∧ last - first + 1 = labs.length

section Choice

variable {labs : List (Label Int)} {first last : Int}

variable {i : Nat}

/-- Between two labels there is a value for each place. -/
theorem Lined.gap (lined : Lined labs) {a : Label Int} (isA : labs[i]? = some a) :
    ∀ d b, labs[i + d]? = some b → a.start + d ≤ b.start ∧ a.stop + d ≤ b.stop := by
  intro d
  induction d with
  | zero =>
    intro b isB
    rw [Nat.add_zero, isA] at isB
    cases isB
    exact ⟨by omega, by omega⟩
  | succ _ ih =>
    intro b isB
    have inside := (List.getElem?_eq_some_iff.1 isB).1
    have between := getElem?_eq_getElem (Nat.lt_of_succ_lt inside)
    have near := ih _ between
    have apart := lined.before between isB (Nat.lt_succ_self _)
    have nonempty := lined.nonempty _ (mem_of_getElem? between)
    have nonemptyB := lined.nonempty b (mem_of_getElem? isB)
    exact ⟨by omega, by omega⟩

theorem Lined.before_last (lined : Lined labs) (spans : Spans labs first last) {lab : Label Int}
    (is : labs[i]? = some lab) :
    first + i ≤ lab.start ∧ lab.stop + (labs.length - 1 - i) ≤ last := by
  obtain ⟨⟨f, head, rfl⟩, ⟨l, tail, rfl⟩⟩ := spans
  have inside := (List.getElem?_eq_some_iff.1 is).1
  rw [head?_eq_getElem?] at head
  rw [getLast?_eq_getElem?] at tail
  have low := (lined.gap head i lab (by rw [Nat.zero_add]; exact is)).1
  have high := (lined.gap is (labs.length - 1 - i) l (by
    rw [← tail]
    congr 1
    omega)).2
  exact ⟨low, by omega⟩

theorem Lined.spans_le (lined : Lined labs) (spans : Spans labs first last) :
    first + (labs.length - 1) ≤ last ∧ 0 < labs.length := by
  have ⟨f, head, _⟩ := spans.head
  have is := head
  rw [head?_eq_getElem?] at is
  have inside := (List.getElem?_eq_some_iff.1 is).1
  have bounds := lined.before_last spans is
  have nonempty := lined.nonempty f (mem_of_getElem? is)
  exact ⟨by omega, inside⟩

/-- Where a table of jumps is made, the number of values is less than that of all ints. -/
theorem spread_of_jumps (lined : Lined labs) (ints : Ints labs) (chosen : jumps labs = true) :
    ∃ first last, Spans labs first last ∧ 3 ≤ last - first + 1 ∧
      last - first + 1 < 2147483648 ∧
        ∀ f l, labs.head? = some f → labs.getLast? = some l → spread f l = last - first + 1 := by
  unfold jumps at chosen
  cases head : labs.head? with
  | none =>
    rw [head] at chosen
    cases chosen
  | some f =>
    cases tail : labs.getLast? with
    | none =>
      rw [head, tail] at chosen
      cases chosen
    | some l =>
      rw [head, tail] at chosen
      simp only [decide_eq_true_eq] at chosen
      have wordF := (ints f (mem_of_head? head)).1
      have wordL := (ints l (mem_of_getLast? tail)).2
      have small : spread f l = l.stop - f.start + 1 := by
        have ordered := lined.spans_le ⟨⟨f, head, rfl⟩, ⟨l, tail, rfl⟩⟩
        unfold spread at chosen ⊢
        unfold InWord at wordF wordL
        by_cases fits : l.stop - f.start + 1 < 2147483648
        · apply wrap_of_inWord
          exact ⟨by omega, by omega⟩
        have wrapped : wrap (l.stop - f.start + 1) = l.stop - f.start + 1 - 4294967296 := by
          have period : wrap (l.stop - f.start + 1) =
              wrap (l.stop - f.start + 1 - 4294967296) := by
            unfold wrap
            exact (Int.sub_mul_bmod_self_left _ 4294967296 1).symm
          rw [period]
          exact wrap_of_inWord ⟨by omega, by omega⟩
        omega
      refine ⟨f.start, l.stop, ⟨⟨f, head, rfl⟩, ⟨l, tail, rfl⟩⟩, ?_, ?_, ?_⟩
      · omega
      · have word := inWord_wrap (l.stop - f.start + 1)
        have same : wrap (l.stop - f.start + 1) = l.stop - f.start + 1 := small
        unfold InWord at word
        omega
      intro _ _ isF isL
      cases isF
      cases isL
      exact small

theorem dense_of_full (lined : Lined labs) (spans : Spans labs first last)
    (full : last - first + 1 = labs.length) : Dense labs first := by
  intro _ lab is
  have inside := (List.getElem?_eq_some_iff.1 is).1
  have bounds := lined.before_last spans is
  have nonempty := lined.nonempty lab (mem_of_getElem? is)
  exact ⟨by omega, by omega⟩

theorem Dense.clear (dense : Dense labs first) :
    Dense (labs.map fun lab => { lab with inst := none }) first := by
  intro i _ is
  rw [getElem?_map, map_eq_some_iff] at is
  obtain ⟨lab', is', rfl⟩ := is
  have at_ : lab'.start = first + i ∧ lab'.stop = first + i := dense i lab' is'
  exact at_

/-- The labels of a table of jumps, where the loops end. -/
theorem dogoto_dense (lined : Lined labs) (ints : Ints labs) (chosen : jumps labs = true)
    (spans : Spans labs first last) (ends : last < 2147483647 ∨ Full labs) :
    ∃ out, dogoto labs = some out ∧ Dense out first ∧ (out.length : Int) = last - first + 1 ∧
      ∀ lab ∈ out, lab.inst = none := by
  obtain ⟨_, _, spans', _, -, spread⟩ := spread_of_jumps lined ints chosen
  obtain ⟨f, head, rfl⟩ := spans.head
  obtain ⟨l, tail, rfl⟩ := spans.last
  obtain ⟨f', head', rfl⟩ := spans'.head
  obtain ⟨l', tail', rfl⟩ := spans'.last
  cases head.symm.trans head'
  cases tail.symm.trans tail'
  have size := spread f l head tail
  unfold dogoto
  rw [head, tail]
  simp only
  rw [size]
  by_cases all : l.stop - f.start + 1 = labs.length
  · rw [if_neg (fun other => other all)]
    refine ⟨_, rfl, (dense_of_full lined spans all).clear, ?_, ?_⟩
    · rw [length_map]
      exact all.symm
    · intro lab member
      obtain ⟨_, -, rfl⟩ := mem_map.1 member
      rfl
  rw [if_pos all]
  have lower : l.stop < 2147483647 := by
    rcases ends with lower | ⟨first, last, same, full⟩
    · exact lower
    obtain ⟨_, head', rfl⟩ := same.head
    obtain ⟨_, tail', rfl⟩ := same.last
    cases head.symm.trans head'
    cases tail.symm.trans tail'
    exact absurd full all
  have word := (ints f (mem_of_head? head)).1
  have start : wrap (wrap (f.start - 1) + 1) = f.start := by
    have step : wrap (wrap (f.start - 1) + 1) = wrap (f.start - 1 + 1) := by
      unfold wrap
      exact Int.bmod_add_bmod ..
    rw [step, Int.sub_add_cancel]
    exact wrap_of_inWord word
  have low : ∀ lab ∈ labs, f.start ≤ lab.start ∧ lab.stop ≤ l.stop := by
    intro lab member
    have ⟨_, is⟩ := mem_iff_getElem?.1 member
    have inside := (List.getElem?_eq_some_iff.1 is).1
    have bounds := lined.before_last spans is
    exact ⟨by omega, by omega⟩
  have roomy : Roomy (l.stop - f.start + 1).toNat f.start labs := by
    cases labs with
    | nil => cases head
    | cons lab rest =>
      have is : (lab :: rest).getLast (cons_ne_nil _ _) = l := by
        rw [getLast?_eq_some_getLast (cons_ne_nil lab rest)] at tail
        exact Option.some.inj tail
      show ((l.stop - f.start + 1).toNat : Int) = _
      rw [is]
      omega
  have ⟨out, expanded, length, dense, inst⟩ := expand_dense labs _ (wrap (f.start - 1)) f.start
    start lined ints (fun lab member => by have upper := (low lab member).2; omega)
    (fun lab member => (low lab member).1) roomy
  refine ⟨out, expanded, dense, ?_, inst⟩
  rw [length]
  omega

/-- The loops do not end where labels up to the greatest int are to be filled in. -/
theorem dogoto_greatest (lined : Lined labs) (ints : Ints labs) (chosen : jumps labs = true)
    (few : ¬ Full labs) (top : ∃ lab ∈ labs, lab.stop = 2147483647) : dogoto labs = none := by
  obtain ⟨_, _, spans, -, -, spread⟩ := spread_of_jumps lined ints chosen
  obtain ⟨f, head, rfl⟩ := spans.head
  obtain ⟨l, tail, rfl⟩ := spans.last
  have size := spread f l head tail
  unfold dogoto
  rw [head, tail]
  simp only
  rw [size, if_pos fun all => few ⟨_, _, spans, all⟩]
  exact expand_greatest labs top _ _

end Choice

/-! ### Ranges of a table -/

section Ranges

variable {labs : List (Label Int)} {first p q : Int} {pc : Nat}

theorem fillfrom_greatest (labs : List (Label Int)) :
    ∀ j, InWord j → fillfrom pc 2147483647 labs j = none := by
  induction labs with
  | nil => exact fun j word => if_pos word.2
  | cons _ _ ih =>
    intro _ word
    unfold fillfrom
    rw [if_pos word.2, ih _ (inWord_wrap _)]
    rfl

theorem fillrange_greatest (word : InWord p) : fillrange labs p 2147483647 pc = none := by
  unfold fillrange
  cases labs.findIdx? fun lab => lab.start == p with
  | none => rfl
  | some _ =>
    rw [bind_some, fillfrom_greatest _ p word]
    rfl

theorem fillfrom_marks (lower : q < 2147483647) (labs : List (Label Int)) : ∀ j, InWord j →
    q < j + labs.length → ∃ out, fillfrom pc q labs j = some out ∧
      Marked labs out fun i => if j + i ≤ q then some pc else (labs[i]?).bind Label.inst := by
  induction labs with
  | nil =>
    intro j _ enough
    refine ⟨[], ?_, ?_⟩
    · unfold fillfrom
      rw [if_neg (by simpa using enough)]
    · intro i
      simp
  | cons lab rest ih =>
    intro j word enough
    unfold fillfrom
    by_cases more : j ≤ q
    · rw [if_pos more, inWord_succ word (by omega)]
      have wordNext : InWord (j + 1) := by
        unfold InWord at *
        omega
      rw [length_cons] at enough
      have ⟨out, filled, marked⟩ := ih (j + 1) wordNext (by omega)
      refine ⟨{ lab with inst := some pc } :: out, by rw [filled]; rfl, ?_⟩
      intro i
      cases i with
      | zero =>
        show some _ = some _
        beta_reduce
        rw [if_pos (by simpa using more)]
      | succ i =>
        have next := marked i
        rw [getElem?_cons_succ, getElem?_cons_succ, next]
        have same : (j + 1 + i ≤ q) = (j + ((i + 1 : Nat) : Int) ≤ q) := by
          congr 1
          omega
        simp only [same]
        rfl
    · rw [if_neg more]
      refine ⟨lab :: rest, rfl, ?_⟩
      intro i
      beta_reduce
      rw [if_neg (by omega)]
      cases (lab :: rest)[i]? with
      | none => rfl
      | some _ => rfl

theorem findIdx_dense (dense : Dense labs first) (low : first ≤ p)
    (high : p < first + labs.length) :
    (labs.findIdx? fun lab => lab.start == p) = some (p - first).toNat := by
  rw [findIdx?_eq_some_iff_getElem]
  have inside : (p - first).toNat < labs.length := by omega
  refine ⟨inside, ?_, ?_⟩
  · have at_ := (dense _ _ (getElem?_eq_getElem inside)).1
    rw [beq_iff_eq, at_]
    omega
  intro _ before found
  have at_ := (dense _ _ (getElem?_eq_getElem (before.trans inside))).1
  rw [beq_iff_eq, at_] at found
  omega

theorem fillrange_marks (dense : Dense labs first) (lower : q < 2147483647) (word : InWord p)
    (low : first ≤ p) (high : q < first + labs.length) (nonempty : p ≤ q) :
    ∃ out, fillrange labs p q pc = some out ∧ Marked labs out fun i =>
      if p ≤ first + i ∧ first + i ≤ q then some pc else (labs[i]?).bind Label.inst := by
  have place : ((p - first).toNat : Int) = p - first := by omega
  have ⟨out, filled, marked⟩ := @fillfrom_marks q pc lower (labs.drop (p - first).toNat) p word
    (by rw [length_drop]; omega)
  refine ⟨labs.take (p - first).toNat ++ out, ?_, ?_⟩
  · unfold fillrange
    rw [findIdx_dense dense low (by omega), bind_some, filled]
    rfl
  intro i
  have length : (labs.take (p - first).toNat).length = (p - first).toNat :=
    length_take_of_le (by omega)
  beta_reduce
  by_cases before : i < (p - first).toNat
  · rw [getElem?_append_left (by omega), getElem?_take_of_lt before,
      if_neg (by omega)]
    cases labs[i]? with
    | none => rfl
    | some _ => rfl
  rw [getElem?_append_right (by omega), length, marked]
  beta_reduce
  rw [getElem?_drop,
    show (p - first).toNat + (i - (p - first).toNat) = i by omega]
  by_cases inside : first + i ≤ q
  · rw [if_pos (by omega), if_pos ⟨by omega, inside⟩]
  · rw [if_neg (by omega), if_neg fun both => inside both.2]

end Ranges

/-! ### The arms -/

section Arms

variable {origin : Nat} {arms : List (Arm Int)} {labs : List (Label Int)} {first : Int}

/-- The labels whose values meet a qualifier have the pc of the arm. -/
structure Jumped (first : Int) (labs : List (Label Int)) (done : List (Nat × Qual Int))
    (c : Cased Int) : Prop where
  marked : ∃ g, Marked labs c.labs g ∧ (∀ item ∈ done, ∀ i : Nat, i < labs.length →
    item.2.Holds (first + i) → g i = some item.1) ∧
      ∀ i : Nat, i < labs.length → (∀ item ∈ done, ¬ item.2.Holds (first + i)) → g i = none
  wilds : Wilds done c.wild

variable {α : Type} {g h : Nat → Option Nat} {out : List (Label Int)} {done : List (Nat × Qual Int)}
    {c : Cased Int} {item : Nat × Qual Int}

theorem Marked.trans {labs middle out : List (Label α)} (first : Marked labs middle g)
    (second : Marked middle out h) : Marked labs out h := by
  intro i
  rw [second, first]
  cases labs[i]? with
  | none => rfl
  | some _ => rfl

theorem marked_refl (out : List (Label α)) : Marked out out fun i => (out[i]?).bind Label.inst := by
  intro i
  beta_reduce
  cases out[i]? with
  | none => rfl
  | some _ => rfl

theorem Marked.dense (marked : Marked labs out g) (dense : Dense labs first) : Dense out first := by
  intro i _ is
  rw [marked, map_eq_some_iff] at is
  obtain ⟨lab', is', rfl⟩ := is
  have at_ : lab'.start = first + i ∧ lab'.stop = first + i := dense i lab' is'
  exact at_

theorem Jumped.mark (proper : Proper arms) (jumped : Jumped first labs done c)
    (inDone : ∀ item ∈ done, item ∈ placed origin arms) (member : item ∈ placed origin arms)
    (other : item.2 ≠ .wild) (marked : Marked c.labs out h)
    (here : ∀ i : Nat, item.2.Holds (first + i) → h i = some item.1)
    (there : ∀ i : Nat, ¬ item.2.Holds (first + i) → h i = (c.labs[i]?).bind Label.inst) :
    Jumped first labs (done ++ [item]) { c with labs := out } := by
  have ⟨g, before, goods, bare⟩ := jumped.marked
  have kept {i : Nat} (inside : i < labs.length) : (c.labs[i]?).bind Label.inst = g i := by
    rw [before, getElem?_eq_getElem inside]
    rfl
  refine ⟨⟨h, before.trans marked, ?_, ?_⟩, jumped.wilds.concat other⟩
  · intro item' member' i inside holds
    by_cases new : item.2.Holds (first + i)
    · have at_ : item' ∈ placed origin arms := by
        rcases mem_append.1 member' with old | last
        · exact inDone item' old
        · rw [mem_singleton.1 last]
          exact member
      rw [here i new, placed_unique proper at_ member holds new]
    · rcases mem_append.1 member' with old | last
      · rw [there i new, kept inside]
        exact goods item' old i inside holds
      · rw [mem_singleton.1 last] at holds
        exact absurd holds new
  · intro i inside none
    rw [there i (none item (mem_append_right _ (mem_singleton_self _))), kept inside]
    exact bare i inside fun item' old => none item' (mem_append_left _ old)

/-- What the qualifiers are to satisfy: their values have labels, and no range goes up to the
greatest int. -/
structure Jumpable (origin : Nat) (arms : List (Arm Int)) (first : Int) (length : Nat) : Prop where
  low : ∀ item ∈ placed origin arms, ∀ v, item.2.Holds v → first ≤ v ∧ v < first + length
  word : ∀ item ∈ placed origin arms, ∀ v, item.2.Holds v → InWord v
  ends : ∀ item ∈ placed origin arms, ∀ p q, item.2 = .range p q → q < 2147483647

theorem jumped_taken (proper : Proper arms) (dense : Dense labs first)
    (jumpable : Jumpable origin arms first labs.length) {todo : List (Nat × Qual Int)}
    (split : placed origin arms = done ++ item :: todo) (jumped : Jumped first labs done c) :
    ∃ after, placing tint fillrange c item = some after ∧
      Jumped first labs (done ++ [item]) after := by
  have member : item ∈ placed origin arms := by
    rw [split]
    simp
  have inDone : ∀ item' ∈ done, item' ∈ placed origin arms := by
    intro item' old
    rw [split]
    exact mem_append_left _ old
  have ⟨g, before, goods, bare⟩ := jumped.marked
  have denseNow := before.dense dense
  have length := before.length
  have found {v : Int} (low : first ≤ v) (high : v < first + labs.length) :
      findlab tint v c.labs = some (v - first).toNat := by
    have inside : (v - first).toNat < c.labs.length := by omega
    have at_ := getElem?_eq_getElem inside
    have is := denseNow _ _ at_
    apply findlab_of_has lawful_tint denseNow.lined at_
    unfold Label.Has
    rw [is.1, is.2]
    omega
  have first_mark (v : Int) (pc : Nat) :=
    (marked_refl c.labs).setinst (v - first).toNat pc
  have ⟨pc, qual⟩ := item
  cases qual with
  | const p =>
    have range := jumpable.low _ member p rfl
    refine ⟨{ c with labs := setinst c.labs (p - first).toNat pc }, ?_, ?_⟩
    · unfold placing qualifier
      simp only
      rw [found range.1 range.2]
      rfl
    apply jumped.mark proper inDone member nofun (first_mark p pc)
    · intro i holds
      have same : first + (i : Int) = p := holds
      rw [if_pos (by omega)]
    · intro i other
      have differ : ¬ first + (i : Int) = p := other
      rw [if_neg (by omega)]
  | range p q =>
    have nonempty : p ≤ q := (holds_first proper member rfl).2
    have low := jumpable.low _ member p ⟨Int.le_refl p, nonempty⟩
    have high := jumpable.low _ member q ⟨nonempty, Int.le_refl q⟩
    have mid := first_mark p pc
    have lengthMid := mid.length
    have ⟨out, filled, marks⟩ := @fillrange_marks _ first p q pc (mid.dense denseNow)
      (jumpable.ends _ member p q rfl)
      (jumpable.word _ member p ⟨Int.le_refl p, nonempty⟩) low.1 (by omega) nonempty
    refine ⟨{ c with labs := out }, ?_, ?_⟩
    · unfold placing qualifier
      simp only
      rw [found low.1 low.2, bind_some, filled]
      rfl
    apply jumped.mark proper inDone member nofun (mid.trans marks)
    · intro i holds
      exact if_pos holds
    intro i other
    have outside : ¬ (p ≤ first + (i : Int) ∧ first + (i : Int) ≤ q) := other
    rw [if_neg outside, mid i]
    beta_reduce
    rw [if_neg (by omega)]
    cases c.labs[i]? with
    | none => rfl
    | some _ => rfl
  | wild =>
    have apart := (placed_apart proper origin).imp fun apart => apart.2
    refine ⟨_, rfl, ⟨g, before, ?_, ?_⟩, Wilds.put apart split⟩
    · intro item' member' i inside holds
      rcases mem_append.1 member' with old | last
      · exact goods item' old i inside holds
      · rw [mem_singleton.1 last] at holds
        exact holds.elim
    · intro i inside none
      exact bare i inside fun item' old => none item' (mem_append_left _ old)

/-- The labels get the pcs of the bodies that their values select. -/
theorem gotocom_dense (proper : Proper arms) (dense : Dense labs first)
    (clear : ∀ lab ∈ labs, lab.inst = none)
    (jumpable : Jumpable origin arms first labs.length) : ∃ c, gotocom origin arms labs = some c ∧
      Dense c.labs first ∧ c.labs.length = labs.length ∧ c.iwild = defaultOf origin arms ∧
        ∀ (i : Nat) (lab : Label Int), c.labs[i]? = some lab →
          lab.inst = some (bodyOf origin arms (first + i)) := by
  have marked : Marked labs labs fun _ => none := by
    intro i
    cases is : labs[i]? with
    | none => rfl
    | some lab =>
      have inst := clear lab (mem_of_getElem? is)
      rw [map_some, ← inst]
  have initial : Jumped first labs [] ⟨labs, none⟩ :=
    ⟨⟨_, marked, nofun, fun _ _ _ => rfl⟩, Wilds.nil⟩
  have ⟨c, reached, jumped⟩ := run_history
    (fun done item todo c split jumped =>
      jumped_taken proper dense jumpable split jumped) initial
  have ⟨g, marked, goods, bare⟩ := jumped.marked
  have wild := jumped.wilds.getD proper
  have result : gotocom origin arms labs = some
      ⟨c.labs.map fun lab => { lab with inst := some (lab.inst.getD (defaultOf origin arms)) },
        defaultOf origin arms⟩ := by
    unfold gotocom
    rw [casearms_run, reached, map_some, map_some]
    simp only
    rw [wild]
  refine ⟨_, result, ?_, ?_, rfl, ?_⟩
  · intro i lab is
    rw [getElem?_map, map_eq_some_iff] at is
    obtain ⟨lab', is', rfl⟩ := is
    have at_ : lab'.start = first + i ∧ lab'.stop = first + i := marked.dense dense i lab' is'
    exact at_
  · rw [length_map, marked.length]
  intro i _ is
  rw [getElem?_map, map_eq_some_iff] at is
  obtain ⟨_, is', rfl⟩ := is
  rw [marked, map_eq_some_iff] at is'
  obtain ⟨_, at_, rfl⟩ := is'
  have inside := (List.getElem?_eq_some_iff.1 at_).1
  show some ((g i).getD (defaultOf origin arms)) = _
  congr 1
  by_cases any : ∃ item ∈ placed origin arms, item.2.Holds (first + (i : Int))
  · have ⟨item, member, holds⟩ := any
    rw [goods item member i inside holds, bodyOf_of_holds proper member holds]
    rfl
  have none : ∀ item ∈ placed origin arms, ¬ item.2.Holds (first + (i : Int)) :=
    fun item member holds => any ⟨item, member, holds⟩
  rw [bare i inside none, bodyOf_of_none fun pc qual member => none (pc, qual) member]
  rfl

theorem gotocom_greatest {pc : Nat} {p : Int} (word : InWord p)
    (member : (pc, .range p 2147483647) ∈ placed origin arms) (labs : List (Label Int)) :
    gotocom origin arms labs = none := by
  have refused : ∀ c, placing tint fillrange c (pc, .range p 2147483647) = none := by
    intro c
    unfold placing qualifier
    simp only
    cases findlab tint p c.labs with
    | none => rfl
    | some _ =>
      rw [bind_some, fillrange_greatest word]
      rfl
  unfold gotocom
  rw [casearms_run, run_eq_none refused member]
  rfl

end Arms

end Infernode.Limbo
