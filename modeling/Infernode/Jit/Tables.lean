import Infernode.Jit.Compile
import Infernode.Program.Runs
import Mathlib.Data.List.Nodup

/-!
The tables of a module while it is compiled.

Owns: the words of a table that a compilation writes, tables that have none in common, what the
first pass makes of the counts, and what the second makes of all these words.
-/

namespace Infernode.Jit

open Runs Text List

/-! ### Words -/

theorem setword_same (data : Int → Int) (w v : Int) : setword data w v w = v := if_pos rfl

variable {w : Int} {n : Nat}

variable {x d : Int} {data : Int → Int}

theorem setword_of_ne (data : Int → Int) (v : Int) (other : x ≠ w) :
    setword data w v x = data x := if_neg other

/-- Words that are different and name instructions are relocated, and no others are changed. -/
theorem relocwords_spec {look : Int → Option Int} {words : List Int} (nodup : words.Nodup)
    {data : Int → Int} (known : ∀ w ∈ words, ∃ address, look (data w) = some address) :
    ∃ after, relocwords look data words = some after ∧
      (∀ w ∈ words, look (data w) = some (after w)) ∧ ∀ w ∉ words, after w = data w := by
  induction words generalizing data with
  | nil => exact ⟨data, rfl, nofun, fun w _ => rfl⟩
  | cons w rest ih =>
    rw [nodup_cons] at nodup
    have ⟨address, here⟩ := known w (mem_cons_self ..)
    have differ {x : Int} (member : x ∈ rest) : x ≠ w := by
      rintro rfl
      exact nodup.1 member
    have ⟨after, relocated, inside, outside⟩ :=
      @ih nodup.2 (setword data w address) (by
        intro x member
        rw [setword_of_ne data address (differ member)]
        exact known x (mem_cons_of_mem _ member))
    refine ⟨after, ?_, ?_, ?_⟩
    · unfold relocwords
      rw [foldlM_cons]
      unfold relocword
      rw [here]
      exact relocated
    · intro x member
      rcases mem_cons.1 member with rfl | later
      · rw [outside x nodup.1, setword_same, here]
      · have next := inside x later
        rw [setword_of_ne data address (differ later)] at next
        exact next
    · intro x absent
      rw [mem_cons, not_or] at absent
      rw [outside x absent.2, setword_of_ne data address absent.1]

/-! ### Counts -/

/-- The count that a mark leaves, which is below zero. -/
def marked (x : Int) : Int := if 0 ≤ wrap x then -wrap x - 1 else x

/-- The number of entries that a count is for, marked or not. -/
def number (x : Int) : Int := if 0 ≤ wrap x then wrap x else -wrap x - 1

theorem wrap_marked (x : Int) : wrap (marked x) = -number x - 1 := by
  unfold marked number
  by_cases fresh : 0 ≤ wrap x
  · rw [if_pos fresh, if_pos fresh]
    have word := inWord_wrap x
    unfold InWord at word
    exact wrap_of_inWord ⟨by omega, by omega⟩
  · rw [if_neg fresh, if_neg fresh]
    omega

theorem number_nonneg (x : Int) : 0 ≤ number x := by
  unfold number
  split_ifs
  · assumption
  · omega

theorem marked_marked (x : Int) : marked (marked x) = marked x := by
  have below := wrap_marked x
  have nonneg := number_nonneg x
  exact if_neg (by omega)

theorem marked_ne (fresh : 0 ≤ wrap x) : marked x ≠ x := by
  intro same
  have below := wrap_marked x
  have nonneg := number_nonneg x
  rw [same] at below
  omega

theorem mark_eq (t : Table) (data : Int → Int) :
    t.mark data = setword data t.count (marked (data t.count)) := by
  unfold Table.mark marked
  simp only
  by_cases fresh : 0 ≤ wrap (data t.count)
  · rw [if_pos fresh, if_pos fresh]
  rw [if_neg fresh, if_neg fresh]
  funext x
  unfold setword
  split_ifs with same
  · rw [same]
  · rfl

/-- What the words hold after the first pass. -/
def marks (text : List Inst) (data : Int → Int) : Int → Int :=
  text.foldl (fun data instr => instr.mark data) data

/-- The counts of the tables are marked, however many instructions have them. -/
theorem marks_spec (text : List Inst) (data : Int → Int) (w : Int) :
    ((∃ instr ∈ text, ∃ t, instr.table = some t ∧ t.count = w) →
      marks text data w = marked (data w)) ∧
    ((∀ instr ∈ text, ∀ t, instr.table = some t → t.count ≠ w) →
      marks text data w = data w) := by
  induction text generalizing data with
  | nil =>
    constructor
    · rintro ⟨instr, member, -⟩
      exact absurd member not_mem_nil
    · exact fun _ => rfl
  | cons instr rest ih =>
    have unfolds : marks (instr :: rest) data = marks rest (instr.mark data) := rfl
    rw [unfolds]
    have next := ih (instr.mark data)
    have step : (∃ t, instr.table = some t ∧ t.count = w) ∧ instr.mark data w = marked (data w) ∨
        (∀ t, instr.table = some t → t.count ≠ w) ∧ instr.mark data w = data w := by
      unfold Inst.mark
      cases instr.table with
      | none => exact Or.inr ⟨nofun, rfl⟩
      | some t =>
        simp only [mark_eq]
        by_cases same : t.count = w
        · refine Or.inl ⟨⟨t, rfl, same⟩, ?_⟩
          rw [← same, setword_same]
        refine Or.inr ⟨?_, setword_of_ne data _ fun same' => same same'.symm⟩
        intro _ is
        cases is
        exact same
    by_cases later : ∃ instr ∈ rest, ∃ t, instr.table = some t ∧ t.count = w
    · have result := next.1 later
      refine ⟨fun _ => ?_, fun none => ?_⟩
      · rcases step with ⟨-, here⟩ | ⟨-, here⟩
        · rw [result, here, marked_marked]
        · rw [result, here]
      · have ⟨instr', member, t, is, same⟩ := later
        exact absurd same (none instr' (mem_cons_of_mem _ member) t is)
    have absent : ∀ instr ∈ rest, ∀ t, instr.table = some t → t.count ≠ w :=
      fun instr member t is same => later ⟨instr, member, t, is, same⟩
    rw [next.2 absent]
    rcases step with ⟨⟨t, is, same⟩, here⟩ | ⟨other, here⟩
    · exact ⟨fun _ => here, fun none => absurd same (none instr (mem_cons_self ..) t is)⟩
    refine ⟨?_, fun _ => here⟩
    rintro ⟨instr', member, t, is, same⟩
    rcases mem_cons.1 member with rfl | inRest
    · exact absurd same (other t is)
    · exact absurd ⟨instr', inRest, t, is, same⟩ later

/-! ### Tables -/

def Inst.count : Inst → Option Int
  | .case d => some (comcase d).count
  | .casel d => some (comcasel d).count
  | .goto d => some (d - 1)
  | _ => none

def Inst.pcs (data : Int → Int) : Inst → List Int
  | .case d => (comcase d).pcs (number (data (comcase d).count)).toNat
  | .casel d => (comcasel d).pcs (number (data (comcasel d).count)).toNat
  | .goto d => gotopcs d (data (d - 1)).toNat
  | _ => []

def Inst.words (data : Int → Int) (instr : Inst) : List Int :=
  instr.count.toList ++ instr.pcs data

/-- No two tables have one of these words in common. Several instructions may have one table. -/
def Apart (text : List Inst) (data : Int → Int) : Prop :=
  ∀ a ∈ text, ∀ b ∈ text, a ≠ b → ∀ w ∈ a.words data, w ∉ b.words data

variable {t : Table} {instr : Inst}

theorem Table.mem_pcs : w ∈ t.pcs n ↔
    (∃ k < n, w = t.first + t.stride * (k : Int) + 2) ∨ w = t.first + t.stride * (n : Int) := by
  unfold Table.pcs
  rw [mem_append, mem_map, mem_singleton]
  simp only [mem_range, eq_comm]

theorem Table.nodup_pcs (wide : 3 ≤ t.stride) (n : Nat) : (t.pcs n).Nodup := by
  unfold Table.pcs
  rw [nodup_append]
  refine ⟨?_, nodup_singleton _, ?_⟩
  · apply List.Nodup.map _ nodup_range
    intro j k same
    have equal : (t.stride : Int) * j = t.stride * k := by
      simp only at same
      omega
    exact Int.ofNat_inj.1 (Int.eq_of_mul_eq_mul_left (by omega) equal)
  intro _ member _ last same
  obtain ⟨k, inside, rfl⟩ := mem_map.1 member
  rw [mem_range] at inside
  rw [mem_singleton.1 last] at same
  have bound : (t.stride : Int) * (k + 1) ≤ t.stride * n :=
    Int.mul_le_mul_of_nonneg_left (by omega) (by omega)
  rw [Int.mul_add, Int.mul_one] at bound
  omega

theorem Table.first_le (member : w ∈ t.pcs n) : t.first ≤ w := by
  have bound (k : Nat) : 0 ≤ (t.stride : Int) * k := Int.mul_nonneg (by omega) (by omega)
  rcases Table.mem_pcs.1 member with ⟨k, -, rfl⟩ | rfl
  · have nonneg := bound k
    omega
  · have nonneg := bound n
    omega

theorem mem_gotopcs : w ∈ gotopcs d n ↔ ∃ k < n, w = d + (k : Int) := by
  unfold gotopcs
  rw [mem_map]
  simp only [mem_range, eq_comm]

theorem nodup_gotopcs (d : Int) (n : Nat) : (gotopcs d n).Nodup := by
  apply List.Nodup.map _ nodup_range
  intro _ _ same
  simp only at same
  omega

theorem Inst.count_not_mem (is : instr.count = some w) (data : Int → Int) : w ∉ instr.pcs data := by
  intro member
  cases instr with
  | case d =>
    cases is
    have low := Table.first_le member
    have behind : d + 1 ≤ d := low
    omega
  | casel d =>
    cases is
    have low := Table.first_le member
    have behind : d + 2 ≤ d := low
    omega
  | goto _ =>
    cases is
    obtain ⟨_, -, _⟩ := mem_gotopcs.1 member
    omega
  | movpc _ => cases is
  | other => cases is

theorem Inst.nodup_pcs (data : Int → Int) (instr : Inst) : (instr.pcs data).Nodup := by
  cases instr with
  | case _ => exact Table.nodup_pcs (Nat.le_refl 3) _
  | casel _ => exact Table.nodup_pcs (show 3 ≤ 4 by decide) _
  | goto d => exact nodup_gotopcs d _
  | movpc _ => exact nodup_nil
  | other => exact nodup_nil

theorem mem_words : w ∈ instr.words data ↔ instr.count = some w ∨ w ∈ instr.pcs data := by
  unfold Inst.words
  rw [mem_append, Option.mem_toList]

theorem Inst.count_mem_words (is : instr.count = some w) (data : Int → Int) :
    w ∈ instr.words data := mem_words.2 (Or.inl is)

theorem Inst.pcs_mem_words (member : w ∈ instr.pcs data) :
    w ∈ instr.words data := mem_words.2 (Or.inr member)

theorem Inst.count_of_table (is : instr.table = some t) : instr.count = some t.count := by
  cases instr with
  | case _ =>
    cases is
    rfl
  | casel _ =>
    cases is
    rfl
  | goto _ => cases is
  | movpc _ => cases is
  | other => cases is

/-! ### The second pass -/

def Inst.saves : Inst → Option Int
  | .movpc imm => some imm
  | _ => none

/-- What the words hold where the second pass has done the instructions `done`. -/
structure Words (look : Int → Option Int) (text : List Inst) (data : Int → Int)
    (done : List Inst) (after : Int → Int) : Prop where
  pcs : ∀ instr ∈ done, ∀ w ∈ instr.pcs data, look (data w) = some (after w)
  counts : ∀ instr ∈ done, ∀ table, instr.table = some table →
    after table.count = number (data table.count)
  gotos : ∀ d, .goto d ∈ done → after (d - 1) = 0
  rest : ∀ w, (∀ instr ∈ done, w ∉ instr.words data) → after w = marks text data w

def Saved (look : Int → Option Int) (done : List Inst) (before after : List Int) : Prop :=
  ∃ addresses, after = before ++ addresses ∧
    List.Forall₂ (fun imm address => look imm = some address) (done.filterMap Inst.saves) addresses

/-- The second pass over the instructions `done` has made the module `t` of the module `m`. -/
structure Relocs (look : Int → Option Int) (text : List Inst) (data : Int → Int)
    (done : List Inst) (m t : Module) : Prop where
  kept : t = { m with data := t.data, saved := t.saved }
  words : Words look text data done t.data
  saved : Saved look done m.saved t.saved

def Known (look : Int → Option Int) (text : List Inst) (data : Int → Int) : Prop :=
  ∀ instr ∈ text, (∀ w ∈ instr.pcs data, ∃ address, look (data w) = some address) ∧
    ∀ imm, instr.saves = some imm → ∃ address, look imm = some address

section Second

variable {look : Int → Option Int} {text done : List Inst} {data after : Int → Int} {m t : Module}
  {instr : Inst}

theorem Words.nil : Words look text data [] (marks text data) where
  pcs := nofun
  counts := nofun
  gotos := nofun
  rest := fun _ _ => rfl

theorem Words.again (words : Words look text data done after)
    (old : instr ∈ done ∨ instr.words data = []) :
    Words look text data (done ++ [instr]) after := by
  have before {w : Int} {instr' : Inst} (member : instr' ∈ done ++ [instr])
      (word : w ∈ instr'.words data) : instr' ∈ done := by
    rcases mem_append.1 member with inDone | last
    · exact inDone
    rw [mem_singleton.1 last] at word ⊢
    rcases old with inDone | none
    · exact inDone
    · rw [none] at word
      exact absurd word not_mem_nil
  refine ⟨?_, ?_, ?_, ?_⟩
  · intro instr' member w inPcs
    exact words.pcs instr' (before member (Inst.pcs_mem_words inPcs)) w inPcs
  · intro instr' member table is
    have word := Inst.count_mem_words (Inst.count_of_table is) data
    exact words.counts instr' (before member word) table is
  · intro d member
    have word : d - 1 ∈ (Inst.goto d).words data := Inst.count_mem_words rfl data
    exact words.gotos d (before member word)
  · intro w absent
    exact words.rest w fun instr' member => absent instr' (mem_append_left _ member)

theorem Words.table {later : Int → Int} (words : Words look text data done after)
    (fresh : ∀ instr' ∈ done, ∀ w ∈ instr'.words data, w ∉ instr.words data)
    (pcs : ∀ w ∈ instr.pcs data, look (data w) = some (later w))
    (counts : ∀ table, instr.table = some table → later table.count = number (data table.count))
    (gotos : ∀ d, instr = .goto d → later (d - 1) = 0)
    (rest : ∀ w, w ∉ instr.words data → later w = after w) :
    Words look text data (done ++ [instr]) later where
  pcs := by
    intro instr' member w inPcs
    rcases mem_append.1 member with inDone | last
    · rw [rest w (fresh instr' inDone w (Inst.pcs_mem_words inPcs))]
      exact words.pcs instr' inDone w inPcs
    · rw [mem_singleton.1 last] at inPcs
      exact pcs w inPcs
  counts := by
    intro instr' member table is
    rcases mem_append.1 member with inDone | last
    · have word := Inst.count_mem_words (Inst.count_of_table is) data
      rw [rest _ (fresh instr' inDone _ word)]
      exact words.counts instr' inDone table is
    · rw [mem_singleton.1 last] at is
      exact counts table is
  gotos := by
    intro d member
    rcases mem_append.1 member with inDone | last
    · have word : d - 1 ∈ (Inst.goto d).words data := Inst.count_mem_words rfl data
      rw [rest _ (fresh _ inDone _ word)]
      exact words.gotos d inDone
    · exact gotos d (mem_singleton.1 last).symm
  rest := by
    intro w absent
    rw [rest w (absent instr (mem_append_right _ (mem_singleton_self _)))]
    exact words.rest w fun instr' member => absent instr' (mem_append_left _ member)

theorem Saved.none {before after : List Int} (saved : Saved look done before after)
    (saves : instr.saves = .none) : Saved look (done ++ [instr]) before after := by
  unfold Saved
  rw [filterMap_append, filterMap_cons_none saves, filterMap_nil, append_nil]
  exact saved

theorem Saved.some {before after : List Int} {imm address : Int}
    (saved : Saved look done before after) (saves : instr.saves = .some imm)
    (known : look imm = .some address) :
    Saved look (done ++ [instr]) before (after ++ [address]) := by
  obtain ⟨addresses, rfl, each⟩ := saved
  refine ⟨addresses ++ [address], append_assoc _ _ _, ?_⟩
  rw [filterMap_append, filterMap_cons_some saves, filterMap_nil]
  exact rel_append each (List.Forall₂.cons known List.Forall₂.nil)

/-- The words of a table that is not done yet are as the first pass left them. -/
theorem Words.fresh (words : Words look text data done after) (apart : Apart text data)
    (within : ∀ instr' ∈ done, instr' ∈ text) (member : instr ∈ text) (new : instr ∉ done) :
    (∀ w ∈ instr.words data, after w = marks text data w) ∧
      ∀ instr' ∈ done, ∀ w ∈ instr'.words data, w ∉ instr.words data := by
  have clear : ∀ instr' ∈ done, ∀ w ∈ instr'.words data, w ∉ instr.words data := by
    intro instr' inDone
    apply apart instr' (within instr' inDone) instr member
    rintro rfl
    exact new inDone
  refine ⟨?_, clear⟩
  intro w word
  exact words.rest w fun instr' inDone word' => clear instr' inDone w word' word

theorem marks_pcs (apart : Apart text data) (member : instr ∈ text) (inPcs : w ∈ instr.pcs data) :
    marks text data w = data w := by
  apply (marks_spec text data w).2
  rintro instr' inText table is rfl
  by_cases same : instr' = instr
  · rw [same] at is
    exact Inst.count_not_mem (Inst.count_of_table is) data inPcs
  · exact apart instr' inText instr member same _
      (Inst.count_mem_words (Inst.count_of_table is) data) (Inst.pcs_mem_words inPcs)

theorem reloc_case (words : Words look text data done after) (apart : Apart text data)
    (within : ∀ instr' ∈ done, instr' ∈ text) (member : instr ∈ text) {table : Table}
    (is : instr.table = some table)
    (pcs : instr.pcs data = table.pcs (number (data table.count)).toNat)
    (known : ∀ w ∈ instr.pcs data, ∃ address, look (data w) = some address) :
    ∃ later, table.reloc look after = some later ∧
      Words look text data (done ++ [instr]) later := by
  have count := Inst.count_of_table is
  have word := Inst.count_mem_words count data
  unfold Table.reloc
  simp only
  by_cases old : instr ∈ done
  · have small : wrap (number (data table.count)) = number (data table.count) := by
      have bound := inWord_wrap (data table.count)
      apply wrap_of_inWord
      unfold InWord number at *
      split_ifs
      · exact bound
      · omega
    rw [words.counts instr old table is, small, if_pos (number_nonneg _)]
    exact ⟨after, rfl, words.again (Or.inl old)⟩
  · have ⟨unchanged, fresh⟩ := words.fresh apart within member old
    have here : wrap (after table.count) = -number (data table.count) - 1 := by
      rw [unchanged _ word, (marks_spec text data _).1 ⟨instr, member, table, is, rfl⟩,
        wrap_marked]
    have nonneg := number_nonneg (data table.count)
    have back : -(-number (data table.count) - 1) - 1 = number (data table.count) := by omega
    rw [here, if_neg (by omega), back, ← pcs]
    have notCount {w : Int} (inPcs : w ∈ instr.pcs data) : w ≠ table.count := by
      rintro rfl
      exact Inst.count_not_mem count data inPcs
    have plain {w : Int} (inPcs : w ∈ instr.pcs data) :
        setword after table.count (number (data table.count)) w = data w := by
      rw [setword_of_ne _ _ (notCount inPcs), unchanged w (Inst.pcs_mem_words inPcs),
        marks_pcs apart member inPcs]
    have ⟨later, relocated, inside, outside⟩ := @relocwords_spec look (instr.pcs data)
      (Inst.nodup_pcs data instr) (setword after table.count (number (data table.count))) (by
        intro w inPcs
        rw [plain inPcs]
        exact known w inPcs)
    refine ⟨later, relocated, words.table fresh ?_ ?_ ?_ ?_⟩
    · intro w inPcs
      have at_ := inside w inPcs
      rw [plain inPcs] at at_
      exact at_
    · intro _ is'
      cases is.symm.trans is'
      rw [outside _ (Inst.count_not_mem count data), setword_same]
    · intro _ same
      rw [same] at is
      cases is
    intro w absent
    rw [outside w fun inPcs => absent (Inst.pcs_mem_words inPcs)]
    apply setword_of_ne
    rintro rfl
    exact absent word

theorem reloc_goto (words : Words look text data done after) (apart : Apart text data)
    (within : ∀ instr' ∈ done, instr' ∈ text) (member : .goto d ∈ text)
    (known : ∀ w ∈ (Inst.goto d).pcs data, ∃ address, look (data w) = some address) :
    ∃ later, comgoto look d after = some later ∧
      Words look text data (done ++ [.goto d]) later := by
  have word : d - 1 ∈ (Inst.goto d).words data := Inst.count_mem_words rfl data
  unfold comgoto
  by_cases old : .goto d ∈ done
  · have same : setword after (d - 1) 0 = after := by
      funext w
      unfold setword
      split_ifs with here
      · rw [here, words.gotos d old]
      · rfl
    rw [words.gotos d old, same]
    exact ⟨after, rfl, words.again (Or.inl old)⟩
  have ⟨unchanged, fresh⟩ := words.fresh apart within member old
  have unmarked : marks text data (d - 1) = data (d - 1) := by
    apply (marks_spec text data _).2
    intro instr' inText _ is same
    have count := Inst.count_of_table is
    rw [same] at count
    apply apart instr' inText _ member _ _ (Inst.count_mem_words count data) word
    rintro rfl
    cases is
  have notCount {w : Int} (inPcs : w ∈ (Inst.goto d).pcs data) : w ≠ d - 1 := by
    rintro rfl
    exact Inst.count_not_mem (show (Inst.goto d).count = _ from rfl) data inPcs
  have plain {w : Int} (inPcs : w ∈ (Inst.goto d).pcs data) :
      setword after (d - 1) 0 w = data w := by
    rw [setword_of_ne _ _ (notCount inPcs), unchanged w (Inst.pcs_mem_words inPcs),
      marks_pcs apart member inPcs]
  have pcs : gotopcs d (after (d - 1)).toNat = (Inst.goto d).pcs data := by
    rw [unchanged _ word, unmarked]
    rfl
  have ⟨later, relocated, inside, outside⟩ := @relocwords_spec look ((Inst.goto d).pcs data)
    (Inst.nodup_pcs data _) (setword after (d - 1) 0) (by
      intro w inPcs
      rw [plain inPcs]
      exact known w inPcs)
  rw [pcs]
  refine ⟨later, relocated, words.table fresh ?_ nofun ?_ ?_⟩
  · intro w inPcs
    have at_ := inside w inPcs
    rw [plain inPcs] at at_
    exact at_
  · intro _ same
    cases same
    rw [outside _ (Inst.count_not_mem (show (Inst.goto d).count = _ from rfl) data),
      setword_same]
  intro w absent
  rw [outside w fun inPcs => absent (Inst.pcs_mem_words inPcs)]
  apply setword_of_ne
  rintro rfl
  exact absent word

theorem Relocs.next (relocs : Relocs look text data done m t) (apart : Apart text data)
    (known : Known look text data) (within : ∀ instr' ∈ done, instr' ∈ text)
    (member : instr ∈ text) :
    ∃ later, instr.reloc look t = some later ∧
      Relocs look text data (done ++ [instr]) m later := by
  have pcs := (known instr member).1
  cases instr with
  | case d =>
    have ⟨later, relocated, words⟩ :=
      reloc_case relocs.words apart within member rfl rfl pcs
    refine ⟨{ t with data := later }, ?_, ?_, words, relocs.saved.none rfl⟩
    · show Option.map _ ((comcase d).reloc look t.data) = _
      rw [relocated]
      rfl
    · rw [relocs.kept]
  | casel d =>
    have ⟨later, relocated, words⟩ :=
      reloc_case relocs.words apart within member rfl rfl pcs
    refine ⟨{ t with data := later }, ?_, ?_, words, relocs.saved.none rfl⟩
    · show Option.map _ ((comcasel d).reloc look t.data) = _
      rw [relocated]
      rfl
    · rw [relocs.kept]
  | goto d =>
    have ⟨later, relocated, words⟩ := reloc_goto relocs.words apart within member pcs
    refine ⟨{ t with data := later }, ?_, ?_, words, relocs.saved.none rfl⟩
    · show Option.map _ (comgoto look d t.data) = _
      rw [relocated]
      rfl
    · rw [relocs.kept]
  | movpc imm =>
    have ⟨address, found⟩ := (known _ member).2 imm rfl
    refine ⟨{ t with saved := t.saved ++ [address] }, ?_, ?_, relocs.words.again (Or.inr rfl),
      relocs.saved.some rfl found⟩
    · show Option.map _ (look imm) = _
      rw [found]
      rfl
    · rw [relocs.kept]
  | other => exact ⟨t, rfl, relocs.kept, relocs.words.again (Or.inr rfl), relocs.saved.none rfl⟩

/-- The second pass over the first instructions. -/
theorem relocs_run (apart : Apart text data) (known : Known look text data)
    (same : m.data = marks text data) {front back : List Inst} (split : text = front ++ back) :
    ∃ t, run (Inst.reloc look) m front = some t ∧ Relocs look text data front m t := by
  have within {done : List Inst} {instr : Inst} {rest : List Inst}
      (parts : front = done ++ instr :: rest) :
      (∀ instr' ∈ done, instr' ∈ text) ∧ instr ∈ text := by
    rw [split, parts]
    constructor
    · intro _ member
      simp [member]
    · simp
  have initial : Relocs look text data [] m m := by
    refine ⟨rfl, ?_, [], (append_nil _).symm, List.Forall₂.nil⟩
    rw [same]
    exact Words.nil
  have taken (done : List Inst) (instr : Inst) (rest : List Inst) (s : Module)
      (parts : front = done ++ instr :: rest) (relocs : Relocs look text data done m s) :
      ∃ after, instr.reloc look s = some after ∧
        Relocs look text data (done ++ [instr]) m after :=
    relocs.next apart known (within parts).1 (within parts).2
  exact run_history taken initial

end Second

end Infernode.Jit
