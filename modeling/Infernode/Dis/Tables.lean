import Infernode.Dis.Icase
import Infernode.Limbo.Bodies
import Mathlib.Data.List.Nodup

/-!
The tables of a case in the data of a module.

Owns: that a datum is read back from where it was put, where the data of a table are, and what the
searches of a table of bounds find.
-/

namespace Infernode.Dis

open Limbo Search Text List

/-! ### Data -/

theorem u32_disint (v : Int) : u32 (disint v) = v % 4294967296 := by
  show ((((0 : Int) * 256 + ((v / 16777216 % 256).toNat : Int)) * 256 +
    ((v / 65536 % 256).toNat : Int)) * 256 + ((v / 256 % 256).toNat : Int)) * 256 +
      ((v / 1 % 256).toNat : Int) = v % 4294967296
  omega

theorem disw_disint (v : Int) : disw (disint v) = wrap v := by
  unfold disw wrap
  rw [u32_disint]
  exact Int.emod_bmod v 4294967296

theorem disl_disbig (v : Int) : disl (disbig v) = v.bmod (2 ^ 64) := by
  have first : (disbig v).take 4 = disint (v / 4294967296) := rfl
  have second : (disbig v).drop 4 = disint v := rfl
  unfold disl
  rw [first, second, u32_disint, u32_disint]
  have whole : v / 4294967296 % 4294967296 * 2 ^ 32 + v % 4294967296 =
      v % 18446744073709551616 := by
    omega
  rw [whole]
  exact Int.emod_bmod v 18446744073709551616

section Loads

variable {items : List (Nat × Datum)} {data : Data} {o : Nat}

theorem load_of_ne {item : Nat × Datum} (other : item.1 ≠ o) :
    (data.load item).W o = data.W o ∧ (data.load item).S o = data.S o := by
  have ⟨offset, datum⟩ := item
  have different : ¬ o = offset := fun same => other same.symm
  cases datum with
  | int _ => exact ⟨if_neg different, rfl⟩
  | big _ => exact ⟨if_neg different, rfl⟩
  | string _ => exact ⟨rfl, if_neg different⟩

theorem loaded_of_not_mem (absent : o ∉ items.map Prod.fst) :
    (items.foldl Data.load data).W o = data.W o ∧ (items.foldl Data.load data).S o = data.S o := by
  induction items generalizing data with
  | nil => exact ⟨rfl, rfl⟩
  | cons item _ ih =>
    rw [map_cons, mem_cons, not_or] at absent
    have kept := @load_of_ne data o item fun same => absent.1 same.symm
    rw [foldl_cons, (ih absent.2).1, (ih absent.2).2]
    exact kept

/-- What is put at an offset of its own is read back. -/
theorem loaded_of_mem {datum : Datum} (nodup : (items.map Prod.fst).Nodup)
    (member : (o, datum) ∈ items) : ∃ before : Data,
      (items.foldl Data.load data).W o = (before.load (o, datum)).W o ∧
        (items.foldl Data.load data).S o = (before.load (o, datum)).S o := by
  induction items generalizing data with
  | nil => exact absurd member not_mem_nil
  | cons _ _ ih =>
    rw [map_cons, nodup_cons] at nodup
    rw [foldl_cons]
    rcases mem_cons.1 member with rfl | later
    · exact ⟨data, loaded_of_not_mem nodup.1⟩
    · exact ih nodup.2 later

theorem loaded_int {v : Int} (nodup : (items.map Prod.fst).Nodup) (member : (o, .int v) ∈ items) :
    (loaded items).W o = wrap v := by
  obtain ⟨_, word, -⟩ := @loaded_of_mem items Data.initial o _ nodup member
  rw [← disw_disint]
  exact word.trans (if_pos rfl)

theorem loaded_big {v : Int} (nodup : (items.map Prod.fst).Nodup) (member : (o, .big v) ∈ items) :
    (loaded items).W o = v.bmod (2 ^ 64) := by
  obtain ⟨_, word, -⟩ := @loaded_of_mem items Data.initial o _ nodup member
  rw [← disl_disbig]
  exact word.trans (if_pos rfl)

theorem loaded_string {name : List Nat} (nodup : (items.map Prod.fst).Nodup)
    (member : (o, .string name) ∈ items) : (loaded items).S o = some (literal name) := by
  obtain ⟨_, -, string⟩ := @loaded_of_mem items Data.initial o _ nodup member
  exact string.trans (if_pos rfl)

theorem loaded_none (absent : o ∉ items.map Prod.fst) : (loaded items).S o = none :=
  (@loaded_of_not_mem items Data.initial o absent).2

end Loads

/-! ### Tables -/

/-- The data of an entry are within it, at different offsets. -/
structure Enclosed {α : Type} (stride : Nat) (entry : Nat → Label α → List (Nat × Datum)) : Prop where
  low : ∀ offset lab, ∀ item ∈ entry offset lab, offset ≤ item.1
  high : ∀ offset lab, ∀ item ∈ entry offset lab, item.1 < offset + stride
  nodup : ∀ offset lab, ((entry offset lab).map Prod.fst).Nodup

def table {α : Type} (stride base : Nat) (entry : Nat → Label α → List (Nat × Datum))
    (labs : List (Label α)) (count wild : Int) : List (Nat × Datum) :=
  (0, .int count) :: (entries stride entry base labs ++ [(base + stride * labs.length, .int wild)])

section Entries

variable {α : Type} {stride : Nat} {entry : Nat → Label α → List (Nat × Datum)} {offset : Nat}
  {labs : List (Label α)}

theorem mem_entries {item : Nat × Datum} : item ∈ entries stride entry offset labs ↔
    ∃ i lab, labs[i]? = some lab ∧ item ∈ entry (offset + i * stride) lab := by
  induction labs generalizing offset with
  | nil =>
    constructor
    · intro member
      exact absurd member not_mem_nil
    · rintro ⟨i, lab, is, -⟩
      exact absurd is (by simp)
  | cons lab _ ih =>
    unfold entries
    rw [mem_append, ih]
    constructor
    · rintro (here | ⟨i, lab', is, member⟩)
      · exact ⟨0, lab, rfl, by rw [Nat.zero_mul]; exact here⟩
      · refine ⟨i + 1, lab', is, ?_⟩
        rw [Nat.add_mul, Nat.one_mul, Nat.add_comm (i * stride), ← Nat.add_assoc]
        exact member
    rintro ⟨i, lab', is, member⟩
    cases i with
    | zero =>
      cases is
      rw [Nat.zero_mul] at member
      exact Or.inl member
    | succ i =>
      refine Or.inr ⟨i, lab', is, ?_⟩
      rw [Nat.add_mul, Nat.one_mul, Nat.add_comm (i * stride), ← Nat.add_assoc] at member
      exact member

theorem entries_enclosed (enclosed : Enclosed stride entry) (item : Nat × Datum)
    (member : item ∈ entries stride entry offset labs) :
    offset ≤ item.1 ∧ item.1 < offset + stride * labs.length := by
  have ⟨i, _, is, member⟩ := mem_entries.1 member
  have inside := (List.getElem?_eq_some_iff.1 is).1
  have low := enclosed.low _ _ item member
  have high := enclosed.high _ _ item member
  have last : (i + 1) * stride ≤ labs.length * stride := Nat.mul_le_mul_right stride inside
  rw [Nat.succ_mul] at last
  rw [Nat.mul_comm stride]
  omega

theorem nodup_entries (enclosed : Enclosed stride entry) :
    ((entries stride entry offset labs).map Prod.fst).Nodup := by
  induction labs generalizing offset with
  | nil => exact nodup_nil
  | cons lab _ ih =>
    unfold entries
    rw [map_append, nodup_append]
    refine ⟨enclosed.nodup offset lab, ih, ?_⟩
    intro _ here _ there _
    obtain ⟨item, member, rfl⟩ := mem_map.1 here
    obtain ⟨item', member', rfl⟩ := mem_map.1 there
    have high := enclosed.high offset lab item member
    have low := (entries_enclosed enclosed item' member').1
    omega

theorem nodup_table (enclosed : Enclosed stride entry) {base : Nat} (positive : 0 < base)
    (count wild : Int) : ((table stride base entry labs count wild).map Prod.fst).Nodup := by
  unfold table
  rw [map_cons, map_append, nodup_cons, nodup_append]
  refine ⟨?_, nodup_entries enclosed, nodup_singleton _, ?_⟩
  · intro member
    rcases mem_append.1 member with inside | last
    · have ⟨item, member, same⟩ := mem_map.1 inside
      have low := (entries_enclosed enclosed item member).1
      omega
    · have same : 0 = base + stride * labs.length := mem_singleton.1 last
      omega
  · intro _ here o' there _
    obtain ⟨item, member, rfl⟩ := mem_map.1 here
    have last : o' = base + stride * labs.length := mem_singleton.1 there
    have high := (entries_enclosed enclosed item member).2
    omega

theorem mem_table {base i k : Nat} {lab : Label α} {count wild : Int} (enclosed : Enclosed stride entry)
    (positive : 0 < base) (is : labs[i]? = some lab) (small : k < stride) {datum : Datum} :
    (base + i * stride + k, datum) ∈ table stride base entry labs count wild ↔
      (base + i * stride + k, datum) ∈ entry (base + i * stride) lab := by
  have inside := (List.getElem?_eq_some_iff.1 is).1
  have last : (i + 1) * stride ≤ labs.length * stride := Nat.mul_le_mul_right stride inside
  rw [Nat.succ_mul, Nat.mul_comm labs.length] at last
  unfold table
  rw [mem_cons, mem_append, mem_singleton]
  constructor
  · rintro (head | member | end_)
    · have same := congrArg Prod.fst head
      simp only at same
      omega
    · have ⟨j, _, is', member⟩ := mem_entries.1 member
      have low := enclosed.low _ _ _ member
      have high := enclosed.high _ _ _ member
      simp only at low high
      have same : j = i := by
        rcases Nat.lt_trichotomy j i with before | same | after
        · have bound : (j + 1) * stride ≤ i * stride := Nat.mul_le_mul_right stride before
          rw [Nat.succ_mul] at bound
          omega
        · exact same
        · have bound : (i + 1) * stride ≤ j * stride := Nat.mul_le_mul_right stride after
          rw [Nat.succ_mul] at bound
          omega
      rw [same] at is' member
      rw [is'] at is
      rw [← Option.some.inj is]
      exact member
    · have same := congrArg Prod.fst end_
      simp only at same
      omega
  · intro member
    exact Or.inr (Or.inl (mem_entries.2 ⟨i, lab, is, member⟩))

end Entries

/-! ### Tables of bounds -/

/-- The words of the labels from `base` on. The number behind a label comes out as that, except
that behind the greatest number there is the least. -/
structure Bounds (data : Data) (labs : List (Label Int)) (stride base : Nat) (half : Int) :
    Prop where
  start : ∀ i lab, labs[i]? = some lab → data.W (base + i * stride) = lab.start
  stop : ∀ i lab, labs[i]? = some lab → data.W (base + i * stride + 8) =
    if lab.stop = half - 1 then -half else lab.stop + 1
  least : ∀ lab ∈ labs, -half ≤ lab.start
  greatest : ∀ lab ∈ labs, lab.stop < half

section Bounded

variable {data : Data} {labs : List (Label Int)} {stride base : Nat} {half v : Int}

theorem probe_eq_iff (bounds : Bounds data labs stride base half) {i : Nat} {lab : Label Int}
    (is : labs[i]? = some lab) (least : -half ≤ v) : probe data v (base + i * stride) = .eq ↔
      lab.Has v ∧ lab.stop ≠ half - 1 := by
  have start := bounds.start i lab is
  have stop := bounds.stop i lab is
  unfold probe Label.Has
  rw [start, stop]
  by_cases below : v < lab.start
  · rw [if_pos below]
    constructor
    · nofun
    · rintro ⟨has, -⟩
      omega
  rw [if_neg below]
  by_cases top : lab.stop = half - 1
  · rw [if_pos top, if_pos least]
    constructor
    · nofun
    · rintro ⟨-, other⟩
      exact absurd top other
  rw [if_neg top]
  by_cases above : lab.stop + 1 ≤ v
  · rw [if_pos above]
    constructor
    · nofun
    · rintro ⟨has, -⟩
      omega
  · rw [if_neg above]
    exact ⟨fun _ => ⟨⟨by omega, by omega⟩, top⟩, fun _ => rfl⟩

theorem ordered_probe (bounds : Bounds data labs stride base half) (lined : Lined labs)
    (v : Int) : Ordered stride (probe data v) labs.length base := by
  intro i j before inside notAbove
  obtain ⟨b, isB⟩ : ∃ b, labs[j]? = some b := ⟨_, getElem?_eq_getElem inside⟩
  obtain ⟨a, isA⟩ : ∃ a, labs[i]? = some a := ⟨_, getElem?_eq_getElem (before.trans inside)⟩
  have apart := lined.before isA isB before
  have nonempty := lined.nonempty b (mem_of_getElem? isB)
  have greatest := bounds.greatest b (mem_of_getElem? isB)
  have startA := bounds.start i a isA
  have stopA := bounds.stop i a isA
  have startB := bounds.start j b isB
  rw [if_neg (by omega)] at stopA
  have nonemptyA := lined.nonempty a (mem_of_getElem? isA)
  have below : v < b.start := by
    by_contra beyond
    apply notAbove
    unfold probe
    rw [startA, stopA, if_neg (by omega), if_pos (by omega)]
  unfold probe
  rw [startB, if_pos below]

/-- The search finds the label that has the number, but for one that ends with the greatest. -/
theorem bisect_bounds (bounds : Bounds data labs stride base half) (lined : Lined labs)
    (least : -half ≤ v) {l : Nat} :
    bisect stride (probe data v) labs.length base = some l ↔ ∃ i lab, labs[i]? = some lab ∧
      l = base + i * stride ∧ lab.Has v ∧ lab.stop ≠ half - 1 := by
  rw [bisect_at (ordered_probe bounds lined v)]
  constructor
  · rintro ⟨i, inside, is, found⟩
    have at_ := getElem?_eq_getElem inside
    rw [is, probe_eq_iff bounds at_ least] at found
    exact ⟨i, _, at_, is, found⟩
  rintro ⟨i, lab, at_, is, has⟩
  refine ⟨i, (List.getElem?_eq_some_iff.1 at_).1, is, ?_⟩
  rw [is]
  exact (probe_eq_iff bounds at_ least).2 has

theorem selected_of_has (bounds : Bounds data labs stride base half) (lined : Lined labs)
    (least : -half ≤ v) {lab : Label Int} (member : lab ∈ labs) (has : lab.Has v)
    (lower : lab.stop ≠ half - 1) : ∃ i, labs[i]? = some lab ∧
      selected data stride base labs.length (bisect stride (probe data v) labs.length base) =
        data.W (base + i * stride + 2 * IBY2WD) := by
  have ⟨i, is⟩ := mem_iff_getElem?.1 member
  have found := (@bisect_bounds _ _ _ _ _ _ bounds lined least (base + i * stride)).2
    ⟨i, lab, is, rfl, has, lower⟩
  refine ⟨i, is, ?_⟩
  rw [found]
  rfl

theorem selected_of_none (bounds : Bounds data labs stride base half) (lined : Lined labs)
    (least : -half ≤ v) (none : ∀ lab ∈ labs, lab.Has v → lab.stop = half - 1) :
    selected data stride base labs.length (bisect stride (probe data v) labs.length base) =
      data.W (base + labs.length * stride) := by
  have missing : bisect stride (probe data v) labs.length base = .none := by
    rw [Option.eq_none_iff_forall_ne_some]
    intro _ found
    obtain ⟨_, lab, is, -, has, lower⟩ := (bisect_bounds bounds lined least).1 found
    exact lower (none lab (mem_of_getElem? is) has)
  rw [missing]
  rfl

end Bounded

/-! ### The tables of ints and bigs -/

theorem enclosed_intentry : Enclosed (3 * IBY2WD) intentry := by
  refine ⟨?_, ?_, ?_⟩
  · intro offset lab item member
    simp only [intentry, mem_cons, not_mem_nil, or_false] at member
    rcases member with rfl | rfl | rfl
    · exact Nat.le_refl _
    · exact Nat.le_add_right _ _
    · exact Nat.le_add_right _ _
  · intro offset lab _ member
    simp only [intentry, mem_cons, not_mem_nil, or_false] at member
    unfold IBY2WD at *
    rcases member with rfl | rfl | rfl
    · show offset < _
      omega
    · show offset + 8 < _
      omega
    · show offset + 2 * 8 < _
      omega
  · intro _ _
    unfold intentry IBY2WD
    simp

theorem enclosed_bigentry : Enclosed (2 * IBY2LG + 2 * IBY2WD) bigentry := by
  refine ⟨?_, ?_, ?_⟩
  · intro offset lab item member
    simp only [bigentry, mem_cons, not_mem_nil, or_false] at member
    rcases member with rfl | rfl | rfl
    · exact Nat.le_refl _
    · exact Nat.le_add_right _ _
    · exact Nat.le_add_right _ _
  · intro offset lab _ member
    simp only [bigentry, mem_cons, not_mem_nil, or_false] at member
    unfold IBY2WD IBY2LG at *
    rcases member with rfl | rfl | rfl
    · show offset < _
      omega
    · show offset + 8 < _
      omega
    · show offset + 2 * 8 < _
      omega
  · intro _ _
    unfold bigentry IBY2LG
    simp

/-- The words of a case fit: the labels are not too many, and their pcs are ints. -/
structure Fitting {α : Type} (c : Cse α) : Prop where
  few : (c.labs.length : Int) ≤ 2147483646
  pcs : ∀ lab ∈ c.labs, InWord (pcof lab)
  wild : InWord c.iwild

theorem count_of_fitting {α : Type} {c : Cse α} (fitting : Fitting c) :
    count (wrap c.labs.length) = c.labs.length := by
  have few := fitting.few
  rw [wrap_of_inWord ⟨by omega, by omega⟩]
  unfold count
  rw [if_neg (by omega)]
  rfl

section Words

variable {c : Cse Int} {v : Int}

theorem wrap_succ {x : Int} (word : InWord x) :
    wrap (x + 1) = if x = 2147483648 - 1 then -2147483648 else x + 1 := by
  unfold InWord at word
  by_cases top : x = 2147483648 - 1
  · rw [if_pos top, top]
    rfl
  · rw [if_neg top]
    exact wrap_of_inWord ⟨by omega, by omega⟩

theorem bmod_succ {x : Int} (least : -9223372036854775808 ≤ x) (greatest : x < 9223372036854775808) :
    (x + 1).bmod (2 ^ 64) =
      if x = 9223372036854775808 - 1 then -9223372036854775808 else x + 1 := by
  by_cases top : x = 9223372036854775808 - 1
  · rw [if_pos top, top]
    rfl
  rw [if_neg top]
  apply Int.bmod_eq_of_le
  · omega
  · omega

/-- The numbers of the labels are those of the type. -/
def Ranged (half : Int) (labs : List (Label Int)) : Prop :=
  ∀ lab ∈ labs, (-half ≤ lab.start ∧ lab.start < half) ∧ (-half ≤ lab.stop ∧ lab.stop < half)

abbrev searched (stride base : Nat) (entry : Nat → Label Int → List (Nat × Datum)) (c : Cse Int)
    (v : Int) : Int :=
  let data := loaded (table stride base entry c.labs c.labs.length c.iwild)
  selected data stride base (count (data.W 0))
    (bisect stride (probe data v) (count (data.W 0)) base)

/-- The entries of the table have their bounds and their pc in their places. -/
structure Placing (stride base : Nat) (entry : Nat → Label Int → List (Nat × Datum)) (half : Int) :
    Prop where
  enclosed : Enclosed stride entry
  positive : 0 < base
  room : 2 * IBY2WD < stride
  pc : ∀ offset lab, (offset + 2 * IBY2WD, .int (pcof lab)) ∈ entry offset lab
  bounds : ∀ c : Cse Int, Ranged half c.labs →
    Bounds (loaded (table stride base entry c.labs c.labs.length c.iwild)) c.labs stride base half

section Placings

variable {stride base : Nat} {entry : Nat → Label Int → List (Nat × Datum)} {half : Int}

theorem Placing.first (placing : Placing stride base entry half) (fitting : Fitting c) :
    count ((loaded (table stride base entry c.labs c.labs.length c.iwild)).W 0) =
      c.labs.length := by
  have word : (loaded (table stride base entry c.labs c.labs.length c.iwild)).W 0 =
      wrap c.labs.length :=
    loaded_int (nodup_table placing.enclosed placing.positive _ _) (mem_cons_self ..)
  rw [word, count_of_fitting fitting]

theorem Placing.of_has (placing : Placing stride base entry half) (lined : Lined c.labs)
    (fitting : Fitting c) (ranged : Ranged half c.labs) (least : -half ≤ v) {lab : Label Int}
    (member : lab ∈ c.labs) (has : lab.Has v) (lower : lab.stop ≠ half - 1) :
    searched stride base entry c v = pcof lab := by
  have ⟨i, is, found⟩ :=
    selected_of_has (placing.bounds c ranged) lined least member has lower
  have pc : (loaded (table stride base entry c.labs c.labs.length c.iwild)).W
      (base + i * stride + 2 * IBY2WD) = wrap (pcof lab) := by
    apply loaded_int (nodup_table placing.enclosed placing.positive _ _)
    exact (mem_table placing.enclosed placing.positive is placing.room).2 (placing.pc _ lab)
  unfold searched
  simp only
  rw [placing.first fitting, found, pc]
  exact wrap_of_inWord (fitting.pcs lab member)

theorem Placing.of_none (placing : Placing stride base entry half) (lined : Lined c.labs)
    (fitting : Fitting c) (ranged : Ranged half c.labs) (least : -half ≤ v)
    (none : ∀ lab ∈ c.labs, lab.Has v → lab.stop = half - 1) :
    searched stride base entry c v = c.iwild := by
  have missing := selected_of_none (placing.bounds c ranged) lined least none
  have last : (loaded (table stride base entry c.labs c.labs.length c.iwild)).W
      (base + stride * c.labs.length) = wrap c.iwild := by
    apply loaded_int (nodup_table placing.enclosed placing.positive _ _)
    exact mem_cons_of_mem _ (mem_append_right _ (mem_singleton_self _))
  unfold searched
  simp only
  rw [placing.first fitting, missing, Nat.mul_comm, last]
  exact wrap_of_inWord fitting.wild

end Placings

theorem placing_intentry : Placing (3 * IBY2WD) IBY2WD intentry 2147483648 where
  enclosed := enclosed_intentry
  positive := by decide
  room := by decide
  pc := fun offset lab =>
    mem_cons_of_mem _ (mem_cons_of_mem _ (mem_cons_self ..))
  bounds := by
    intro c ranged
    have nodup := @nodup_table _ _ _ c.labs enclosed_intentry IBY2WD (by decide) c.labs.length c.iwild
    refine ⟨?_, ?_, fun lab member => (ranged lab member).1.1, fun lab member =>
      (ranged lab member).2.2⟩
    · intro i lab is
      have range := (ranged lab (mem_of_getElem? is)).1
      have entry : (IBY2WD + i * (3 * IBY2WD) + 0, .int lab.start) ∈
          table (3 * IBY2WD) IBY2WD intentry c.labs c.labs.length c.iwild :=
        (mem_table enclosed_intentry (by decide) is (by decide)).2 (mem_cons_self ..)
      exact (loaded_int nodup entry).trans (wrap_of_inWord ⟨range.1, by omega⟩)
    · intro i lab is
      have range := (ranged lab (mem_of_getElem? is)).2
      have entry : (IBY2WD + i * (3 * IBY2WD) + 8, .int (lab.stop + 1)) ∈
          table (3 * IBY2WD) IBY2WD intentry c.labs c.labs.length c.iwild :=
        (mem_table enclosed_intentry (by decide) is (by decide)).2
          (mem_cons_of_mem _ (mem_cons_self ..))
      exact (loaded_int nodup entry).trans (wrap_succ ⟨range.1, by omega⟩)

theorem placing_bigentry :
    Placing (2 * IBY2LG + 2 * IBY2WD) (2 * IBY2WD) bigentry 9223372036854775808 where
  enclosed := enclosed_bigentry
  positive := by decide
  room := by decide
  pc := fun offset lab =>
    mem_cons_of_mem _ (mem_cons_of_mem _ (mem_cons_self ..))
  bounds := by
    intro c ranged
    have nodup :=
      @nodup_table _ _ _ c.labs enclosed_bigentry (2 * IBY2WD) (by decide) c.labs.length c.iwild
    refine ⟨?_, ?_, fun lab member => (ranged lab member).1.1, fun lab member =>
      (ranged lab member).2.2⟩
    · intro i lab is
      have range := (ranged lab (mem_of_getElem? is)).1
      have entry : (2 * IBY2WD + i * (2 * IBY2LG + 2 * IBY2WD) + 0, .big lab.start) ∈ table
          (2 * IBY2LG + 2 * IBY2WD) (2 * IBY2WD) bigentry c.labs c.labs.length c.iwild :=
        (mem_table enclosed_bigentry (by decide) is (by decide)).2 (mem_cons_self ..)
      refine (loaded_big nodup entry).trans (Int.bmod_eq_of_le ?_ ?_)
      · omega
      · omega
    · intro i lab is
      have range := (ranged lab (mem_of_getElem? is)).2
      have entry : (2 * IBY2WD + i * (2 * IBY2LG + 2 * IBY2WD) + 8, .big (lab.stop + 1)) ∈ table
          (2 * IBY2LG + 2 * IBY2WD) (2 * IBY2WD) bigentry c.labs c.labs.length c.iwild :=
        (mem_table enclosed_bigentry (by decide) is (by decide)).2
          (mem_cons_of_mem _ (mem_cons_self ..))
      exact (loaded_big nodup entry).trans (bmod_succ range.1 range.2)

end Words

end Infernode.Dis
