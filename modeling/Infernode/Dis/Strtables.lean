import Infernode.Dis.Chars
import Infernode.Dis.Tables
import Infernode.Limbo.Collate

/-!
The tables of strings.

Owns: that `stringcmp` compares the characters, what the strings of a table are, and that both
searches of such a table find the label that has the string.
-/

namespace Infernode.Dis

open Limbo Search Text List

/-! ### Comparison -/

/-- The chars of the string are below `Runeself`. -/
def Plain (s : DisString) : Prop := 0 ≤ s.len → ∀ i < s.length, s.ascii i < 0x80

/-- The characters of what a variable holds. -/
def charsOf (s : Option DisString) : Str := (s.getD snil).chars

theorem plain_snil : Plain snil := by
  intro _ i inside
  exact absurd inside (Nat.not_lt_zero i)

variable {i : Nat} {s : Str} {lab : Label Str}

section Compares

variable {s1 s2 : DisString} {c1 c2 : Nat → Int}

/-- The loops compare what is left of both strings. -/
theorem signs_comparefrom (is1 : ∀ i < s1.length, c1 i = s1.elem i)
    (is2 : ∀ i < s2.length, c2 i = s2.elem i) (n : Nat) : ∀ i,
      i + n = min s1.length s2.length →
        Signs (comparefrom c1 c2 ((s1.length : Int) - s2.length) n i) (s1.chars.drop i)
          (s2.chars.drop i) := by
  induction n with
  | zero =>
    intro i ends
    unfold comparefrom
    rcases Nat.le_total s1.length s2.length with shorter | longer
    · have empty : s1.chars.drop i = [] := by
        rw [drop_eq_nil_iff, DisString.length_chars]
        omega
      have rest : (s2.chars.drop i).length = s2.length - s1.length := by
        rw [length_drop, DisString.length_chars]
        omega
      have signs := Signs.nil_left (s2.chars.drop i)
      rw [rest] at signs
      rw [empty, show (s1.length : Int) - s2.length = -((s2.length - s1.length : Nat) : Int) by omega]
      exact signs
    · have empty : s2.chars.drop i = [] := by
        rw [drop_eq_nil_iff, DisString.length_chars]
        omega
      have rest : (s1.chars.drop i).length = s1.length - s2.length := by
        rw [length_drop, DisString.length_chars]
        omega
      have signs := Signs.nil_right (s1.chars.drop i)
      rw [rest] at signs
      rw [empty, show (s1.length : Int) - s2.length = ((s1.length - s2.length : Nat) : Int) by omega]
      exact signs
  | succ _ ih =>
    intro i _
    have inside1 : i < s1.length := by omega
    have inside2 : i < s2.length := by omega
    have drops (s : DisString) (inside : i < s.length) :
        s.chars.drop i = s.elem i :: s.chars.drop (i + 1) := by
      have at_ := s.getElem_chars inside
      have ⟨within, is⟩ := List.getElem?_eq_some_iff.1 at_
      rw [← is]
      exact drop_eq_getElem_cons within
    unfold comparefrom
    rw [drops s1 inside1, drops s2 inside2, is1 i inside1, is2 i inside2]
    by_cases differ : s1.elem i = s2.elem i
    · rw [if_neg (by rw [differ]; exact fun other => other rfl), differ]
      exact (ih (i + 1) (by omega)).cons _
    rw [if_pos (by omega)]
    apply Signs.head differ
    · split_ifs
      · omega
      · omega
    · split_ifs
      · omega
      · omega

theorem schar_of_plain {s : DisString} (plain : Plain s) (ascii : 0 ≤ s.len) (inside : i < s.length)
    : schar (s.ascii i) = s.elem i := by
  unfold schar DisString.elem
  rw [if_pos (plain ascii i inside), if_neg (by omega)]

theorem rune_elem {s : DisString} (runes : s.len < 0) (i : Nat) : ((s.rune i : Nat) : Int) = s.elem i := by
  unfold DisString.elem
  rw [if_pos runes]

theorem signs_stringcmp {s1 s2 : Option DisString} (plain1 : Plain (s1.getD snil))
    (plain2 : Plain (s2.getD snil)) : Signs (stringcmp s1 s2) (charsOf s1) (charsOf s2) := by
  unfold stringcmp charsOf
  generalize s1.getD snil = t1 at plain1 ⊢
  generalize s2.getD snil = t2 at plain2 ⊢
  simp only
  have loops {c1 c2 : Nat → Int} (is1 : ∀ i < t1.length, c1 i = t1.elem i)
      (is2 : ∀ i < t2.length, c2 i = t2.elem i) :
      Signs (comparefrom c1 c2 ((t1.length : Int) - t2.length) (min t1.length t2.length) 0)
        t1.chars t2.chars :=
    signs_comparefrom is1 is2 _ 0 (Nat.zero_add _)
  by_cases ascii1 : 0 ≤ t1.len
  · by_cases ascii2 : 0 ≤ t2.len
    · rw [if_pos ⟨ascii1, ascii2⟩]
      have take (t : DisString) (ascii : 0 ≤ t.len) (n : Nat) (inside : n ≤ t.length) :
          (List.range n).map t.ascii = t.chars.take n := by
        rw [DisString.chars_of_nonneg ascii, ← map_take, take_range, Nat.min_eq_left inside]
      rw [take t1 ascii1 _ (Nat.min_le_left _ _), take t2 ascii2 _ (Nat.min_le_right _ _),
        memcmp_take _ _ _ (by rw [DisString.length_chars, DisString.length_chars])]
      have signs := signs_symcmp t1.chars t2.chars
      unfold symcmp at signs
      rw [DisString.length_chars, DisString.length_chars] at signs
      exact signs
    · rw [if_neg (fun both => ascii2 both.2), if_neg (by omega), if_pos ⟨ascii1, by omega⟩]
      exact loops (fun i inside => schar_of_plain plain1 ascii1 inside)
        fun i _ => rune_elem (by omega) i
  · by_cases ascii2 : 0 ≤ t2.len
    · rw [if_neg (fun both => ascii1 both.1), if_pos ⟨by omega, ascii2⟩]
      exact loops (fun i _ => rune_elem (by omega) i)
        fun i inside => schar_of_plain plain2 ascii2 inside
    · rw [if_neg (fun both => ascii1 both.1), if_neg (by omega), if_neg (by omega)]
      exact loops (fun i _ => rune_elem (by omega) i) fun i _ => rune_elem (by omega) i

end Compares

/-! ### Strings of a table -/

theorem plain_literal (bytes : List Nat) : Plain (literal bytes) := by
  unfold literal
  by_cases ascii : (bytes.all (· < 0x80)) = true
  · rw [if_pos ascii]
    intro _ i inside
    have at_ : bytes.getD i 0 < 128 := by
      have here : i < bytes.length := inside
      rw [getD_eq_getElem?_getD, getElem?_eq_getElem here, Option.getD_some]
      exact of_decide_eq_true (all_eq_true.1 ascii _ (getElem_mem here))
    show (UInt8.ofNat (bytes.getD i 0)).toNat < 128
    rw [UInt8.toNat_ofNat']
    omega
  · rw [if_neg ascii]
    intro nonneg i inside
    simp only at nonneg
    have empty : (Lib9.c2string bytes).length = 0 := by omega
    unfold DisString.length at inside
    simp only [empty] at inside
    exact absurd inside (Nat.not_lt_zero i)

theorem c2string_all_ascii (bytes : List Nat) (ascii : ∀ b ∈ bytes, b < 0x80) :
    Lib9.c2string bytes = bytes := by
  induction bytes with
  | nil => rfl
  | cons b _ ih =>
    rw [Lib9.c2string_ascii (ascii b (mem_cons_self ..)),
      ih fun b' member => ascii b' (mem_cons_of_mem _ member)]

theorem chars_literal (bytes : List Nat) : (literal bytes).chars = Lib9.c2string bytes := by
  unfold literal
  by_cases ascii : (bytes.all (· < 0x80)) = true
  · have below : ∀ b ∈ bytes, b < 0x80 :=
      fun b member => of_decide_eq_true (all_eq_true.1 ascii b member)
    rw [if_pos ascii, c2string_all_ascii bytes below]
    apply DisString.chars_eq_of_nonneg
    · exact Int.natCast_nonneg _
    · exact Int.natAbs_natCast _
    intro i inside
    have at_ := getElem?_eq_getElem inside
    show bytes[i]? = some (UInt8.ofNat (bytes.getD i 0)).toNat
    have small := below _ (getElem_mem inside)
    rw [getD_eq_getElem?_getD, at_, Option.getD_some, UInt8.toNat_ofNat']
    congr 1
    omega
  · rw [if_neg ascii]
    have runes := Lib9.runes_c2string bytes
    generalize Lib9.c2string bytes = cs at runes ⊢
    rcases eq_nil_or_concat cs with rfl | ⟨front, c, rfl⟩
    · rfl
    rw [concat_eq_append] at runes ⊢
    apply DisString.chars_eq_of_neg
    · show -(((front ++ [c]).length : Nat) : Int) < 0
      rw [length_append, length_singleton]
      omega
    · show (-(((front ++ [c]).length : Nat) : Int)).natAbs = _
      rw [Int.natAbs_neg, Int.natAbs_natCast]
    intro i inside
    have at_ := getElem?_eq_getElem inside
    have small := runes _ (getElem_mem inside)
    show (front ++ [c])[i]? = some
      ((UInt8.ofNat ((front ++ [c]).getD (2 * i / 2) 0 / 256 ^ (2 * i % 2))).toNat +
        256 * (UInt8.ofNat ((front ++ [c]).getD ((2 * i + 1) / 2) 0 /
          256 ^ ((2 * i + 1) % 2))).toNat)
    rw [show 2 * i / 2 = i by omega, show (2 * i + 1) / 2 = i by omega,
      show 2 * i % 2 = 0 by omega, show (2 * i + 1) % 2 = 1 by omega,
      getD_eq_getElem?_getD, at_, Option.getD_some, UInt8.toNat_ofNat',
      UInt8.toNat_ofNat']
    congr 1
    omega

/-- A label of a table is read back as its string. -/
theorem charsOf_literal (runes : Lib9.Runes s) : charsOf (some (literal (Lib9.cvtca s))) = s :=
  (chars_literal (Lib9.cvtca s)).trans (Lib9.c2string_cvtca runes)

/-! ### Labels -/

theorem enclosed_stringentry : Enclosed (3 * IBY2WD) stringentry := by
  have members {offset : Nat} {lab : Label Str} {item : Nat × Datum}
      (member : item ∈ stringentry offset lab) :
      item.1 = offset ∨ item.1 = offset + IBY2WD ∨ item.1 = offset + 2 * IBY2WD := by
    unfold stringentry at member
    rcases mem_cons.1 member with rfl | rest
    · exact Or.inl rfl
    rcases mem_append.1 rest with stop | last
    · cases one : lab.one with
      | true =>
        rw [one] at stop
        exact absurd stop not_mem_nil
      | false =>
        rw [one] at stop
        rw [mem_singleton.1 stop]
        exact Or.inr (Or.inl rfl)
    · rw [mem_singleton.1 last]
      exact Or.inr (Or.inr rfl)
  unfold IBY2WD at *
  refine ⟨?_, ?_, ?_⟩
  · intro offset lab item member
    have place := members member
    omega
  · intro offset lab _ member
    have place := members member
    omega
  intro _ lab
  unfold stringentry IBY2WD
  cases lab.one with
  | true => simp
  | false => simp

/-- The strings of the labels from `base` on. -/
structure Texts (data : Data) (labs : List (Label Str)) (stride base : Nat) : Prop where
  start : ∀ i lab, labs[i]? = some lab →
    data.S (base + i * stride) = some (literal (Lib9.cvtca lab.start))
  stop : ∀ i lab, labs[i]? = some lab → data.S (base + i * stride + IBY2WD) =
    if lab.one then none else some (literal (Lib9.cvtca lab.stop))
  runes : ∀ lab ∈ labs, Lib9.Runes lab.start ∧ Lib9.Runes lab.stop
  one : ∀ lab ∈ labs, lab.one = true → lab.stop = lab.start

section Texts

variable {data : Data} {labs : List (Label Str)} {stride base : Nat} {sv : Option DisString}

theorem signs_literal (plain : Plain (sv.getD snil)) (runes : Lib9.Runes s) :
    Signs (stringcmp sv (some (literal (Lib9.cvtca s)))) (charsOf sv) s := by
  have signs := signs_stringcmp plain
    (show Plain ((some (literal (Lib9.cvtca s))).getD snil) from plain_literal _)
  rw [charsOf_literal runes] at signs
  exact signs

theorem signs_literal_left (plain : Plain (sv.getD snil)) (runes : Lib9.Runes s) :
    Signs (stringcmp (some (literal (Lib9.cvtca s))) sv) s (charsOf sv) := by
  have signs := signs_stringcmp
    (show Plain ((some (literal (Lib9.cvtca s))).getD snil) from plain_literal _) plain
  rw [charsOf_literal runes] at signs
  exact signs

theorem probec_spec (texts : Texts data labs stride base) (lined : Lined labs)
    (plain : Plain (sv.getD snil)) (is : labs[i]? = some lab) :
    (charsOf sv < lab.start ∧ probec data sv (base + i * stride) = .lt) ∨
      (lab.Has (charsOf sv) ∧ probec data sv (base + i * stride) = .eq) ∨
        (lab.stop < charsOf sv ∧ probec data sv (base + i * stride) = .gt) := by
  have member := mem_of_getElem? is
  have nonempty := lined.nonempty lab member
  have first := signs_literal plain (texts.runes lab member).1
  unfold probec
  rw [texts.start i lab is, texts.stop i lab is]
  simp only
  by_cases same : stringcmp sv (some (literal (Lib9.cvtca lab.start))) = 0
  · rw [if_pos same]
    have equal := first.zero.1 same
    exact Or.inr (Or.inl ⟨⟨equal.ge, equal ▸ nonempty⟩, rfl⟩)
  rw [if_neg same]
  by_cases before : stringcmp sv (some (literal (Lib9.cvtca lab.start))) < 0
  · rw [if_pos before]
    exact Or.inl ⟨first.below.1 before, rfl⟩
  rw [if_neg before]
  have behind : lab.start < charsOf sv := first.above.1 (by omega)
  cases one : lab.one with
  | true =>
    rw [if_pos rfl]
    have last := texts.one lab member one
    exact Or.inr (Or.inr ⟨last ▸ behind, rfl⟩)
  | false =>
    rw [if_neg nofun]
    simp only
    have second := signs_literal plain (texts.runes lab member).2
    by_cases above : 0 < stringcmp sv (some (literal (Lib9.cvtca lab.stop)))
    · rw [if_pos above]
      exact Or.inr (Or.inr ⟨second.above.1 above, rfl⟩)
    rw [if_neg above]
    have upper : charsOf sv ≤ lab.stop :=
      not_lt.1 fun beyond => above (second.above.2 beyond)
    exact Or.inr (Or.inl ⟨⟨behind.le, upper⟩, rfl⟩)

theorem probec_eq_iff (texts : Texts data labs stride base) (lined : Lined labs)
    (plain : Plain (sv.getD snil)) (is : labs[i]? = some lab) :
    probec data sv (base + i * stride) = .eq ↔ lab.Has (charsOf sv) := by
  rcases probec_spec texts lined plain is with ⟨below, found⟩ | ⟨has, found⟩ | ⟨above, found⟩
  · rw [found]
    exact ⟨nofun, fun has => absurd has.1 (not_le.2 below)⟩
  · exact ⟨fun _ => has, fun _ => found⟩
  · rw [found]
    exact ⟨nofun, fun has => absurd has.2 (not_le.2 above)⟩

theorem ordered_probec (texts : Texts data labs stride base) (lined : Lined labs)
    (plain : Plain (sv.getD snil)) : Ordered stride (probec data sv) labs.length base := by
  intro i j before inside notAbove
  obtain ⟨b, isB⟩ : ∃ b, labs[j]? = some b := ⟨_, getElem?_eq_getElem inside⟩
  obtain ⟨a, isA⟩ : ∃ a, labs[i]? = some a := ⟨_, getElem?_eq_getElem (before.trans inside)⟩
  have apart := lined.before isA isB before
  have low : charsOf sv ≤ a.stop := by
    rcases probec_spec texts lined plain isA with ⟨below, -⟩ | ⟨has, -⟩ | ⟨-, found⟩
    · exact below.le.trans (lined.nonempty a (mem_of_getElem? isA))
    · exact has.2
    · exact absurd found notAbove
  rcases probec_spec texts lined plain isB with ⟨-, found⟩ | ⟨has, -⟩ | ⟨above, -⟩
  · exact found
  · exact absurd (low.trans_lt apart) (not_lt.2 has.1)
  · have nonempty := lined.nonempty b (mem_of_getElem? isB)
    exact absurd (low.trans_lt (apart.trans_le nonempty)) above.asymm

theorem matchc_iff (texts : Texts data labs stride base) (plain : Plain (sv.getD snil))
    (is : labs[i]? = some lab) :
    matchc data sv (base + i * stride) = true ↔ lab.Has (charsOf sv) := by
  have member := mem_of_getElem? is
  have first := signs_literal_left plain (texts.runes lab member).1
  unfold matchc
  rw [texts.start i lab is, texts.stop i lab is]
  cases one : lab.one with
  | true =>
    rw [if_pos rfl]
    have last := texts.one lab member one
    simp only [decide_eq_true_eq]
    unfold Label.Has
    rw [first.zero, last]
    exact ⟨fun same => ⟨same.le, same.ge⟩, fun has => le_antisymm has.1 has.2⟩
  | false =>
    rw [if_neg nofun]
    have second := signs_literal_left plain (texts.runes lab member).2
    simp only [decide_eq_true_eq]
    unfold Label.Has
    have low : stringcmp (some (literal (Lib9.cvtca lab.start))) sv ≤ 0 ↔
        lab.start ≤ charsOf sv := by
      rw [← not_lt, ← not_lt, first.above]
    have high : 0 ≤ stringcmp (some (literal (Lib9.cvtca lab.stop))) sv ↔
        charsOf sv ≤ lab.stop := by
      rw [← not_lt, ← not_lt, second.below]
    rw [low, high]

theorem bisect_eq_scan_texts (texts : Texts data labs stride base) (lined : Lined labs)
    (plain : Plain (sv.getD snil)) : bisect stride (probec data sv) labs.length base =
      scan stride (matchc data sv) labs.length base := by
  apply bisect_eq_scan (ordered_probec texts lined plain)
  intro _ inside
  have is := getElem?_eq_getElem inside
  rw [matchc_iff texts plain is, probec_eq_iff texts lined plain is]

end Texts

/-! ### The instruction -/

section Casec

variable {c : Cse Str} {sv : Option DisString}

theorem nodup_discasec (c : Cse Str) : ((discasec c).map Prod.fst).Nodup :=
  nodup_table enclosed_stringentry (by decide) c.labs.length c.iwild

theorem mem_discasec {k : Nat} (is : c.labs[i]? = some lab) (small : k < 3 * IBY2WD)
    {datum : Datum} :
    (IBY2WD + i * (3 * IBY2WD) + k, datum) ∈ discasec c ↔
      (IBY2WD + i * (3 * IBY2WD) + k, datum) ∈ stringentry (IBY2WD + i * (3 * IBY2WD)) lab :=
  mem_table enclosed_stringentry (by decide) is small

/-- The strings of the table are those of the labels. -/
theorem texts_discasec
    (runes : ∀ lab ∈ c.labs, Lib9.Runes lab.start ∧ Lib9.Runes lab.stop)
    (one : ∀ lab ∈ c.labs, lab.one = true → lab.stop = lab.start) :
    Texts (loaded (discasec c)) c.labs (3 * IBY2WD) IBY2WD where
  start := by
    intro i lab is
    have entry : (IBY2WD + i * (3 * IBY2WD) + 0, .string (Lib9.cvtca lab.start)) ∈ discasec c :=
      (mem_discasec is (by decide)).2 (mem_cons_self ..)
    exact loaded_string (nodup_discasec c) entry
  stop := by
    intro _ lab is
    cases single : lab.one with
    | true =>
      rw [if_pos rfl]
      apply loaded_none
      intro member
      have ⟨⟨o, datum⟩, inTable, same⟩ := mem_map.1 member
      simp only at same
      rw [same] at inTable
      have inEntry := (mem_discasec is (by decide)).1 inTable
      unfold stringentry IBY2WD at inEntry
      rw [single] at inEntry
      simp at inEntry
    | false =>
      rw [if_neg nofun]
      apply loaded_string (nodup_discasec c)
      apply (mem_discasec is (by decide)).2
      unfold stringentry
      rw [single]
      exact mem_cons_of_mem _ (mem_cons_self ..)
  runes := runes
  one := one

theorem first_discasec (fitting : Fitting c) :
    count ((loaded (discasec c)).W 0) = c.labs.length := by
  have word : (loaded (discasec c)).W 0 = wrap c.labs.length :=
    loaded_int (nodup_discasec c) (mem_cons_self ..)
  rw [word, count_of_fitting fitting]

/-- The instruction goes by the search by halves, however many labels there are. -/
theorem casec_eq (texts : Texts (loaded (discasec c)) c.labs (3 * IBY2WD) IBY2WD)
    (lined : Lined c.labs) (fitting : Fitting c) (plain : Plain (sv.getD snil)) :
    casec (loaded (discasec c)) sv =
      selected (loaded (discasec c)) (3 * IBY2WD) IBY2WD c.labs.length
        (bisect (3 * IBY2WD) (probec (loaded (discasec c)) sv) c.labs.length IBY2WD) := by
  unfold casec
  simp only
  rw [first_discasec fitting, ← bisect_eq_scan_texts texts lined plain, ite_self]

theorem casec_of_has (texts : Texts (loaded (discasec c)) c.labs (3 * IBY2WD) IBY2WD)
    (lined : Lined c.labs) (fitting : Fitting c) (plain : Plain (sv.getD snil))
    (member : lab ∈ c.labs) (has : lab.Has (charsOf sv)) :
    casec (loaded (discasec c)) sv = pcof lab := by
  have ⟨i, is⟩ := mem_iff_getElem?.1 member
  have found := (bisect_at (ordered_probec texts lined plain)).2
    ⟨i, (List.getElem?_eq_some_iff.1 is).1, rfl, (probec_eq_iff texts lined plain is).2 has⟩
  have pc : (loaded (discasec c)).W (IBY2WD + i * (3 * IBY2WD) + 2 * IBY2WD) = wrap (pcof lab) := by
    apply loaded_int (nodup_discasec c)
    apply (mem_discasec is (by decide)).2
    unfold stringentry
    exact mem_cons_of_mem _ (mem_append_right _ (mem_singleton_self _))
  rw [casec_eq texts lined fitting plain, found]
  exact pc.trans (wrap_of_inWord (fitting.pcs lab member))

theorem casec_of_none (texts : Texts (loaded (discasec c)) c.labs (3 * IBY2WD) IBY2WD)
    (lined : Lined c.labs) (fitting : Fitting c) (plain : Plain (sv.getD snil))
    (none : ∀ lab ∈ c.labs, ¬ lab.Has (charsOf sv)) :
    casec (loaded (discasec c)) sv = c.iwild := by
  have missing : bisect (3 * IBY2WD) (probec (loaded (discasec c)) sv) c.labs.length IBY2WD =
      .none := by
    rw [Option.eq_none_iff_forall_ne_some]
    intro _ found
    obtain ⟨_, inside, rfl, here⟩ := (bisect_at (ordered_probec texts lined plain)).1 found
    have is := getElem?_eq_getElem inside
    exact none _ (getElem_mem inside) ((probec_eq_iff texts lined plain is).1 here)
  have last : (loaded (discasec c)).W (IBY2WD + c.labs.length * (3 * IBY2WD)) =
      wrap c.iwild := by
    rw [Nat.mul_comm]
    apply loaded_int (nodup_discasec c)
    exact mem_cons_of_mem _ (mem_append_right _ (mem_singleton_self _))
  rw [casec_eq texts lined fitting plain, missing]
  exact last.trans (wrap_of_inWord fitting.wild)

end Casec

end Infernode.Dis
