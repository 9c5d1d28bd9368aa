import Infernode.Dis.Strtables
import Infernode.Lib9.Chartorune

/-!
Strings as arrays of bytes and back, in `libinterp/string.c`.

Owns: `cvtca` into an array of the length that `runenlen` says, `cvtac` with the two passes of
`c2string`, and when a string comes back as it was and `stringcmp` orders strings as their
characters.
-/

namespace Infernode.Strconv

open Dis hiding c2string cvtac
open Lib9 hiding c2string cvtca
open Limbo (Signs)
open Text List

/-! ### Bytes of a string -/

/-- A rune is written at the place that the loop is at, where the array has room for it. -/
def putrune (p : List Nat × Nat) (r : Nat) : Option (List Nat × Nat) :=
  let n := p.2 + (runetochar r).length
  if n ≤ p.1.length then some (p.1.take p.2 ++ runetochar r ++ p.1.drop n, n) else none

/-- `cvtca`, with what is in the array before it is written. -/
def cvtca (junk : Nat → Nat) : Option DisString → Option (List Nat)
  | none => some []
  | some ss =>
    if ss.len < 0 then
      let runes := (List.range ss.length).map ss.rune
      (runes.foldlM putrune ((List.range (runenlen runes)).map junk, 0)).map Prod.fst
    else some ((List.range ss.length).map ss.ascii)

/-! ### A string of bytes -/

def copybytes (read : Nat → Option Nat) : (n p : Nat) → Option (List Nat)
  | 0, _ => some []
  | n + 1, p => do
      let b ← read p
      let rest ← copybytes read n (p + 1)
      some (b :: rest)

/-- `newstring` with the bytes moved into it. -/
def ofbytes (bytes : List Nat) : DisString :=
  ⟨bytes.length, bytes.length, bytes.length + 8, fun k => UInt8.ofNat (bytes.getD k 0)⟩

/-- `newrunes` with the runes decoded into it. -/
def ofrunes (runes : Str) : DisString :=
  ⟨-runes.length, runes.length, 2 * runes.length + 8,
    fun k => UInt8.ofNat (runes.getD (k / 2) 0 / 256 ^ (k % 2))⟩

def c2string (cs : Nat → Option Nat) (len : Nat) : Option DisString := do
  match ← firsthigh cs len 0 with
  | none => (copybytes cs len 0).map ofbytes
  | some p => do
      let (nc, _) ← countrunes cs len (len + 1) p p
      let (runes, _) ← decoderunes cs nc 0
      some (ofrunes runes)

/-- An array that can be read up to its length. -/
def reader (a : List Nat) (i : Nat) : Option Nat := a[i]?

def cvtac : Option (List Nat) → Option (Option DisString)
  | none => some none
  | some a => (c2string (reader a) a.length).map some

/-! ### What is to hold -/

/-- A string is made of the array, and where there are two passes they go the same way and end
within it. -/
def SamePasses (a : List Nat) : Prop :=
  (∃ s, c2string (reader a) a.length = some s) ∧
    ∀ p, firsthigh (reader a) a.length 0 = some (some p) →
      ∃ nc stop runes, stop ≤ a.length ∧
        countrunes (reader a) a.length (a.length + 1) p p = some (nc, stop) ∧
        decoderunes (reader a) nc 0 = some (runes, stop) ∧ runes.length = nc

/-- The string comes back from its bytes as it was. -/
def Kept (junk : Nat → Nat) (s : Option DisString) : Prop :=
  ∃ a t, cvtca junk s = some a ∧ cvtac (some a) = some t ∧ stringcmp t s = 0

/-! ### Writing -/

theorem runenlen_eq (runes : Str) : runenlen runes = (Lib9.cvtca runes).length := by
  induction runes with
  | nil => rfl
  | cons _ _ ih =>
    rw [runenlen, ih, cvtca_cons, length_append]
    congr 1
    unfold runetochar Rune1 Rune2
    split
    · rfl
    · split <;> rfl

theorem putrunes_eq (runes : Str) : ∀ front rest : List Nat, rest.length = runenlen runes →
    runes.foldlM putrune (front ++ rest, front.length) =
      some (front ++ Lib9.cvtca runes, (front ++ Lib9.cvtca runes).length) := by
  induction runes with
  | nil =>
    intro front rest empty
    rw [eq_nil_of_length_eq_zero empty]
    show some (front ++ [], front.length) = some (front ++ [], (front ++ []).length)
    rw [append_nil]
  | cons c _ ih =>
    intro front rest room
    rw [runenlen_eq, cvtca_cons, length_append, ← runenlen_eq] at room
    have put : putrune (front ++ rest, front.length) c =
        some ((front ++ runetochar c) ++ rest.drop (runetochar c).length,
          (front ++ runetochar c).length) := by
      unfold putrune
      dsimp only
      rw [if_pos (by rw [length_append]; omega), take_left, drop_append,
        drop_eq_nil_of_le (by omega), nil_append,
        show front.length + (runetochar c).length - front.length = (runetochar c).length by omega,
        length_append]
    rw [foldlM_cons, put, Option.bind_eq_bind, Option.bind_some,
      ih _ _ (by rw [length_drop]; omega), cvtca_cons, append_assoc]

theorem cvtca_eq (junk : Nat → Nat) (s : DisString) :
    cvtca junk (some s) =
      some (if s.len < 0 then Lib9.cvtca s.chars else (List.range s.length).map s.ascii) := by
  unfold cvtca
  dsimp only
  split
  · rename_i runes
    have filled := putrunes_eq s.chars [] ((List.range (runenlen s.chars)).map junk)
      (by rw [length_map, length_range])
    rw [nil_append, length_nil, nil_append] at filled
    rw [← DisString.chars_of_neg runes, filled]
    rfl
  · rfl

theorem byte_of_cvtca {runes : Str} (are : Runes runes) : ∀ b ∈ Lib9.cvtca runes, b < 256 := by
  intro _ member
  have ⟨c, inside, here⟩ := mem_flatMap.1 member
  have rune := are c inside
  unfold runetochar at here
  split at here
  · have same := mem_singleton.1 here
    omega
  split at here
  · simp only [mem_cons, not_mem_nil, or_false] at here
    omega
  · simp only [mem_cons, not_mem_nil, or_false] at here
    omega

/-! ### Reading -/

variable {a : List Nat} {junk : Nat → Nat} {s : Option DisString}

theorem copybytes_eq (n : Nat) : ∀ p, p + n = a.length →
    copybytes (reader a) n p = some (a.drop p) := by
  induction n with
  | zero =>
    intro p ends
    rw [drop_eq_nil_of_le (by omega)]
    rfl
  | succ _ ih =>
    intro p _
    have inside : p < a.length := by omega
    have first : reader a p = some a[p] := getElem?_eq_getElem inside
    rw [copybytes, first, Option.bind_eq_bind, Option.bind_some,
      ih (p + 1) (by omega), drop_eq_getElem_cons inside]
    rfl

theorem passes_eq (small : ∀ b ∈ a, b < 256) {p : Nat} (inside : p < a.length)
    (ascii : ∀ b ∈ a.take p, b < 0x80) :
    ∃ stop ≤ a.length,
      countrunes (reader a) a.length (a.length + 1) p p = some ((Lib9.c2string a).length, stop) ∧
      decoderunes (reader a) (Lib9.c2string a).length 0 = some (Lib9.c2string a, stop) := by
  have ⟨stop, before, counted, decoded⟩ :=
    countrunes_eq small (a.length + 1) p p (Nat.le_of_lt inside) (by omega)
  have length : (a.take p).length = p := length_take_of_le (Nat.le_of_lt inside)
  have whole : Lib9.c2string a = a.take p ++ Lib9.c2string (a.drop p) := by
    conv_lhs => rw [← take_append_drop p a]
    exact c2string_ascii_append _ ascii _
  have first := @decoderunes_ascii a (a.take p) ascii (Lib9.c2string (a.drop p)).length 0
    fun i below => by
      rw [length] at below
      rw [Nat.zero_add, getElem?_take_of_lt below]
  rw [length, Nat.zero_add, decoded] at first
  rw [whole, length_append, length]
  exact ⟨stop, before, counted, first⟩

theorem firsthigh_cases (a : List Nat) :
    (firsthigh (reader a) a.length 0 = some none ∧ ∀ b ∈ a, b < 0x80) ∨
      ∃ p, firsthigh (reader a) a.length 0 = some (some p) ∧ p < a.length ∧
        (∀ b ∈ a.take p, b < 0x80) ∧ ∃ b ∈ a, 0x80 ≤ b := by
  rcases @firsthigh_eq a a.length 0 (Nat.zero_add _) with
    ⟨is, ascii⟩ | ⟨p, is, -, inside, ascii, b, there, high⟩
  · exact .inl ⟨is, ascii⟩
  · exact .inr ⟨p, is, inside, ascii, b, mem_of_getElem? there, high⟩

/-- The string of an array has the runes that are decoded. -/
theorem c2string_eq (small : ∀ b ∈ a, b < 256) :
    c2string (reader a) a.length = some (literal a) := by
  unfold c2string literal
  rcases firsthigh_cases a with ⟨is, ascii⟩ | ⟨p, is, inside, ascii, b, member, high⟩
  · have all : a.all (· < 0x80) = true :=
      all_eq_true.2 fun b member => decide_eq_true (ascii b member)
    rw [is, if_pos all, Option.bind_eq_bind, Option.bind_some]
    dsimp only
    rw [copybytes_eq a.length 0 (Nat.zero_add _)]
    rfl
  have none : ¬ a.all (· < 0x80) = true := fun all =>
    absurd (of_decide_eq_true (all_eq_true.1 all b member)) (by omega)
  obtain ⟨_, -, counted, decoded⟩ := passes_eq small inside ascii
  rw [is, if_neg none, Option.bind_eq_bind, Option.bind_some]
  dsimp only
  rw [counted, Option.bind_eq_bind, Option.bind_some]
  dsimp only
  rw [decoded]
  rfl

theorem samePasses (small : ∀ b ∈ a, b < 256) : SamePasses a := by
  refine ⟨⟨_, c2string_eq small⟩, fun p found => ?_⟩
  rcases firsthigh_cases a with ⟨is, -⟩ | ⟨q, is, inside, ascii, -⟩
  · rw [is] at found
    cases found
  rw [is] at found
  cases found
  have ⟨stop, before, counted, decoded⟩ := passes_eq small inside ascii
  exact ⟨_, stop, _, before, counted, decoded, rfl⟩

/-! ### Strings that come back -/

/-- The loops end without a difference only where there is none. -/
theorem comparefrom_eq_zero {c1 c2 : Nat → Int} {length : Int} (n : Nat) : ∀ i,
    comparefrom c1 c2 length n i = 0 → length = 0 ∧ ∀ k, i ≤ k → k < i + n → c1 k = c2 k := by
  induction n with
  | zero => exact fun i zero => ⟨zero, fun k after before => absurd before (by omega)⟩
  | succ _ ih =>
    intro i zero
    unfold comparefrom at zero
    by_cases differ : c1 i ≠ c2 i
    · rw [if_pos differ] at zero
      split at zero <;> cases zero
    rw [if_neg differ] at zero
    obtain ⟨same, later⟩ := ih (i + 1) zero
    refine ⟨same, fun k after before => ?_⟩
    rcases Nat.eq_or_lt_of_le after with here | more
    · rw [← here]
      exact not_not.1 differ
    · exact later k more (by omega)

theorem runes_chars (s : DisString) : Runes s.chars := by
  intro _ member
  have ⟨i, at_i⟩ := mem_iff_getElem?.1 member
  have inside := (List.getElem?_eq_some_iff.1 at_i).1
  rw [DisString.length_chars] at inside
  rw [s.getElem_chars inside, Option.some.injEq] at at_i
  rw [← at_i]
  exact s.elem_lt i

/-- A string that keeps bytes below `Runeself` comes back as it was. -/
theorem kept_of_plain (plain : Plain (s.getD snil)) : Kept junk s := by
  have runes : Runes (charsOf s) := runes_chars _
  have bytes : cvtca junk s = some (Lib9.cvtca (charsOf s)) := by
    cases s with
    | none => rfl
    | some s =>
      rw [cvtca_eq]
      split
      · rfl
      rename_i ascii
      have nonneg : 0 ≤ s.len := by omega
      have chars : (List.range s.length).map s.ascii = s.chars :=
        (DisString.chars_of_nonneg nonneg).symm
      rw [chars]
      congr 1
      refine (cvtca_ascii fun c member => ?_).symm
      have ⟨i, below, same⟩ := mem_map.1 (chars ▸ member)
      rw [← same]
      exact plain nonneg i (mem_range.1 below)
  refine ⟨_, some (literal (Lib9.cvtca (charsOf s))), bytes, ?_, ?_⟩
  · unfold cvtac
    dsimp only
    rw [c2string_eq (byte_of_cvtca runes)]
    rfl
  have signs := @signs_stringcmp (some (literal (Lib9.cvtca (charsOf s)))) s
    (plain_literal _) plain
  rw [charsOf_literal runes] at signs
  exact signs.zero.2 rfl

/-- A byte from `Runeself` on is compared as a negative number, and no rune is one. -/
theorem stringcmp_ofrunes_ne (runes : Str) {s : DisString} (nonneg : 0 ≤ s.len) {i : Nat}
    (inside : i < s.length) (high : ¬ s.ascii i < 0x80) :
    stringcmp (some (ofrunes runes)) (some s) ≠ 0 := by
  have len : (ofrunes runes).len = -(runes.length : Int) := rfl
  have length : (ofrunes runes).length = runes.length := by
    show (-(runes.length : Int)).natAbs = _
    rw [Int.natAbs_neg, Int.natAbs_natCast]
  intro same
  unfold stringcmp at same
  simp only [Option.getD_some, length] at same
  rcases Nat.eq_zero_or_pos runes.length with empty | more
  · rw [if_pos ⟨by omega, nonneg⟩, empty, Nat.zero_min] at same
    have shorter : ((0 : Nat) : Int) - s.length = 0 := same
    omega
  rw [if_neg (by omega), if_pos ⟨by omega, nonneg⟩] at same
  have ⟨_, alike⟩ := comparefrom_eq_zero _ 0 same
  have here := alike i (Nat.zero_le i) (by omega)
  unfold schar at here
  rw [if_neg high] at here
  have byte := s.ascii_lt i
  omega

/-- A string that comes back as it was keeps bytes below `Runeself`. -/
theorem plain_of_kept (kept : Kept junk s) : Plain (s.getD snil) := by
  cases s with
  | none => exact plain_snil
  | some s =>
    rw [Option.getD_some]
    intro nonneg i inside
    by_contra high
    have ⟨a, _, written, read, same⟩ := kept
    rw [cvtca_eq, if_neg (by omega), Option.some.injEq] at written
    have small : ∀ b ∈ a, b < 256 := by
      rw [← written]
      intro _ member
      obtain ⟨k, -, is⟩ := mem_map.1 member
      rw [← is]
      exact s.ascii_lt k
    have some' : ¬ a.all (· < 0x80) = true := by
      intro all
      have member : s.ascii i ∈ a := by
        rw [← written]
        exact mem_map_of_mem (mem_range.2 inside)
      exact high (of_decide_eq_true (all_eq_true.1 all _ member))
    have made : literal a = ofrunes (Lib9.c2string a) := if_neg some'
    unfold cvtac at read
    dsimp only at read
    rw [c2string_eq small, made, Option.map_some, Option.some.injEq] at read
    rw [← read] at same
    exact stringcmp_ofrunes_ne _ nonneg inside high same

/-! ### Conversion and order -/

/-- The two passes over an array go the same way and stay within it; two strings come back from
their bytes as they were, and `stringcmp` orders them as their characters are ordered, exactly when
no byte of the strings that are kept as bytes is `Runeself` or above. -/
theorem strings_convert (a : List UInt8) (junk : Nat → Nat) (s t : Option DisString) :
    SamePasses (a.map UInt8.toNat) ∧ Kept junk s ∧ Kept junk t ∧
        Signs (stringcmp s t) (charsOf s) (charsOf t) ↔
      Plain (s.getD snil) ∧ Plain (t.getD snil) := by
  constructor
  · rintro ⟨-, first, second, -⟩
    exact ⟨plain_of_kept first, plain_of_kept second⟩
  rintro ⟨first, second⟩
  refine ⟨samePasses fun b member => ?_, kept_of_plain first, kept_of_plain second,
    signs_stringcmp first second⟩
  obtain ⟨c, -, is⟩ := List.mem_map.1 member
  rw [← is]
  exact c.toNat_lt

/-- `insc` puts `-1` into a string of bytes: the string is before `A` kept as runes, and behind it
kept as bytes. -/
theorem negative_byte_unordered :
    ¬ (Kept (fun _ => 0) (some (ofbytes [0xFF])) ∧
      Signs (stringcmp (some (ofbytes [0xFF])) (some (ofbytes [0x41])))
        (charsOf (some (ofbytes [0xFF]))) (charsOf (some (ofbytes [0x41]))) ∧
      Signs (stringcmp (some (ofbytes [0xFF])) (some (ofrunes [0x41])))
        (charsOf (some (ofbytes [0xFF]))) (charsOf (some (ofrunes [0x41])))) := by
  rintro ⟨-, bytes, runes⟩
  have behind := bytes.above.1 (by decide)
  have before := runes.below.1 (by decide)
  rw [show charsOf (some (ofrunes [0x41])) = charsOf (some (ofbytes [0x41])) by decide] at before
  exact lt_asymm behind before

end Infernode.Strconv
