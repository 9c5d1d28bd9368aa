import Infernode.Text.Decimal
import Mathlib.Data.List.TakeWhile
import Mathlib.Tactic.SplitIfs

/-!
The UTF-8 conversion of `lib9/rune.c` and the string conversions of the Dis
machine built on it (`libinterp/string.c`, `libinterp/runt.c`). A rune is a
16-bit number, so a character takes at most three bytes.

Owns: `runetochar`, the bytes of a string (`cvtca`), the string of an array of
bytes (`c2string`), the part of a string that `sprint` copies for `%s`, and the
fact that a string survives being stored as bytes and read back.
-/

namespace Infernode.Lib9

open Text List

/-- The rune that stands for an undecodable byte. -/
def runeerror : Nat := 0x80

def runetochar (c : Nat) : List Nat :=
  if c ≤ 0x7F then [c]
  else if c ≤ 0x7FF then [0xC0 + c / 64, 0x80 + c % 64]
  else [0xE0 + c / 4096, 0x80 + c / 64 % 64, 0x80 + c % 64]

/-- `array of byte s`. -/
def cvtca (s : Str) : List Nat := s.flatMap runetochar

/-- A continuation byte of a multi-byte character. -/
def isTx (b : Nat) : Bool := decide (0x80 ≤ b) && decide (b < 0xC0)

/-- `string a`: decode byte by byte; a byte that starts no character becomes
`runeerror`, and a character cut off by the end of the array is dropped. -/
def c2string : List Nat → Str
  | [] => []
  | [c] => if c < 0x80 then [c] else []
  | [c, b1] =>
    if c < 0x80 then c :: c2string [b1]
    else if 0xE0 ≤ c then []
    else if isTx b1 && decide (0xC0 ≤ c) && decide (0x7F < c % 32 * 64 + b1 % 64) then
      [c % 32 * 64 + b1 % 64]
    else runeerror :: c2string [b1]
  | c :: b1 :: b2 :: rest =>
    if c < 0x80 then c :: c2string (b1 :: b2 :: rest)
    else if c < 0xE0 then
      if isTx b1 && decide (0xC0 ≤ c) && decide (0x7F < c % 32 * 64 + b1 % 64) then
        (c % 32 * 64 + b1 % 64) :: c2string (b2 :: rest)
      else runeerror :: c2string (b1 :: b2 :: rest)
    else
      if isTx b1 && isTx b2 && decide (c < 0xF0) &&
          decide (0x7FF < c % 16 * 4096 + b1 % 64 * 64 + b2 % 64) then
        (c % 16 * 4096 + b1 % 64 * 64 + b2 % 64) :: c2string rest
      else runeerror :: c2string (b1 :: b2 :: rest)

theorem length_c2string_le (bytes : List Nat) : (c2string bytes).length ≤ bytes.length := by
  fun_induction c2string bytes
  all_goals
    simp only [length_cons, length_nil] at *
    try omega

/-- What `%s` copies: the string up to its first NUL. -/
def cstr (s : Str) : Str := s.takeWhile (· != 0)

def Runes (s : Str) : Prop := ∀ c ∈ s, c < 65536

variable {left right s text : Str} {ascii b : Nat}

theorem Runes.append (leftRunes : Runes left) (rightRunes : Runes right) :
    Runes (left ++ right) := by
  intro c member
  rcases mem_append.1 member with member | member
  · exact leftRunes c member
  · exact rightRunes c member

theorem Runes.sublist (sub : left.Sublist right) (runes : Runes right) : Runes left :=
  fun c member => runes c (sub.subset member)

/-- One character is decoded from its bytes, whatever follows. -/
theorem c2string_runetochar_append {c : Nat} (rune : c < 65536) (rest : List Nat) :
    c2string (runetochar c ++ rest) = c :: c2string rest := by
  unfold runetochar
  by_cases one : c ≤ 0x7F
  · rw [if_pos one]
    have small : c < 0x80 := by omega
    match rest with
    | [] => simp [c2string, small]
    | [b1] => simp [c2string, small]
    | b1 :: b2 :: more => simp [c2string, small]
  rw [if_neg one]
  by_cases two : c ≤ 0x7FF
  · rw [if_pos two]
    have lead : ¬0xC0 + c / 64 < 0x80 := by omega
    have below : ¬0xE0 ≤ 0xC0 + c / 64 := by omega
    have value : (0xC0 + c / 64) % 32 * 64 + (0x80 + c % 64) % 64 = c := by omega
    have tail : isTx (0x80 + c % 64) = true := by
      simp only [isTx, Bool.and_eq_true, decide_eq_true_eq]
      omega
    match rest with
    | [] =>
      simp only [append_nil, c2string, if_neg lead, if_neg below, tail, value]
      rw [if_pos (by simp only [Bool.true_and, Bool.and_eq_true, decide_eq_true_eq]; omega)]
    | b2 :: more =>
      simp only [cons_append, nil_append, c2string, if_neg lead, tail, value]
      rw [if_pos (by omega),
        if_pos (by simp only [Bool.true_and, Bool.and_eq_true, decide_eq_true_eq]; omega)]
  · rw [if_neg two]
    have lead : ¬0xE0 + c / 4096 < 0x80 := by omega
    have above : ¬0xE0 + c / 4096 < 0xE0 := by omega
    have value : (0xE0 + c / 4096) % 16 * 4096 + (0x80 + c / 64 % 64) % 64 * 64 +
        (0x80 + c % 64) % 64 = c := by omega
    have middle : isTx (0x80 + c / 64 % 64) = true := by
      simp only [isTx, Bool.and_eq_true, decide_eq_true_eq]
      omega
    have last : isTx (0x80 + c % 64) = true := by
      simp only [isTx, Bool.and_eq_true, decide_eq_true_eq]
      omega
    simp only [cons_append, nil_append, c2string, if_neg lead, if_neg above, middle,
      last, value]
    rw [if_pos (by simp only [Bool.true_and, Bool.and_eq_true, decide_eq_true_eq]; omega)]

/-- A string stored as bytes is read back as it was. -/
theorem c2string_cvtca (runes : Runes s) : c2string (cvtca s) = s := by
  induction s with
  | nil => rfl
  | cons c rest ih =>
    have tail := ih (forall_mem_cons.1 runes).2
    have shape : cvtca (c :: rest) = runetochar c ++ cvtca rest := by simp [cvtca]
    rw [shape, c2string_runetochar_append (runes c (by simp)), tail]

theorem cvtca_cons (c : Nat) (text : Str) : cvtca (c :: text) = runetochar c ++ cvtca text := by
  simp [cvtca]

theorem runetochar_pos (c : Nat) : 0 < (runetochar c).length := by
  unfold runetochar
  split_ifs
  · exact Nat.one_pos
  · exact Nat.two_pos
  · exact Nat.succ_pos 2

theorem length_le_cvtca (text : Str) : text.length ≤ (cvtca text).length := by
  induction text with
  | nil => exact Nat.le_refl _
  | cons c _ _ =>
    have here := runetochar_pos c
    rw [cvtca_cons, length_append, length_cons]
    omega

theorem cvtca_ascii (ascii : ∀ c ∈ text, c < 128) : cvtca text = text := by
  induction text with
  | nil => rfl
  | cons c _ ih =>
    have small := ascii c mem_cons_self
    rw [cvtca_cons, ih (forall_mem_cons.1 ascii).2,
      runetochar, if_pos (by omega)]
    rfl

/-- The front of a text is decoded whatever follows. -/
theorem c2string_cvtca_append (runes : Runes text) (rest : List Nat) :
    c2string (cvtca text ++ rest) = text ++ c2string rest := by
  induction text with
  | nil => rfl
  | cons c _ ih =>
    rw [cvtca_cons, append_assoc, c2string_runetochar_append (runes c mem_cons_self),
      ih (forall_mem_cons.1 runes).2]
    rfl

theorem c2string_ascii (small : ascii < 0x80) (rest : List Nat) :
    c2string (ascii :: rest) = ascii :: c2string rest := by
  have alone := c2string_runetochar_append (show ascii < 65536 by omega) rest
  rw [runetochar, if_pos (by omega)] at alone
  exact alone

theorem c2string_before_ascii (high : 0x80 ≤ b) (small : ascii < 0x80) (next : Nat)
    (rest : List Nat) :
    c2string (b :: ascii :: next :: rest) = runeerror :: c2string (ascii :: next :: rest) := by
  have notAscii : ¬b < 0x80 := by omega
  have notTx : isTx ascii = false := by
    simp only [isTx, Bool.and_eq_false_iff, decide_eq_false_iff_not]
    omega
  simp only [c2string, notAscii, notTx, Bool.false_and, Bool.false_eq_true, if_false, ite_self]

/-- A character of three bytes that is cut off after two. -/
theorem c2string_two_before_ascii {tx : Nat} (lead : 0xE0 ≤ b) (high : 0x80 ≤ tx)
    (small : ascii < 0x80) (next : Nat) (rest : List Nat) :
    c2string (b :: tx :: ascii :: next :: rest) =
      runeerror :: runeerror :: c2string (ascii :: next :: rest) := by
  have notAscii : ¬b < 0x80 := by omega
  have three : ¬b < 0xE0 := by omega
  have notTx : isTx ascii = false := by
    simp only [isTx, Bool.and_eq_false_iff, decide_eq_false_iff_not]
    omega
  have first : c2string (b :: tx :: ascii :: next :: rest) =
      runeerror :: c2string (tx :: ascii :: next :: rest) := by
    simp only [c2string, notAscii, three, notTx, Bool.and_false, Bool.false_and,
      Bool.false_eq_true, if_false]
  rw [first, c2string_before_ascii high small]

/-- The bytes of a character that is cut off are undecodable before an ASCII character. -/
theorem c2string_take_runetochar (c n : Nat) (cut : n < (runetochar c).length) :
    ∃ errors, (∀ e ∈ errors, e = runeerror) ∧ ∀ ascii < 0x80, ∀ next rest,
      c2string ((runetochar c).take n ++ ascii :: next :: rest) =
        errors ++ c2string (ascii :: next :: rest) := by
  have lead : 0 < n → 0x7F < c := by
    intro positive
    by_contra small
    rw [runetochar, if_pos (by omega), length_singleton] at cut
    omega
  match n, cut with
  | 0, _ => exact ⟨[], nofun, fun _ _ _ _ => rfl⟩
  | 1, cut =>
    refine ⟨[runeerror], fun e member => mem_singleton.1 member, ?_⟩
    intro ascii small next rest
    have high := lead (by decide)
    unfold runetochar
    rw [if_neg (by omega)]
    split
    · exact c2string_before_ascii (by omega) small next rest
    · exact c2string_before_ascii (by omega) small next rest
  | 2, cut =>
    refine ⟨[runeerror, runeerror], by simp, ?_⟩
    intro ascii small next rest
    have high := lead (by decide)
    unfold runetochar at cut ⊢
    rw [if_neg (by omega)] at cut ⊢
    split at cut
    · exact absurd cut (by simp)
    · rename_i three
      rw [if_neg three]
      exact c2string_two_before_ascii (by omega) (by omega) small next rest
  | n + 3, cut =>
    have few : (runetochar c).length ≤ 3 := by
      unfold runetochar
      split_ifs
      · exact Nat.le_add_left 1 2
      · exact Nat.le_succ 2
      · exact Nat.le_refl 3
    omega

/-- The bytes of the front of a text end inside a character or between two, and are decoded up to
there when an ASCII character follows them. -/
theorem c2string_cut : ∀ {text : Str}, Runes text → ∀ n : Nat, ∃ front errors,
    front <+: text ∧ (cvtca front).length ≤ n ∧ (∀ e ∈ errors, e = runeerror) ∧
      ∀ ascii < 0x80, ∀ next rest, c2string ((cvtca text).take n ++ ascii :: next :: rest) =
        front ++ errors ++ c2string (ascii :: next :: rest)
  | [], _, n => by
    refine ⟨[], [], List.prefix_rfl, Nat.zero_le n, nofun, ?_⟩
    intro ascii small next rest
    rw [cvtca, List.flatMap_nil, List.take_nil]
    rfl
  | c :: text, runes, n => by
    rcases Nat.lt_or_ge n (runetochar c).length with cut | whole
    · have ⟨errors, are, decoded⟩ := c2string_take_runetochar c n cut
      refine ⟨[], errors, nil_prefix, Nat.zero_le n, are, ?_⟩
      intro ascii small next rest
      rw [cvtca_cons, take_append_of_le_length (Nat.le_of_lt cut)]
      exact decoded ascii small next rest
    have ⟨front, errors, isPrefix, _, are, decoded⟩ := c2string_cut
      (forall_mem_cons.1 runes).2 (n - (runetochar c).length)
    refine ⟨c :: front, errors, cons_prefix_cons.2 ⟨rfl, isPrefix⟩, ?_, are, ?_⟩
    · rw [cvtca_cons, length_append]
      omega
    intro ascii small next rest
    rw [cvtca_cons, List.take_append, take_of_length_le whole, append_assoc,
      c2string_runetochar_append (runes c (mem_cons_self ..)),
      decoded ascii small next rest]
    rfl

theorem cvtca_append (left right : Str) : cvtca (left ++ right) = cvtca left ++ cvtca right := by
  simp [cvtca]

theorem runes_c2string : ∀ bytes : List Nat, Runes (c2string bytes)
  | [] => by simp [Runes, c2string]
  | [c] => by
    intro d member
    unfold c2string at member
    split_ifs at member
    · simp only [List.mem_singleton] at member
      omega
    · simp at member
  | [c, b1] => by
    intro d member
    have later := runes_c2string [b1]
    unfold c2string at member
    split_ifs at member
    · rcases mem_cons.1 member with rfl | member
      · omega
      · exact later d member
    · simp at member
    · simp only [mem_singleton] at member
      omega
    · rcases mem_cons.1 member with rfl | member
      · decide
      · exact later d member
  | c :: b1 :: b2 :: rest => by
    intro d member
    have skipOne := runes_c2string (b1 :: b2 :: rest)
    have skipTwo := runes_c2string (b2 :: rest)
    have skipThree := runes_c2string rest
    unfold c2string at member
    split_ifs at member
    · rcases mem_cons.1 member with rfl | member
      · omega
      · exact skipOne d member
    · rcases mem_cons.1 member with rfl | member
      · omega
      · exact skipTwo d member
    · rcases mem_cons.1 member with rfl | member
      · decide
      · exact skipOne d member
    · rcases mem_cons.1 member with rfl | member
      · omega
      · exact skipThree d member
    · rcases mem_cons.1 member with rfl | member
      · decide
      · exact skipOne d member

theorem cstr_of_no_nul (clean : 0 ∉ s) : cstr s = s := by
  unfold cstr
  rw [takeWhile_eq_self_iff]
  intro c member
  have nonzero : c ≠ 0 := fun zero => clean (zero ▸ member)
  simpa using nonzero

theorem zero_notMem_cstr (s : Str) : 0 ∉ cstr s := by
  intro member
  have kept := mem_takeWhile_imp member
  simp at kept

theorem cstr_cstr (s : Str) : cstr (cstr s) = cstr s := cstr_of_no_nul (zero_notMem_cstr s)

theorem cstr_sublist (s : Str) : (cstr s).Sublist s := takeWhile_sublist _

end Infernode.Lib9
