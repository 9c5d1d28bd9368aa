import Infernode.Text.Tokens
import Infernode.Text.Decimal

/-!
Contract: the textual notations of Internet addresses.

Owns: the `inet_aton` notation of an IPv4 address (one to four numerals, each
decimal, octal or hexadecimal, the last filling the remaining bytes), the text
notation of an IPv6 address, and the blocks of addresses that are not public.
-/

namespace Infernode.Inet

open Text List

/-! ### Numerals -/

def digitValue (c : Nat) : Option Nat :=
  if 48 ≤ c ∧ c ≤ 57 then some (c - 48)
  else if 97 ≤ c ∧ c ≤ 102 then some (c - 87)
  else if 65 ≤ c ∧ c ≤ 70 then some (c - 55)
  else none

def digitsValue (base : Nat) : Nat → Str → Option Nat
  | value, [] => some value
  | value, c :: rest =>
    match digitValue c with
    | some d => if d < base then digitsValue base (value * base + d) rest else none
    | none => none

/-- A numeral of `inet_aton`: `0x` and hexadecimal digits, `0` and octal digits, or
decimal digits. -/
def numeral : Str → Option Nat
  | [] => none
  | 48 :: 120 :: d :: rest => digitsValue 16 0 (d :: rest)
  | 48 :: 88 :: d :: rest => digitsValue 16 0 (d :: rest)
  | 48 :: rest => digitsValue 8 0 rest
  | c :: rest => digitsValue 10 0 (c :: rest)

/-! ### IPv4 -/

def dot : Nat := 46

def numerals : List Str → Option (List Nat)
  | [] => some []
  | part :: rest =>
    match numeral part, numerals rest with
    | some value, some values => some (value :: values)
    | _, _ => none

/-- The address of the values of one to four parts. -/
def address : List Nat → Option Nat
  | [a] => if a < 2 ^ 32 then some a else none
  | [a, b] => if a < 2 ^ 8 ∧ b < 2 ^ 24 then some (a * 2 ^ 24 + b) else none
  | [a, b, c] =>
    if a < 2 ^ 8 ∧ b < 2 ^ 8 ∧ c < 2 ^ 16 then some (a * 2 ^ 24 + b * 2 ^ 16 + c) else none
  | [a, b, c, d] =>
    if a < 2 ^ 8 ∧ b < 2 ^ 8 ∧ c < 2 ^ 8 ∧ d < 2 ^ 8 then
      some (a * 2 ^ 24 + b * 2 ^ 16 + c * 2 ^ 8 + d)
    else none
  | _ => none

def inetAton (text : Str) : Option Nat := (numerals (text.splitOn dot)).bind address

def Numeric (text : Str) : Prop :=
  (text.splitOn dot).length ≤ 4 ∧ numerals (text.splitOn dot) ≠ none

/-- The blocks (network and prefix length) of addresses that are not public: this
network, private, loopback, shared, link-local, assigned, documentation,
benchmarking, multicast and reserved addresses. -/
def reservedBlocks : List (Nat × Nat) :=
  [(0x00000000, 8), (0x0A000000, 8), (0x7F000000, 8), (0xE0000000, 3), (0x64400000, 10),
    (0xA9FE0000, 16), (0xAC100000, 12), (0xC0A80000, 16), (0xC0000000, 24), (0xC0000200, 24),
    (0xC6120000, 15), (0xC6336400, 24), (0xCB007100, 24)]

def Reserved4 (addr : Nat) : Prop :=
  ∃ block ∈ reservedBlocks, addr / 2 ^ (32 - block.2) = block.1 / 2 ^ (32 - block.2)

instance (addr : Nat) : Decidable (Reserved4 addr) := by
  unfold Reserved4
  infer_instance

/-! ### IPv6 -/

def colon : Nat := 58

def h16 (piece : Str) : Option Nat :=
  if piece = [] ∨ 4 < piece.length then none else digitsValue 16 0 piece

def decOctet (piece : Str) : Option Nat :=
  if piece = [] ∨ 3 < piece.length then none
  else (digitsValue 10 0 piece).bind fun value => if value < 256 then some value else none

/-- Four decimal octets, as the last 32 bits of an address. -/
def embedded4 (piece : Str) : Option (List Nat) :=
  match piece.splitOn dot with
  | [a, b, c, d] =>
    match decOctet a, decOctet b, decOctet c, decOctet d with
    | some w, some x, some y, some z => some [w * 256 + x, y * 256 + z]
    | _, _, _, _ => none
  | _ => none

/-- The groups between colons; `tail` says whether the text may end in an embedded
IPv4 address. -/
def groups (tail : Bool) : List Str → Option (List Nat)
  | [] => some []
  | [last] =>
    match h16 last with
    | some value => some [value]
    | none => if tail then embedded4 last else none
  | piece :: next :: rest =>
    match h16 piece, groups tail (next :: rest) with
    | some value, some values => some (value :: values)
    | _, _ => none

/-- What stands before and after the first `::`. -/
def cutDouble : Str → Option (Str × Str)
  | 58 :: 58 :: rest => some ([], rest)
  | c :: rest => (cutDouble rest).map fun sides => (c :: sides.1, sides.2)
  | [] => none

/-- One side of a `::`, which may be empty. -/
def side (tail : Bool) (text : Str) : Option (List Nat) :=
  if text = [] then some [] else groups tail (text.splitOn colon)

/-- The eight groups of an IPv6 address; a zone after `%` names an interface. -/
def ipv6 (text : Str) : Option (List Nat) :=
  let bare := text.takeWhile (· != 37)
  match cutDouble bare with
  | none =>
    (groups true (bare.splitOn colon)).bind fun all => if all.length = 8 then some all else none
  | some (left, right) =>
    match side false left, side true right with
    | some high, some low =>
      if high.length + low.length ≤ 7 then
        some (high ++ List.replicate (8 - (high.length + low.length)) 0 ++ low)
      else none
    | _, _ => none

/-- Unspecified, loopback, unique-local (`fc00::/7`), link-local (`fe80::/10`), or an
IPv4 address that is not public. -/
def Reserved6 : List Nat → Prop
  | [a, b, c, d, e, f, g, h] =>
    (a = 0 ∧ b = 0 ∧ c = 0 ∧ d = 0 ∧ e = 0 ∧ f = 0 ∧ g = 0 ∧ (h = 0 ∨ h = 1)) ∨
      a / 2 ^ 9 = 0xFC00 / 2 ^ 9 ∨ a / 2 ^ 6 = 0xFE80 / 2 ^ 6 ∨
      (a = 0 ∧ b = 0 ∧ c = 0 ∧ d = 0 ∧ e = 0 ∧ f = 0xFFFF ∧ Reserved4 (g * 2 ^ 16 + h))
  | _ => False

/-! ### The characters of the notations -/

theorem digitValue_colon : digitValue colon = none := by decide

variable {value c n : Nat} {text piece : Str} {tail : Bool} {all : List Nat}

variable {base : Nat} {left right : Str} {ns : List Nat}

theorem digitsValue_none_of_mem (member : c ∈ text) (noDigit : digitValue c = none) :
    digitsValue base value text = none := by
  induction text generalizing value with
  | nil => exact absurd member not_mem_nil
  | cons head _ ih =>
    rcases mem_cons.1 member with rfl | member
    · simp [digitsValue, noDigit]
    cases digit : digitValue head with
    | none => simp [digitsValue, digit]
    | some _ =>
      simp only [digitsValue, digit]
      split_ifs
      · exact ih member
      · rfl

/-- A text of groups without a colon is at most an embedded IPv4 address. -/
theorem groups_singleton_length (read : groups tail [piece] = some all) : all.length ≤ 2 := by
  simp only [groups] at read
  cases single : h16 piece with
  | some _ =>
    rw [single] at read
    cases read
    simp
  | none =>
    rw [single] at read
    simp only at read
    split_ifs at read
    unfold embedded4 at read
    split at read
    · split at read
      · cases read
        simp
      · cases read
    · cases read

theorem colon_mem_of_cutDouble (cut : cutDouble text = some (left, right)) : colon ∈ text := by
  induction text using cutDouble.induct generalizing left right with
  | case1 _ => simp [colon]
  | case2 _ _ _ ih =>
    rw [cutDouble] at cut
    · have ⟨_, later, _⟩ := Option.map_eq_some_iff.1 cut
      exact mem_cons_of_mem _ (ih later)
    · assumption
  | case3 => simp [cutDouble] at cut

theorem colon_mem_of_ipv6 (read : ipv6 text = some all) : colon ∈ text := by
  have inside : colon ∈ text.takeWhile (· != 37) := by
    simp only [ipv6] at read
    cases cut : cutDouble (text.takeWhile (· != 37)) with
    | some _ => exact colon_mem_of_cutDouble cut
    | none =>
      rw [cut] at read
      simp only at read
      by_contra absent
      have one : (text.takeWhile (· != 37)).splitOn colon = [text.takeWhile (· != 37)] := by
        refine splitOnP_eq_singleton fun c member => ?_
        have other : c ≠ colon := fun same => absent (same ▸ member)
        simpa using other
      rw [one] at read
      have ⟨_, groupsRead, sized⟩ := Option.bind_eq_some_iff.1 read
      have short := groups_singleton_length groupsRead
      split_ifs at sized
      omega
  exact (takeWhile_sublist _).subset inside

def IsAddressChar (c : Nat) : Prop := digitValue c ≠ none ∨ c = colon ∨ c = dot

theorem digit_of_digitsValue (read : digitsValue base value text = some n) (member : c ∈ text) :
    digitValue c ≠ none := by
  intro noDigit
  rw [digitsValue_none_of_mem member noDigit] at read
  cases read

theorem digit_of_h16 (read : h16 piece = some value) (member : c ∈ piece) :
    digitValue c ≠ none := by
  unfold h16 at read
  split_ifs at read
  exact digit_of_digitsValue read member

theorem digit_of_decOctet (read : decOctet piece = some value) (member : c ∈ piece) :
    digitValue c ≠ none := by
  unfold decOctet at read
  split_ifs at read
  have ⟨_, digits, _⟩ := Option.bind_eq_some_iff.1 read
  exact digit_of_digitsValue digits member

theorem addressChar_of_embedded4 (read : embedded4 piece = some all) (member : c ∈ piece) :
    IsAddressChar c := by
  unfold embedded4 at read
  split at read
  · rename_i first second third fourth pieces
    split at read
    · rename_i firstRead secondRead thirdRead fourthRead
      rcases mem_splitOn dot member with isDot | ⟨part, inPieces, inPart⟩
      · exact Or.inr (Or.inr isDot)
      left
      rw [pieces] at inPieces
      simp only [mem_cons, not_mem_nil, or_false] at inPieces
      rcases inPieces with rfl | rfl | rfl | rfl
      · exact digit_of_decOctet firstRead inPart
      · exact digit_of_decOctet secondRead inPart
      · exact digit_of_decOctet thirdRead inPart
      · exact digit_of_decOctet fourthRead inPart
    · cases read
  · cases read

theorem addressChar_of_groups {pieces : List Str} (read : groups tail pieces = some all) :
    ∀ piece ∈ pieces, ∀ c ∈ piece, IsAddressChar c := by
  induction pieces generalizing all with
  | nil => simp
  | cons piece rest ih =>
    cases rest with
    | nil =>
      intro only isOnly c member
      rw [mem_singleton.1 isOnly] at member
      simp only [groups] at read
      split at read
      · rename_i single
        exact Or.inl (digit_of_h16 single member)
      · split_ifs at read
        exact addressChar_of_embedded4 read member
    | cons next others =>
      simp only [groups] at read
      split at read
      · rename_i value values first later
        intro some_ isSome c member
        rcases mem_cons.1 isSome with rfl | inRest
        · exact Or.inl (digit_of_h16 first member)
        · exact ih later some_ inRest c member
      · cases read

theorem addressChar_of_splitOn (read : groups tail (text.splitOn colon) = some all)
    (member : c ∈ text) : IsAddressChar c := by
  rcases mem_splitOn colon member with isColon | ⟨piece, inPieces, inPiece⟩
  · exact Or.inr (Or.inl isColon)
  · exact addressChar_of_groups read piece inPieces c inPiece

theorem addressChar_of_side (read : side tail text = some all) (member : c ∈ text) :
    IsAddressChar c := by
  unfold side at read
  split_ifs at read with empty
  · simp [empty] at member
  · exact addressChar_of_splitOn read member

theorem cutDouble_eq (cut : cutDouble text = some (left, right)) :
    text = left ++ colon :: colon :: right := by
  induction text using cutDouble.induct generalizing left right with
  | case1 _ =>
    simp only [cutDouble, Option.some.injEq, Prod.mk.injEq] at cut
    rw [← cut.1, ← cut.2]
    rfl
  | case2 _ _ _ ih =>
    rw [cutDouble] at cut
    · have ⟨_, later, same⟩ := Option.map_eq_some_iff.1 cut
      simp only [Prod.mk.injEq] at same
      rw [ih later, ← same.1, ← same.2]
      rfl
    · assumption
  | case3 => simp [cutDouble] at cut

theorem addressChar_of_ipv6 (read : ipv6 text = some all) (member : c ∈ text.takeWhile (· != 37)) :
    IsAddressChar c := by
  simp only [ipv6] at read
  cases cut : cutDouble (text.takeWhile (· != 37)) with
  | none =>
    rw [cut] at read
    have ⟨found, groupsRead, _⟩ := Option.bind_eq_some_iff.1 read
    exact addressChar_of_splitOn groupsRead member
  | some sides =>
    have ⟨left, right⟩ := sides
    rw [cut] at read
    simp only at read
    split at read
    · rename_i high low highRead lowRead
      rw [cutDouble_eq cut] at member
      rcases mem_append.1 member with inLeft | member
      · exact addressChar_of_side highRead inLeft
      rcases mem_cons.1 member with isColon | member
      · exact Or.inr (Or.inl isColon)
      · rcases mem_cons.1 member with isColon | inRight
        · exact Or.inr (Or.inl isColon)
        · exact addressChar_of_side lowRead inRight
    · cases read

/-! ### The characters of numerals -/

theorem numeral_head (read : numeral text = some n) :
    ∃ c rest, text = c :: rest ∧ 48 ≤ c ∧ c ≤ 57 := by
  fun_cases numeral text
  · simp [numeral] at read
  · exact ⟨48, _, rfl, by decide, by decide⟩
  · exact ⟨48, _, rfl, by decide, by decide⟩
  · exact ⟨48, _, rfl, by decide, by decide⟩
  rename_i c rest _ _ notZero
  refine ⟨c, rest, rfl, ?_⟩
  rw [numeral] at read
  · simp only [digitsValue] at read
    cases digit : digitValue c with
    | none => simp [digit] at read
    | some d =>
      simp only [digit] at read
      split_ifs at read with small
      unfold digitValue at digit
      split_ifs at digit <;> simp only [Option.some.injEq] at digit <;> omega
  all_goals assumption

theorem colon_notMem_numeral (read : numeral text = some n) : colon ∉ text := by
  have clean : ∀ {base value : Nat} {digits : Str} {m : Nat},
      digitsValue base value digits = some m → colon ∉ digits :=
    fun digitsRead member => digit_of_digitsValue digitsRead member digitValue_colon
  fun_cases numeral text
  · simp
  · simpa [colon] using clean read
  · simpa [colon] using clean read
  · rename_i rest _ _
    rw [numeral] at read
    · simpa [colon] using clean read
    all_goals assumption
  · rw [numeral] at read
    · exact clean read
    all_goals assumption

theorem numeral_of_numerals {parts : List Str} (read : numerals parts = some ns) :
    ∀ part ∈ parts, ∃ n, numeral part = some n := by
  induction parts generalizing ns with
  | nil => simp
  | cons part rest ih =>
    simp only [numerals] at read
    split at read
    · rename_i value values first others
      intro some_ member
      rcases mem_cons.1 member with rfl | inRest
      · exact ⟨value, first⟩
      · exact ih others some_ inRest
    · cases read

theorem shape_of_numerals (read : numerals (text.splitOn dot) = some ns) :
    colon ∉ text ∧ ∃ c rest, text = c :: rest ∧ 48 ≤ c ∧ c ≤ 57 := by
  have each := numeral_of_numerals read
  constructor
  · intro member
    rcases mem_splitOn dot member with isDot | ⟨part, inParts, inPart⟩
    · exact absurd isDot (by decide)
    · have ⟨n, partRead⟩ := each part inParts
      exact colon_notMem_numeral partRead inPart
  cases text with
  | nil =>
    have ⟨n, emptyRead⟩ := each [] (by simp)
    simp [numeral] at emptyRead
  | cons c rest =>
    refine ⟨c, rest, rfl, ?_⟩
    unfold List.splitOn at each
    rw [splitOnP_cons_eq_if_modifyHead] at each
    split_ifs at each with isDot
    · have ⟨n, emptyRead⟩ := each [] (by simp)
      simp [numeral] at emptyRead
    have ⟨first, _, pieces⟩ :=
      exists_cons_of_ne_nil (splitOnP_ne_nil (· == dot) rest)
    have ⟨_, firstRead⟩ := each (c :: first) (by rw [pieces]; simp)
    have ⟨_, _, same, isDigit⟩ := numeral_head firstRead
    rw [(List.cons.inj same).1]
    exact isDigit

end Infernode.Inet
