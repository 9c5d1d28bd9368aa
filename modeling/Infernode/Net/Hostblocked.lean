import Infernode.Net.Publicnet
import Infernode.Net.InetText

/-!
Which spellings of a host the public-network filter refuses.

Owns: the agreement of `parseradix`, `parseipv4any` and `publicipv4` with the
notations of an IPv4 address where they agree, the host strings on which they do
not, and the exact condition under which `hostblocked` filters a host string.
-/

namespace Infernode.Publicnet

open Text Strings Inet List Option

/-! ### Digits -/

def IsRadix (base : Nat) : Prop := base = 8 ∨ base = 10 ∨ base = 16

variable {base value n a : Nat} {text s host : Str} {parts : List Str} {ns : List Nat}

theorem digit_eq (isRadix : IsRadix base) (c : Nat) :
    digit base c = (digitValue c).bind fun d => if d < base then some d else none := by
  unfold digit digitValue
  have letter : ∀ d, c - d + 10 = c - (d - 10) ∨ c < d ∨ d < 10 := fun d => by omega
  rcases isRadix with rfl | rfl | rfl <;> split_ifs <;>
    simp only [bind_some, bind_none] <;> split_ifs <;>
    first | rfl | omega | (rw [Option.some.injEq]; omega)

theorem digitsValue_mono (positive : 0 < base) (read : digitsValue base value text = some n) :
    value ≤ n := by
  induction text generalizing value with
  | nil =>
    simp only [digitsValue, Option.some.injEq] at read
    omega
  | cons c _ ih =>
    simp only [digitsValue] at read
    cases digitRead : digitValue c with
    | none => simp [digitRead] at read
    | some _ =>
      simp only [digitRead] at read
      split_ifs at read
      have later := ih read
      have grows : value ≤ value * base := Nat.le_mul_of_pos_right value positive
      omega

/-- The loop of 32-bit integers rejects what is no number, whatever it has read. -/
theorem digits_eq_none {other : Nat} (isRadix : IsRadix base)
    (read : digitsValue base value text = none) : digits base other text = none := by
  induction text generalizing value other with
  | nil => simp [digitsValue] at read
  | cons c _ ih =>
    simp only [digitsValue] at read
    simp only [digits, digit_eq isRadix]
    cases digitRead : digitValue c with
    | none => rfl
    | some _ =>
      simp only [digitRead] at read
      simp only [bind_some]
      split_ifs at read ⊢ with small
      · simp only
        split_ifs
        · rfl
        · exact ih read
      · rfl

/-- The loop reads a number below `2^31`, and a larger one of 32 bits overflows it. -/
theorem digits_eq_some (isRadix : IsRadix base) (read : digitsValue base value text = some n)
    (small : value < 2 ^ 31) (word : n < 2 ^ 32) :
    digits base value text = if n < 2 ^ 31 then some n else none := by
  have positive : 0 < base := by
    rcases isRadix with rfl | rfl | rfl <;> decide
  induction text generalizing value with
  | nil =>
    simp only [digitsValue, Option.some.injEq] at read
    rw [← read, if_pos small]
    rfl
  | cons c _ ih =>
    simp only [digitsValue] at read
    simp only [digits, digit_eq isRadix]
    cases digitRead : digitValue c with
    | none => simp [digitRead] at read
    | some d =>
      simp only [digitRead] at read
      simp only [bind_some]
      split_ifs at read with inBase
      have bounded := digitsValue_mono positive read
      have noWrap : (value * base + d) % 4294967296 = value * base + d :=
        Nat.mod_eq_of_lt (by omega)
      rw [if_pos inBase]
      simp only [noWrap, negative]
      by_cases overflow : 2147483648 ≤ value * base + d
      · rw [if_pos (decide_eq_true overflow), if_neg (by omega)]
      · rw [if_neg (by simpa using overflow)]
        exact ih read (by omega)

/-! ### Numerals -/

theorem radix_isRadix (s : Str) : IsRadix (radix s).1 := by
  unfold radix
  split <;> simp [IsRadix]

theorem numeral_eq_radix (nonempty : s ≠ []) :
    numeral s = digitsValue (radix s).1 0 (radix s).2 := by
  fun_cases numeral s
  · exact absurd rfl nonempty
  · rfl
  · rfl
  · rename_i rest notLower notUpper
    cases rest with
    | nil => rfl
    | cons d rest =>
      unfold radix
      split <;> simp_all
  · rename_i c rest _ _ notZero
    unfold radix
    split <;> simp_all

/-- `parseradix` reads the numerals of at most 11 characters below `2^31`. -/
theorem parseradix_of_numeral (read : numeral s = some n) (word : n < 2 ^ 32) :
    parseradix s = if s.length ≤ 11 ∧ n < 2 ^ 31 then some n else none := by
  have nonempty : s ≠ [] := by
    rintro rfl
    simp [numeral] at read
  rw [numeral_eq_radix nonempty] at read
  unfold parseradix
  rw [digits_eq_some (radix_isRadix s) read (by decide) word]
  by_cases long : 11 < s.length
  · rw [if_pos (Or.inr long), if_neg (by omega)]
  rw [if_neg (by simp [nonempty, long])]
  by_cases small : n < 2 ^ 31
  · rw [if_pos small, if_pos ⟨by omega, small⟩]
  · rw [if_neg small, if_neg (by omega)]

theorem parseradix_of_not_numeral (read : numeral s = none) : parseradix s = none := by
  unfold parseradix
  split_ifs with bad
  · rfl
  · rw [numeral_eq_radix (by tauto)] at read
    exact digits_eq_none (radix_isRadix s) read

/-- What `parseparts` reads is a list of numerals. -/
theorem numerals_of_parseparts (read : numerals parts = none) : parseparts parts = none := by
  induction parts with
  | nil => simp [numerals] at read
  | cons part rest ih =>
    simp only [parseparts]
    split_ifs
    · rfl
    cases first : numeral part with
    | none => rw [parseradix_of_not_numeral first]
    | some _ =>
      cases others : numerals rest with
      | some _ => simp [numerals, first, others] at read
      | none =>
        rw [ih others]
        cases parseradix part <;> rfl

/-- The parts are all read when they are short and their values are below `2^31`. -/
theorem parseparts_of_numerals (read : numerals parts = some ns) (word : ∀ n ∈ ns, n < 2 ^ 32) :
    parseparts parts =
      if (∀ part ∈ parts, part.length ≤ 11) ∧ ∀ n ∈ ns, n < 2 ^ 31 then some ns else none := by
  induction parts generalizing ns with
  | nil =>
    simp only [numerals, Option.some.injEq] at read
    subst read
    simp [parseparts]
  | cons part rest ih =>
    cases first : numeral part with
    | none => simp [numerals, first] at read
    | some value =>
      cases others : numerals rest with
      | none => simp [numerals, first, others] at read
      | some values =>
        simp only [numerals, first, others, Option.some.injEq] at read
        subst read
        have nonempty : part ≠ [] := by
          rintro rfl
          simp [numeral] at first
        simp only [parseparts, if_neg nonempty,
          parseradix_of_numeral first (word value (by simp)),
          ih others (forall_mem_cons.1 word).2,
          forall_mem_cons]
        by_cases head : part.length ≤ 11 ∧ value < 2 ^ 31
        · by_cases tail : (∀ part ∈ rest, part.length ≤ 11) ∧ ∀ n ∈ values, n < 2 ^ 31
          · rw [if_pos head, if_pos tail, if_pos ⟨⟨head.1, tail.1⟩, head.2, tail.2⟩]
          · rw [if_pos head, if_neg tail, if_neg]
            rintro ⟨⟨_, short⟩, _, small⟩
            exact tail ⟨short, small⟩
        have fails : ¬((part.length ≤ 11 ∧ ∀ part ∈ rest, part.length ≤ 11) ∧
            value < 2 ^ 31 ∧ ∀ n ∈ values, n < 2 ^ 31) := by
          rintro ⟨⟨short, _⟩, small, _⟩
          exact head ⟨short, small⟩
        rw [if_neg head, if_neg fails]

/-! ### Addresses -/

private theorem or_eq_add {high low k : Nat} (small : low < 2 ^ k) :
    high <<< k ||| low = high * 2 ^ k + low := by
  rw [← Nat.shiftLeft_add_eq_or_of_lt small, Nat.shiftLeft_eq]

private theorem shiftLeft_or_shiftLeft {high low : Nat} (k : Nat) (small : low < 2 ^ 8) :
    high <<< (k + 8) ||| low <<< k = (high * 2 ^ 8 + low) <<< k := by
  rw [← or_eq_add small, Nat.shiftLeft_or_distrib, ← Nat.shiftLeft_add, Nat.add_comm 8 k]

theorem orparts_of_address (isAddress : address ns = some a) (small : ∀ n ∈ ns, n < 2 ^ 31) :
    ∃ addr last, orparts 0 0 ns = some (addr, last) ∧ addr ||| last = a ∧
      negative last = false ∧ ¬(1 < ns.length ∧ maxlast ns.length < last) := by
  unfold address at isAddress
  split at isAddress <;> try cases isAddress
  all_goals split_ifs at isAddress with bounds
  all_goals cases isAddress
  · have fits := small a (by simp)
    exact ⟨0, a, rfl, Nat.zero_or a, by simp [negative]; omega, by simp⟩
  · rename_i a b
    refine ⟨0 ||| a <<< 24, b, ?_, ?_, by simp [negative]; omega, by simp [maxlast]; omega⟩
    · simp only [orparts]
      rw [if_neg (by omega)]
    · rw [Nat.zero_or, or_eq_add bounds.2]
  · rename_i a b c
    refine ⟨0 ||| a <<< 24 ||| b <<< 16, c, ?_, ?_, by simp [negative]; omega,
      by simp [maxlast]; omega⟩
    · simp only [orparts]
      rw [if_neg (by omega), if_neg (by omega)]
    · rw [Nat.zero_or, shiftLeft_or_shiftLeft 16 bounds.2.1, or_eq_add bounds.2.2]
      omega
  rename_i a b c d
  refine ⟨0 ||| a <<< 24 ||| b <<< 16 ||| c <<< 8, d, ?_, ?_, by simp [negative]; omega,
    by simp [maxlast]; omega⟩
  · simp only [orparts]
    rw [if_neg (by omega), if_neg (by omega), if_neg (by omega)]
  · rw [Nat.zero_or, shiftLeft_or_shiftLeft 16 bounds.2.1, shiftLeft_or_shiftLeft 8 bounds.2.2.1,
      or_eq_add bounds.2.2.2]
    omega

/-- The parts of a text are short numbers below `2^31`. -/
def ShortParts (text : Str) (a : Nat) : Prop :=
  (∀ part ∈ text.splitOn dot, part.length ≤ 11) ∧
    ((text.splitOn dot).length = 1 → a < 2 ^ 31)

instance (text : Str) (a : Nat) : Decidable (ShortParts text a) := by
  unfold ShortParts
  infer_instance

/-- Every part of an address but a single one is below `2^31`. -/
theorem address_bounds (isAddress : address ns = some a) :
    (∀ n ∈ ns, n < 2 ^ 32) ∧ a < 2 ^ 32 ∧ 1 ≤ ns.length ∧ ns.length ≤ 4 ∧
      ((∀ n ∈ ns, n < 2 ^ 31) ↔ (ns.length = 1 → a < 2 ^ 31)) := by
  unfold address at isAddress
  split at isAddress <;> try cases isAddress
  all_goals split_ifs at isAddress with bounds
  all_goals cases isAddress
  · simpa using bounds
  all_goals
    simp only [forall_mem_cons, not_mem_nil, false_implies, implies_true, and_true,
      length_cons, length_nil, Nat.reduceAdd, Nat.reduceEqDiff, iff_true]
  all_goals omega

theorem length_numerals (read : numerals parts = some ns) : ns.length = parts.length := by
  induction parts generalizing ns with
  | nil =>
    cases read
    rfl
  | cons part rest ih =>
    simp only [numerals] at read
    split at read
    · rename_i value values _ others
      cases read
      simp [ih others]
    · cases read

theorem parseipv4any_of_inetAton (read : inetAton text = some a) :
    parseipv4any text = if ShortParts text a then some a else none := by
  have ⟨ns, numeralsRead, isAddress⟩ := bind_eq_some_iff.1 read
  have ⟨word, _, _, _, smallIff⟩ := address_bounds isAddress
  have counted := length_numerals numeralsRead
  have sameCondition : ((∀ part ∈ text.splitOn dot, part.length ≤ 11) ∧ ∀ n ∈ ns, n < 2 ^ 31) ↔
      ShortParts text a := by
    rw [smallIff, counted]
    rfl
  have parts := parseparts_of_numerals numeralsRead word
  rw [if_congr sameCondition rfl rfl] at parts
  unfold parseipv4any
  rw [show (46 : Nat) = dot from rfl, parts]
  by_cases short : ShortParts text a
  · have ⟨_, _, put, whole, positiveLast, fits⟩ :=
      orparts_of_address isAddress (sameCondition.2 short).2
    simp only [if_pos short, put]
    rw [if_neg (by omega), if_neg (by simpa [positiveLast] using fits), whole]
  · simp only [if_neg short]

/-- What is parsed is a list of one to four numerals. -/
theorem numeric_of_parseipv4any (parsed : parseipv4any text ≠ none) : Numeric text := by
  have sized : ∀ {parts : List Str} {vs : List Nat}, parseparts parts = some vs →
      vs.length = parts.length := by
    intro parts
    induction parts with
    | nil =>
      intro vs read
      cases read
      rfl
    | cons part rest ih =>
      intro vs read
      simp only [parseparts] at read
      split_ifs at read
      split at read
      · rename_i value values _ others
        cases read
        simp [ih others]
      · cases read
  refine ⟨?_, ?_⟩
  · by_contra many
    apply parsed
    unfold parseipv4any
    cases parts : parseparts (text.splitOn 46) with
    | none => rfl
    | some ordered =>
      have counted := sized parts
      have tooMany : 4 < ordered.length := by
        rw [counted]
        exact Nat.lt_of_not_le many
      simp only [if_pos (Or.inr tooMany : ordered.length < 1 ∨ 4 < ordered.length)]
  · intro noNumerals
    apply parsed
    unfold parseipv4any
    rw [show (46 : Nat) = dot from rfl, numerals_of_parseparts noNumerals]

/-! ### Dotted addresses -/

theorem octet_decimal : ∀ v < 256, octet 0 (decimal ((v : Nat) : Int)) = some v := by
  decide +kernel

/-- The reserved blocks, by the first three octets of the address. -/
theorem reserved4_iff {v : Nat} (word : v < 2 ^ 32) {x0 x1 x2 : Nat}
    (first : x0 = v / 16777216 % 256) (second : x1 = v / 65536 % 256)
    (third : x2 = v / 256 % 256) :
    Reserved4 v ↔
      x0 = 0 ∨ x0 = 10 ∨ x0 = 127 ∨ 224 ≤ x0 ∨ (x0 = 100 ∧ 64 ≤ x1 ∧ x1 ≤ 127) ∨
        (x0 = 169 ∧ x1 = 254) ∨ (x0 = 172 ∧ 16 ≤ x1 ∧ x1 ≤ 31) ∨ (x0 = 192 ∧ x1 = 168) ∨
        (x0 = 192 ∧ x1 = 0 ∧ x2 = 0) ∨ (x0 = 192 ∧ x1 = 0 ∧ x2 = 2) ∨
        (x0 = 198 ∧ (x1 = 18 ∨ x1 = 19)) ∨ (x0 = 198 ∧ x1 = 51 ∧ x2 = 100) ∨
        (x0 = 203 ∧ x1 = 0 ∧ x2 = 113) := by
  have byteBlock : ∀ n, v / 16777216 = n ↔ x0 = n := fun n => by omega
  have multicast : v / 536870912 = 7 ↔ 224 ≤ x0 := by omega
  have shared : v / 4194304 = 401 ↔ x0 = 100 ∧ 64 ≤ x1 ∧ x1 ≤ 127 := by omega
  have linkLocal : v / 65536 = 43518 ↔ x0 = 169 ∧ x1 = 254 := by omega
  have privateTwelve : v / 1048576 = 2753 ↔ x0 = 172 ∧ 16 ≤ x1 ∧ x1 ≤ 31 := by omega
  have privateSixteen : v / 65536 = 49320 ↔ x0 = 192 ∧ x1 = 168 := by omega
  have assigned : v / 256 = 12582912 ↔ x0 = 192 ∧ x1 = 0 ∧ x2 = 0 := by omega
  have documentation : v / 256 = 12582914 ↔ x0 = 192 ∧ x1 = 0 ∧ x2 = 2 := by omega
  have benchmarking : v / 131072 = 25353 ↔ x0 = 198 ∧ (x1 = 18 ∨ x1 = 19) := by omega
  have secondDocumentation : v / 256 = 12989284 ↔ x0 = 198 ∧ x1 = 51 ∧ x2 = 100 := by omega
  have thirdDocumentation : v / 256 = 13303921 ↔ x0 = 203 ∧ x1 = 0 ∧ x2 = 113 := by omega
  simp [Reserved4, reservedBlocks, byteBlock, multicast, shared, linkLocal, privateTwelve,
    privateSixteen, assigned, documentation, benchmarking, secondDocumentation,
    thirdDocumentation]

def octetsOf (v : Nat) : List Nat :=
  [v / 16777216 % 256, v / 65536 % 256, v / 256 % 256, v % 256]

theorem octets_dotted (v : Nat) : octets ((dotted v).splitOn 46) = some (octetsOf v) := by
  have field : ∀ n : Nat, 46 ∉ decimal (n : Int) := by
    intro _ member
    rcases mem_decimal member with digit | minus
    · exact absurd digit (by decide)
    · omega
  have pieces : (dotted v).splitOn 46 =
      [decimal ((v / 16777216 % 256 : Nat)), decimal ((v / 65536 % 256 : Nat)),
        decimal ((v / 256 % 256 : Nat)), decimal ((v % 256 : Nat))] := by
    have joined : dotted v = [46].intercalate
        [decimal ((v / 16777216 % 256 : Nat)), decimal ((v / 65536 % 256 : Nat)),
          decimal ((v / 256 % 256 : Nat)), decimal ((v % 256 : Nat))] := by
      simp [dotted, List.intercalate]
    rw [joined, splitOn_intercalate]
    · intro _ member
      simp only [mem_cons, not_mem_nil, or_false] at member
      rcases member with rfl | rfl | rfl | rfl <;> exact field _
    · simp
  rw [pieces]
  simp only [octets, octetsOf, decimal_ne_nil, if_false,
    octet_decimal _ (Nat.mod_lt _ (by decide))]

/-- The filter's test of a dotted address is membership in the reserved blocks. -/
theorem publicipv4_dotted {v : Nat} (word : v < 2 ^ 32) :
    publicipv4 (dotted v) = if Reserved4 v then 0 else 1 := by
  have blocks := reserved4_iff word rfl rfl rfl
  unfold publicipv4
  rw [octets_dotted, octetsOf]
  generalize v / 16777216 % 256 = x0 at blocks ⊢
  generalize v / 65536 % 256 = x1 at blocks ⊢
  generalize v / 256 % 256 = x2 at blocks ⊢
  simp only [blocks]
  split_ifs <;> first | rfl | grind

/-! ### What the filter promises -/

/-- The address text of a host: letter case and surrounding brackets mean nothing. -/
def bare (host : Str) : Str := unbracket (tolower host)

def NonPublic (host : Str) : Prop :=
  (∃ a, inetAton (bare host) = some a ∧ Reserved4 a) ∨
    ∃ all, ipv6 (bare host) = some all ∧ Reserved6 all

def localNames : List Str :=
  [str "localhost", str "ip6-localhost", str "metadata", str "metadata.google.internal"]

/-- A listed name, with or without a trailing dot, or a name that goes on after
`localhost.`. -/
def LocalName (host : Str) : Prop :=
  tolower host ∈ localNames ∨ tolower host ∈ localNames.map (· ++ [46]) ∨
    hasprefix (tolower host) (str "localhost.") = true

/-- Letters, digits, hyphens and underscores between dots. -/
def DnsName (host : Str) : Prop :=
  host ≠ [] ∧ ∀ c ∈ host, (48 ≤ c ∧ c ≤ 57) ∨ (65 ≤ c ∧ c ≤ 90) ∨ (97 ≤ c ∧ c ≤ 122) ∨
    c = 45 ∨ c = 46 ∨ c = 95

def Filters (host : Str) : Prop :=
  (NonPublic host ∨ LocalName host → hostblocked host = true) ∧
    (DnsName host ∧ ¬Numeric (bare host) ∧ ¬LocalName host → hostblocked host = false)

/-! ### The spellings that pass the filter, and the names that it refuses -/

/-- A part longer than 11 characters, or a single number from `2^31` on. -/
def WideNumber (host : Str) : Prop :=
  ∃ a, inetAton (bare host) = some a ∧ Reserved4 a ∧ ¬ShortParts (bare host) a

/-- The text begins as the filter expects of an IPv6 address. -/
def expectedPrefix (text : Str) : Bool :=
  hasprefix text (str "::") || hasprefix text (str "fc") || hasprefix text (str "fd") ||
    hasprefix text (str "fe80")

/-- The loopback address written out, in the two ways that the filter lists. -/
def expectedLoopback (text : Str) : Prop :=
  text = str "0:0:0:0:0:0:0:1" ∨ text = str "0000:0000:0000:0000:0000:0000:0000:0001"

instance (text : Str) : Decidable (expectedLoopback text) := by
  unfold expectedLoopback
  infer_instance

/-- An IPv6 text in another spelling than the filter expects. -/
def OddIpv6 (host : Str) : Prop :=
  (∃ all, ipv6 (bare host) = some all ∧ Reserved6 all) ∧
    expectedPrefix (bare host) = false ∧ ¬expectedLoopback (bare host)

/-- A listed name other than `localhost` with a trailing dot. -/
def DottedName (host : Str) : Prop :=
  tolower host ∈ localNames.tail.map (· ++ [46])

/-- A name that begins as an IPv6 address might. -/
def HexName (host : Str) : Prop :=
  DnsName host ∧ ¬Numeric (bare host) ∧ ¬LocalName host ∧ expectedPrefix (bare host) = true

theorem hostblocked_iff (nonempty : host ≠ []) :
    hostblocked host = true ↔
      bare host ∈ localNames ∨ hasprefix (bare host) (str "localhost.") = true ∨
        expectedPrefix (bare host) = true ∨ expectedLoopback (bare host) ∨
        ∃ v, parseipv4any (bare host) = some v ∧ publicipv4 (dotted v) ≠ 1 := by
  unfold hostblocked
  rw [if_neg nonempty]
  simp only [show unbracket (tolower host) = bare host from rfl]
  cases parse : parseipv4any (bare host) <;> split_ifs <;>
    simp_all [localNames, expectedPrefix, expectedLoopback]

/-- A text that starts outside letters and colons is no local name and no expected
spelling of IPv6. -/
theorem not_expected_of_head {c : Nat} (rest : Str) (isDigit : 48 ≤ c ∧ c ≤ 57) :
    c :: rest ∉ localNames ∧ hasprefix (c :: rest) (str "localhost.") = false ∧
      expectedPrefix (c :: rest) = false := by
  have heads : ∀ name ∈ localNames, ∀ d ∈ name.head?, 57 < d := by decide
  have apart : ∀ d, 57 < d → ∀ p, hasprefix (c :: rest) (d :: p) = false := by
    intro d larger _
    have different : (d == c) = false := by
      rw [beq_eq_false_iff_ne]
      omega
    simp [ hasprefix, List.isPrefixOf, different]
  refine ⟨fun member => ?_, apart 108 (by decide) _, ?_⟩
  · have larger := heads _ member c rfl
    omega
  have colons := apart 58 (by decide) [58]
  have unique := apart 102 (by decide)
  unfold expectedPrefix
  rw [show str "::" = [58, 58] from rfl, show str "fc" = [102, 99] from rfl,
    show str "fd" = [102, 100] from rfl, show str "fe80" = [102, 101, 56, 48] from rfl,
    colons, unique, unique, unique]
  rfl

theorem colon_mem_of_expectedLoopback (expected : expectedLoopback text) : colon ∈ text := by
  rcases expected with rfl | rfl <;> decide

/-! ### Numbers -/

/-- No local name and no expected spelling of IPv6 starts with a digit and has no colon. -/
theorem hostblocked_of_numerals (nonempty : host ≠ [])
    (read : numerals ((bare host).splitOn dot) = some ns) :
    hostblocked host = true ↔
      ∃ v, parseipv4any (bare host) = some v ∧ publicipv4 (dotted v) ≠ 1 := by
  have ⟨noColon, _, rest, same, isDigit⟩ := shape_of_numerals read
  have ⟨noName, noPrefix, noExpected⟩ := not_expected_of_head rest isDigit
  rw [hostblocked_iff nonempty]
  rw [same] at noColon ⊢
  simp only [noName, noPrefix, noExpected, Bool.false_eq_true, false_or]
  constructor
  · rintro (expected | found)
    · exact absurd (colon_mem_of_expectedLoopback expected) noColon
    · exact found
  · exact Or.inr

theorem host_ne_nil (nonempty : bare host ≠ []) : host ≠ [] := by
  rintro rfl
  exact nonempty rfl

theorem hostblocked_of_inetAton (read : inetAton (bare host) = some a) (isReserved : Reserved4 a) :
    hostblocked host = true ↔ ShortParts (bare host) a := by
  have ⟨_, numeralsRead, isAddress⟩ := bind_eq_some_iff.1 read
  have ⟨_, _, _, same, _⟩ := shape_of_numerals numeralsRead
  have nonempty : host ≠ [] := host_ne_nil (by rw [same]; simp)
  have word := (address_bounds isAddress).2.1
  rw [hostblocked_of_numerals nonempty numeralsRead, parseipv4any_of_inetAton read]
  by_cases short : ShortParts (bare host) a
  · rw [if_pos short]
    refine iff_of_true ⟨a, rfl, ?_⟩ short
    rw [publicipv4_dotted word, if_pos isReserved]
    decide
  · simp [short]

theorem parseipv4any_of_not_numeric (notNumeric : ¬Numeric text) : parseipv4any text = none := by
  by_contra parsed
  exact notNumeric (numeric_of_parseipv4any parsed)

/-! ### IPv6 -/

/-- A reserved IPv6 address is refused exactly in the spellings that are expected. -/
theorem hostblocked_of_ipv6 {all : List Nat} (read : ipv6 (bare host) = some all) :
    hostblocked host = true ↔
      expectedPrefix (bare host) = true ∨ expectedLoopback (bare host) := by
  have hasColon := colon_mem_of_ipv6 read
  have nonempty : host ≠ [] := host_ne_nil (ne_nil_of_mem hasColon)
  have notNumeric : ¬Numeric (bare host) := by
    rintro ⟨_, isNumeric⟩
    have ⟨_, numeralsRead⟩ := ne_none_iff_exists'.1 isNumeric
    exact (shape_of_numerals numeralsRead).1 hasColon
  have noName : bare host ∉ localNames := by
    have clean : ∀ name ∈ localNames, colon ∉ name := by decide
    exact fun isName => clean _ isName hasColon
  have noPrefix : hasprefix (bare host) (str "localhost.") = false := by
    rw [Bool.eq_false_iff]
    intro isPrefix
    have ⟨_, same⟩ := isPrefixOf_iff_prefix.1 isPrefix
    have inText : 108 ∈ (bare host).takeWhile (· != 37) := by
      rw [← same]
      simp [str]
    rcases addressChar_of_ipv6 read inText with digit | isColon | isDot
    · exact digit (by decide)
    · exact absurd isColon (by decide)
    · exact absurd isDot (by decide)
  rw [hostblocked_iff nonempty, parseipv4any_of_not_numeric notNumeric]
  simp [noName, noPrefix]

/-! ### Names -/

theorem hostblocked_tolower (host : Str) : hostblocked (tolower host) = hostblocked host := by
  unfold hostblocked
  simp only [tolower_eq_nil, tolower_tolower]

/-- A text that starts with a letter has no brackets to remove. -/
theorem bare_of_head (noBracket : (tolower host).head? ≠ some 91) : bare host = tolower host := by
  unfold bare unbracket
  rw [if_neg (fun both => noBracket both.2.1)]

theorem hostblocked_of_localName (isLocal : LocalName host) :
    hostblocked host = true ↔ ¬DottedName host := by
  have dotted : ∀ name ∈ localNames.tail.map (· ++ [46]), hostblocked name = false := by
    decide +kernel
  constructor
  · intro blocked isDotted
    rw [← hostblocked_tolower, dotted _ isDotted] at blocked
    cases blocked
  intro notDotted
  rw [← hostblocked_tolower]
  rcases isLocal with listed | withDot | goesOn
  · have names : ∀ name ∈ localNames, hostblocked name = true := by decide +kernel
    exact names _ listed
  · have split : tolower host = str "localhost" ++ [46] ∨ DottedName host := by
      unfold DottedName
      simpa [localNames] using withDot
    rcases split with isLocalhost | isDotted
    · rw [isLocalhost]
      decide +kernel
    · exact absurd isDotted notDotted
  have ⟨_, same⟩ := isPrefixOf_iff_prefix.1 goesOn
  have lowered : bare (tolower host) = tolower host := by
    rw [bare_of_head, tolower_tolower]
    rw [tolower_tolower, ← same]
    simp [str]
  rw [hostblocked_iff]
  · rw [lowered]
    exact Or.inr (Or.inl goesOn)
  · rw [← same]
    simp [str]

/-- A name of letters and digits is refused exactly when it is a local name or
begins as an IPv6 address might. -/
theorem hostblocked_of_dnsName (isName : DnsName host) (notNumeric : ¬Numeric (bare host))
    (notLocal : ¬LocalName host) : hostblocked host = true ↔ expectedPrefix (bare host) = true := by
  have chars : ∀ c ∈ tolower host, c ≠ 91 ∧ c ≠ colon := by
    intro _ member
    obtain ⟨original, inHost, rfl⟩ := mem_map.1 member
    have kind := isName.2 original inHost
    unfold colon
    split_ifs <;> omega
  have lowered : bare host = tolower host := by
    refine bare_of_head fun starts => ?_
    exact (chars 91 (mem_of_mem_head? starts)).1 rfl
  have noLoopback : ¬expectedLoopback (bare host) := by
    intro expected
    have member := colon_mem_of_expectedLoopback expected
    rw [lowered] at member
    exact (chars _ member).2 rfl
  rw [hostblocked_iff isName.1, parseipv4any_of_not_numeric notNumeric]
  have noName : bare host ∉ localNames := by
    rw [lowered]
    exact fun listed => notLocal (Or.inl listed)
  have noPrefix : hasprefix (bare host) (str "localhost.") = false := by
    rw [lowered, Bool.eq_false_iff]
    exact fun goesOn => notLocal (Or.inr (Or.inr goesOn))
  simp [noName, noPrefix, noLoopback]

/-! ### The exact condition -/

/-- The filter keeps its promise for exactly the hosts that are none of the wide
numbers, odd IPv6 spellings, dotted names and hexadecimal names. -/
theorem filters_iff (host : Str) :
    Filters host ↔
      ¬WideNumber host ∧ ¬OddIpv6 host ∧ ¬DottedName host ∧ ¬HexName host := by
  constructor
  · rintro ⟨refuses, admits⟩
    refine ⟨?_, ?_, ?_, ?_⟩
    · rintro ⟨a, read, isReserved, long⟩
      have blocked := refuses (Or.inl (Or.inl ⟨a, read, isReserved⟩))
      exact long ((hostblocked_of_inetAton read isReserved).1 blocked)
    · rintro ⟨⟨all, read, isReserved⟩, noPrefix, noLoopback⟩
      have blocked := refuses (Or.inl (Or.inr ⟨all, read, isReserved⟩))
      rcases (hostblocked_of_ipv6 read).1 blocked with expected | expected
      · rw [noPrefix] at expected
        cases expected
      · exact noLoopback expected
    · intro isDotted
      have isLocal : LocalName host := by
        refine Or.inr (Or.inl ?_)
        unfold DottedName at isDotted
        exact List.mem_cons_of_mem _ isDotted
      exact (hostblocked_of_localName isLocal).1 (refuses (Or.inr isLocal)) isDotted
    · rintro ⟨isName, notNumeric, notLocal, expected⟩
      have passed := admits ⟨isName, notNumeric, notLocal⟩
      rw [(hostblocked_of_dnsName isName notNumeric notLocal).2 expected] at passed
      cases passed
  · rintro ⟨notWide, notOdd, notDotted, notHex⟩
    constructor
    · rintro ((⟨a, read, isReserved⟩ | ⟨all, read, isReserved⟩) | isLocal)
      · refine (hostblocked_of_inetAton read isReserved).2 ?_
        by_contra long
        exact notWide ⟨a, read, isReserved, long⟩
      · refine (hostblocked_of_ipv6 read).2 ?_
        by_contra unexpected
        simp only [not_or, Bool.not_eq_true] at unexpected
        exact notOdd ⟨⟨all, read, isReserved⟩, unexpected⟩
      · exact (hostblocked_of_localName isLocal).2 notDotted
    · rintro ⟨isName, notNumeric, notLocal⟩
      rw [Bool.eq_false_iff]
      intro blocked
      exact notHex ⟨isName, notNumeric, notLocal,
        (hostblocked_of_dnsName isName notNumeric notLocal).1 blocked⟩

/-- `3232235521` is `192.168.0.1`, and passes. -/
theorem filters_not_packed : ¬Filters (str "3232235521") := by
  intro filters
  have blocked := filters.1 (Or.inl (Or.inl ⟨3232235521, by decide +kernel, by decide +kernel⟩))
  revert blocked
  decide +kernel

end Infernode.Publicnet
