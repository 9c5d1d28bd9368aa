import Infernode.Net.Parseip
import Infernode.Net.Hostblocked

/-!
How the network device reads what the public-network filter reads as a dotted
address.

Owns: the fields that both read as the same number, and the agreement of
`parseip` with `publicipv4` on a string: exactly when all its fields are such.
-/

namespace Infernode.Publicnet

open Text Inet Ipaux Lib9 List

/-! ### Decimal and octal values -/

def readDigits (base value : Nat) (digits : Str) : Nat :=
  digits.foldl (fun value c => value * base + (c - 48)) value

theorem readDigits_cons (base value c : Nat) (rest : Str) :
    readDigits base value (c :: rest) = readDigits base (value * base + (c - 48)) rest := by
  rw [readDigits, foldl_cons, readDigits]

theorem readDigits_append (base value : Nat) (left right : Str) :
    readDigits base value (left ++ right) = readDigits base (readDigits base value left) right :=
  foldl_append

variable {field rest s : Str} {base : Nat} {values : List Nat}

theorem digits_of_octet : ∀ {value n : Nat}, octet value field = some n →
    (∀ c ∈ field, isDigit c = true) ∧ n = readDigits 10 value field ∧ (value ≤ 255 → n ≤ 255) := by
  induction field with
  | nil =>
    intro value n read
    simp only [octet, Option.some.injEq] at read
    exact ⟨by simp, read.symm, fun small => read ▸ small⟩
  | cons _ _ ih =>
    intro _ _ read
    simp only [octet] at read
    split_ifs at read with notDigit wide
    have ⟨digits, same, small⟩ := ih read
    refine ⟨?_, same, fun _ => small (by omega)⟩
    intro d member
    rcases mem_cons.1 member with rfl | later
    · simp only [isDigit, Bool.and_eq_true, decide_eq_true_eq]
      omega
    · exact digits d later

variable {c : Nat} {digits : Str} {more : List Str}

theorem digitValue_of_isDigit (digit : isDigit c = true) : digitValue c = some (c - 48) := by
  unfold digitValue
  rw [if_pos (isDigit_bounds digit)]

theorem digitOf_of_isDigit (digit : isDigit c = true) :
    digitOf base c = decide (c - 48 < base) := by
  rw [digitOf, digitValue_of_isDigit digit]

theorem valueOf_eq_readDigits (all : ∀ c ∈ digits, isDigit c = true) :
    valueOf base digits = readDigits base 0 digits := by
  refine foldl_ext _ _ 0 fun value c member => ?_
  rw [digitValue_of_isDigit (all c member), Option.getD_some]

/-- Reading in a smaller base never gives more. -/
theorem readDigits_le (digits : Str) : ∀ {low high : Nat}, low ≤ high →
    readDigits 8 low digits ≤ readDigits 10 high digits := by
  induction digits with
  | nil => exact fun le => le
  | cons _ _ ih =>
    intro _ _ _
    rw [readDigits_cons, readDigits_cons]
    exact ih (by omega)

theorem readDigits_lt (digits : Str) : ∀ {low high : Nat}, low < high →
    readDigits 8 low digits < readDigits 10 high digits := by
  induction digits with
  | nil => exact fun lt => lt
  | cons _ _ ih =>
    intro _ _ _
    rw [readDigits_cons, readDigits_cons]
    exact ih (by omega)

theorem le_readDigits (positive : 0 < base) (digits : Str) : ∀ value : Nat,
    value ≤ readDigits base value digits := by
  induction digits with
  | nil => exact fun value => le_refl value
  | cons c _ ih =>
    intro value
    have grows : value ≤ value * base := Nat.le_mul_of_pos_right value positive
    have later := ih (value * base + (c - 48))
    rw [readDigits_cons]
    omega

theorem readDigits_zeros (zeros : ∀ c ∈ digits, c = 48) : readDigits base 0 digits = 0 := by
  induction digits with
  | nil => rfl
  | cons c _ ih =>
    rw [readDigits_cons, zeros c (by simp)]
    simpa using ih (forall_mem_cons.1 zeros).2

/-! ### Fields -/

/-- A field that reads the same in decimal and by its prefix: one without a leading
zero, or zeros and at most one octal digit. -/
def SameRadix (field : Str) : Prop :=
  field.head? = some 48 →
    (∀ c ∈ field, c < 56) ∧ (field.dropWhile (· == 48)).length ≤ 1

instance (field : Str) : Decidable (SameRadix field) := by
  unfold SameRadix
  infer_instance

/-- A dotted text without a field that the two would read differently. -/
def PlainDotted (s : Str) : Prop := ∀ field ∈ s.splitOn dot, SameRadix field

instance (s : Str) : Decidable (PlainDotted s) := by
  unfold PlainDotted
  infer_instance

private theorem leadingZeros (field : Str) : ∃ zeros, (∀ c ∈ zeros, c = 48) ∧
    field = zeros ++ field.dropWhile (· == 48) := by
  refine ⟨field.takeWhile (· == 48), fun c member => ?_, takeWhile_append_dropWhile.symm⟩
  simpa using mem_takeWhile_imp member

theorem readDigits_of_sameRadix (octal : field.head? = some 48) (same : SameRadix field) :
    readDigits 8 0 field = readDigits 10 0 field := by
  have ⟨_, areZeros, shape⟩ := leadingZeros field
  have short := (same octal).2
  rw [shape, readDigits_append, readDigits_append, readDigits_zeros areZeros,
    readDigits_zeros areZeros]
  cases significant : field.dropWhile (· == 48) with
  | nil => rfl
  | cons _ rest =>
    rw [significant, length_cons] at short
    rw [eq_nil_of_length_eq_zero (by omega : rest.length = 0)]
    simp [readDigits]

/-- Otherwise the octal digits of the field read as less than the field in decimal. -/
theorem readDigits_of_not_sameRadix (digits : ∀ c ∈ field, isDigit c = true)
    (differ : ¬SameRadix field) :
    readDigits 8 0 (field.takeWhile (digitOf 8)) < readDigits 10 0 field := by
  have parts : readDigits 10 0 field = readDigits 10 (readDigits 10 0 (field.takeWhile (digitOf 8)))
      (field.dropWhile (digitOf 8)) := by
    rw [← readDigits_append, takeWhile_append_dropWhile]
  cases after : field.dropWhile (digitOf 8) with
  | cons c rest =>
    have member : c ∈ field := (dropWhile_sublist _).subset (after ▸ mem_cons_self ..)
    have stop : digitOf 8 c = false := by
      have first := head?_dropWhile_not (digitOf 8) field
      rw [after] at first
      simpa using first
    rw [digitOf_of_isDigit (digits c member), decide_eq_false_iff_not] at stop
    rw [parts, after, readDigits_cons]
    have less := readDigits_le (field.takeWhile (digitOf 8)) (le_refl 0)
    have more := le_readDigits (by decide : 0 < 10) rest
      (readDigits 10 0 (field.takeWhile (digitOf 8)) * 10 + (c - 48))
    omega
  | nil =>
    have whole : field.takeWhile (digitOf 8) = field := by
      have joined := takeWhile_append_dropWhile (p := digitOf 8) (l := field)
      rw [after, append_nil] at joined
      exact joined
    have octalDigits : ∀ c ∈ field, c < 56 := by
      intro c member
      have kept := takeWhile_eq_self_iff.1 whole c member
      rw [digitOf_of_isDigit (digits c member), decide_eq_true_eq] at kept
      have bounds := isDigit_bounds (digits c member)
      omega
    have long : ¬(field.dropWhile (· == 48)).length ≤ 1 := fun short =>
      differ fun _ => ⟨octalDigits, short⟩
    have ⟨_, areZeros, shape⟩ := leadingZeros field
    rw [whole]
    cases significant : field.dropWhile (· == 48) with
    | nil =>
      rw [significant] at long
      exact absurd (Nat.zero_le 1) long
    | cons d more =>
      cases more with
      | nil =>
        rw [significant] at long
        exact absurd (le_refl 1) long
      | cons _ rest =>
        have nonzero : d ≠ 48 := by
          have first := head?_dropWhile_not (· == 48) field
          rw [significant] at first
          simpa using first
        have member : d ∈ field :=
          (dropWhile_sublist _).subset (significant ▸ mem_cons_self ..)
        have bounds := isDigit_bounds (digits d member)
        rw [shape, significant, readDigits_append, readDigits_append,
          readDigits_zeros areZeros, readDigits_zeros areZeros, readDigits_cons,
          readDigits_cons, readDigits_cons, readDigits_cons]
        exact readDigits_lt rest (by omega)

/-! ### Numbers before a dot -/

/-- What may follow a field: nothing, or a dot. -/
def Stops (rest : Str) : Prop := ∀ c ∈ rest.head?, c = dot

theorem digitOf_dot (base : Nat) : digitOf base dot = false := rfl

theorem takeWhile_stops (base : Nat) (stops : Stops rest) (field : Str) :
    (field ++ rest).takeWhile (digitOf base) = field.takeWhile (digitOf base) ∧
      (field ++ rest).dropWhile (digitOf base) = field.dropWhile (digitOf base) ++ rest := by
  induction field with
  | nil =>
    cases rest with
    | nil => exact ⟨rfl, rfl⟩
    | cons c _ =>
      rw [stops c rfl]
      exact ⟨rfl, rfl⟩
  | cons _ _ ih =>
    rw [cons_append, takeWhile_cons, takeWhile_cons, dropWhile_cons,
      dropWhile_cons]
    split_ifs
    · rw [ih.1]
      exact ⟨rfl, ih.2⟩
    · exact ⟨rfl, rfl⟩

theorem strtoulBase_digit {c base : Nat} {t : Str} (plain : ∀ x ∈ t.head?, x ≠ 120 ∧ x ≠ 88) :
    strtoulBase base (c :: t) =
      (if base = 0 then if c = 48 then 8 else 10 else base, c :: t) := by
  by_cases zero : c = 48
  · subst zero
    rw [if_pos rfl]
    cases t with
    | nil => rfl
    | cons x more =>
      have noPrefix := plain x rfl
      cases more with
      | nil => rfl
      | cons d later =>
        rw [strtoulBase, if_neg (by tauto)]
  · rw [if_neg zero]
    unfold strtoulBase
    split
    · rename_i same
      exact absurd (List.cons.inj same).1 zero
    · rename_i same
      exact absurd (List.cons.inj same).1 zero
    · rfl

/-- The radix that `strtoul` takes for a field. -/
def fieldBase (base : Nat) (field : Str) : Nat :=
  if base = 0 then if field.head? = some 48 then 8 else 10 else base

theorem strtoul_field (base : Nat) (nonempty : field ≠ []) (digits : ∀ c ∈ field, isDigit c = true)
    (stops : Stops rest) (wide : base = 0 ∨ 10 ≤ base) :
    strtoul (field ++ rest) base =
      (min ULONG_MAX (readDigits (fieldBase base field) 0
          (field.takeWhile (digitOf (fieldBase base field)))),
        field.dropWhile (digitOf (fieldBase base field)) ++ rest) := by
  obtain ⟨c, t, rfl⟩ := exists_cons_of_ne_nil nonempty
  have firstDigit := digits c (by simp)
  have bounds := isDigit_bounds firstDigit
  have plain : ∀ x ∈ (t ++ rest).head?, x ≠ 120 ∧ x ≠ 88 := by
    intro x isHead
    cases t with
    | nil =>
      rw [stops x isHead]
      decide
    | cons _ _ =>
      cases isHead
      have next := isDigit_bounds (digits x (by simp))
      omega
  have radix : (if base = 0 then if c = 48 then 8 else 10 else base) = fieldBase base (c :: t) := by
    simp [fieldBase]
  have starts : digitOf (fieldBase base (c :: t)) c = true := by
    rw [digitOf_of_isDigit firstDigit, decide_eq_true_eq, ← radix]
    split_ifs <;> omega
  have some_ : (c :: t).takeWhile (digitOf (fieldBase base (c :: t))) ≠ [] := by
    rw [takeWhile_cons_of_pos starts]
    exact cons_ne_nil _ _
  have ⟨taken, dropped⟩ := takeWhile_stops (fieldBase base (c :: t)) stops (c :: t)
  have noSpace : (c :: t ++ rest).dropWhile isSpace = c :: (t ++ rest) := by
    rw [cons_append,
      dropWhile_cons_of_neg (by rw [not_isSpace_of_isDigit firstDigit]; decide)]
  have digitsKept : ∀ d ∈ (c :: t).takeWhile (digitOf (fieldBase base (c :: t))),
      isDigit d = true := fun d member => digits d ((takeWhile_sublist _).subset member)
  simp only [strtoul, noSpace, takeSign_digit firstDigit, strtoulBase_digit plain, radix]
  rw [← cons_append, taken, dropped, if_neg some_, valueOf_eq_readDigits digitsKept]
  simp only [Bool.false_eq_true, if_false]
  congr 1
  rw [min_def]
  split_ifs <;> omega

/-- The device reads a field of the filter as the filter does, exactly when the radix
does not matter. -/
theorem strtoul_octet {v : Nat} (nonempty : field ≠ []) (read : octet 0 field = some v)
    (stops : Stops rest) :
    (SameRadix field → strtoul (field ++ rest) 0 = (v, rest)) ∧
      (¬SameRadix field → (strtoul (field ++ rest) 0).1 % 256 ≠ v) := by
  have ⟨digits, value, small⟩ := digits_of_octet read
  have bound := small (by decide)
  have number := strtoul_field 0 nonempty digits stops (Or.inl rfl)
  have roomy : 255 < ULONG_MAX := by decide
  by_cases octal : field.head? = some 48
  · have base : fieldBase 0 field = 8 := by
      rw [fieldBase, if_pos rfl, if_pos octal]
    rw [base] at number
    constructor
    · intro same
      have all : ∀ c ∈ field, digitOf 8 c = true := by
        intro c member
        have upper := (same octal).1 c member
        rw [digitOf_of_isDigit (digits c member), decide_eq_true_eq]
        omega
      rw [number, takeWhile_eq_self_iff.2 all, dropWhile_eq_nil_iff.2 all,
        readDigits_of_sameRadix octal same, ← value, min_eq_right (by omega), nil_append]
    · intro differ
      have less := readDigits_of_not_sameRadix digits differ
      rw [number]
      simp only
      omega
  · have base : fieldBase 0 field = 10 := by
      rw [fieldBase, if_pos rfl, if_neg octal]
    have all : ∀ c ∈ field, digitOf 10 c = true := by
      intro c member
      have bounds := isDigit_bounds (digits c member)
      rw [digitOf_of_isDigit (digits c member), decide_eq_true_eq]
      omega
    rw [base] at number
    constructor
    · intro _
      rw [number, takeWhile_eq_self_iff.2 all, dropWhile_eq_nil_iff.2 all, ← value,
        min_eq_right (by omega), nil_append]
    · exact fun differ => absurd (fun isOctal => absurd isOctal octal) differ

/-! ### The bytes of a dotted text -/

def afterDots (more : List Str) : Str := more.flatMap (dot :: ·)

theorem intercalate_afterDots (more : List Str) : ∀ field : Str,
    [dot].intercalate (field :: more) = field ++ afterDots more := by
  induction more with
  | nil =>
    intro field
    simp [List.intercalate, afterDots]
  | cons next rest ih =>
    intro field
    have shape : [dot].intercalate (field :: next :: rest) =
        field ++ dot :: [dot].intercalate (next :: rest) := by
      simp [List.intercalate]
    rw [shape, ih next]
    rfl

theorem stops_afterDots (more : List Str) : Stops (afterDots more) := by
  intro _ isHead
  cases more with
  | nil => cases isHead
  | cons _ _ =>
    cases isHead
    rfl

/-- The text after a number, without its dot. -/
def skipDot (p : Str) : Str := if p.head? = some dot then p.tail else p

theorem v4bytes_succ {n : Nat} {p : Str} (nonempty : p ≠ []) :
    (v4bytes (n + 1) p).1 =
      (strtoul p 0).1 % 256 :: (v4bytes n (skipDot (strtoul p 0).2)).1 := by
  cases p with
  | nil => exact absurd rfl nonempty
  | cons _ _ => rfl

theorem octets_cons (read : octets (field :: more) = some values) :
    field ≠ [] ∧ ∃ v vs, values = v :: vs ∧ octet 0 field = some v ∧ octets more = some vs := by
  simp only [octets] at read
  split_ifs at read with empty
  split at read
  · rename_i v vs fieldRead moreRead
    exact ⟨empty, v, vs, (Option.some.inj read).symm, fieldRead, moreRead⟩
  · cases read

theorem v4bytes_octets (more : List Str) : ∀ {field : Str} {values : List Nat},
    octets (field :: more) = some values →
      ((v4bytes (more.length + 1) (field ++ afterDots more)).1 = values ↔
        ∀ g ∈ field :: more, SameRadix g) := by
  induction more with
  | nil =>
    intro field values read
    obtain ⟨nonempty, v, vs, rfl, fieldRead, moreRead⟩ := octets_cons read
    cases moreRead
    have ⟨same, differ⟩ := strtoul_octet nonempty fieldRead (stops_afterDots [])
    have small := (digits_of_octet fieldRead).2.2 (by decide)
    have some_ : field ++ afterDots [] ≠ [] := by simp [nonempty]
    rw [length_nil, v4bytes_succ some_]
    by_cases radix : SameRadix field
    · rw [same radix]
      simp [v4bytes, radix, Nat.mod_eq_of_lt (by omega : v < 256)]
    · simp [v4bytes, radix, differ radix]
  | cons next rest ih =>
    intro field _ read
    obtain ⟨nonempty, v, _, rfl, fieldRead, moreRead⟩ := octets_cons read
    have ⟨same, differ⟩ := strtoul_octet nonempty fieldRead (stops_afterDots (next :: rest))
    have small := (digits_of_octet fieldRead).2.2 (by decide)
    have some_ : field ++ afterDots (next :: rest) ≠ [] := by simp [nonempty]
    rw [length_cons, v4bytes_succ some_]
    by_cases radix : SameRadix field
    · have skipped : skipDot (afterDots (next :: rest)) = next ++ afterDots rest := by
        simp [skipDot, afterDots]
      rw [same radix, skipped, Nat.mod_eq_of_lt (by omega : v < 256), List.cons.injEq,
        ih moreRead, forall_mem_cons]
      simp [radix]
    · simp [radix, differ radix]

/-! ### Four bytes -/

theorem takeSign_suffix (text : Str) :
    ∃ used, text = used ++ (takeSign text).2 ∧ dot ∉ used := by
  unfold takeSign
  split
  · exact ⟨[45], rfl, by decide⟩
  · exact ⟨[43], rfl, by decide⟩
  · exact ⟨[], rfl, not_mem_nil⟩

theorem strtoulBase_suffix (base : Nat) (text : Str) :
    ∃ used, text = used ++ (strtoulBase base text).2 ∧ dot ∉ used := by
  unfold strtoulBase
  split
  · rename_i x d rest
    by_cases hex : (base = 0 ∨ base = 16) ∧ (x = 120 ∨ x = 88) ∧ digitOf 16 d
    · refine ⟨[48, x], by rw [if_pos hex]; rfl, ?_⟩
      rcases hex.2.1 with rfl | rfl <;> decide
    · exact ⟨[], by rw [if_neg hex]; rfl, not_mem_nil⟩
  · exact ⟨[], rfl, not_mem_nil⟩
  · exact ⟨[], rfl, not_mem_nil⟩

theorem dropWhile_suffix {skip : Nat → Bool} (notDot : skip dot = false) (text : Str) :
    ∃ used, text = used ++ text.dropWhile skip ∧ dot ∉ used := by
  refine ⟨text.takeWhile skip, takeWhile_append_dropWhile.symm, fun member => ?_⟩
  rw [mem_takeWhile_imp member] at notDot
  cases notDot

theorem strtoul_suffix (p : Str) (base : Nat) :
    ∃ used, p = used ++ (strtoul p base).2 ∧ dot ∉ used := by
  have ⟨spaces, afterSpaces, clean⟩ := dropWhile_suffix (by rfl : isSpace dot = false) p
  have ⟨sign, afterSign, signClean⟩ := takeSign_suffix (p.dropWhile isSpace)
  have ⟨lead, afterLead, leadClean⟩ :=
    strtoulBase_suffix base (takeSign (p.dropWhile isSpace)).2
  have ⟨digits, afterDigits, digitsClean⟩ := dropWhile_suffix
    (digitOf_dot (strtoulBase base (takeSign (p.dropWhile isSpace)).2).1)
    (strtoulBase base (takeSign (p.dropWhile isSpace)).2).2
  simp only [strtoul]
  by_cases none_ : (strtoulBase base (takeSign (p.dropWhile isSpace)).2).2.takeWhile
      (digitOf (strtoulBase base (takeSign (p.dropWhile isSpace)).2).1) = []
  · rw [if_pos none_]
    exact ⟨[], rfl, not_mem_nil⟩
  rw [if_neg none_]
  refine ⟨spaces ++ (sign ++ (lead ++ digits)), ?_, by simp [clean, signClean, leadClean,
    digitsClean]⟩
  rw [append_assoc, append_assoc, append_assoc, ← afterDigits, ← afterLead,
    ← afterSign, ← afterSpaces]

/-- As many fields as bytes give as many bytes, whatever is read of them. -/
theorem v4bytes_length (n : Nat) : ∀ (field : Str) (more : List Str), field ≠ [] →
    (∀ g ∈ more, g ≠ []) → n ≤ more.length + 1 →
    (∀ g ∈ field :: more, dot ∉ g) →
    (v4bytes n (field ++ afterDots more)).1.length = n := by
  induction n with
  | zero => exact fun _ _ _ _ _ _ => rfl
  | succ n ih =>
    intro field more nonempty nonemptyMore enough clean
    have some_ : field ++ afterDots more ≠ [] := by simp [nonempty]
    have ⟨used, shape, noDot⟩ := strtoul_suffix (field ++ afterDots more) 0
    rw [v4bytes_succ some_, length_cons]
    have prefixed : ∃ left, field = used ++ left ∧
        (strtoul (field ++ afterDots more) 0).2 = left ++ afterDots more := by
      rcases append_eq_append_iff.1 shape with ⟨excess, usedIs, restIs⟩ | ⟨left, fieldIs, restIs⟩
      · cases excess with
        | nil =>
          rw [append_nil] at usedIs
          exact ⟨[], by simp [usedIs], by simpa using restIs.symm⟩
        | cons c _ =>
          have isDot := stops_afterDots more c (by rw [restIs]; rfl)
          rw [usedIs, isDot] at noDot
          simp at noDot
      · exact ⟨left, fieldIs, restIs⟩
    have ⟨left, fieldIs, remains⟩ := prefixed
    rw [remains]
    cases left with
    | cons c left =>
      have notDot : c ≠ dot := by
        rintro rfl
        exact clean field (by simp) (by rw [fieldIs]; simp)
      have kept : skipDot (c :: left ++ afterDots more) = c :: left ++ afterDots more := by
        simp [skipDot, notDot]
      rw [kept, ih (c :: left) more (cons_ne_nil _ _) nonemptyMore
        (by omega)]
      intro g member
      rcases mem_cons.1 member with rfl | later
      · intro inside
        exact clean field (by simp) (by rw [fieldIs]; exact mem_append_right _ inside)
      · exact clean g (mem_cons_of_mem _ later)
    | nil =>
      cases more with
      | nil =>
        have none_ : n = 0 := by simpa using enough
        rw [none_]
        rfl
      | cons next rest =>
        have skipped : skipDot ([] ++ afterDots (next :: rest)) = next ++ afterDots rest := by
          simp [skipDot, afterDots]
        rw [skipped, ih next rest (nonemptyMore next (by simp))
          (forall_mem_cons.1 nonemptyMore).2
          (by simpa using enough)
          (forall_mem_cons.1 clean).2]

/-! ### Agreement -/

/-- What the device reads of a string: its bytes up to a NUL. -/
def kernelip (s : Str) : List Nat := (parseip (cstr (cvtca s))).1

/-- The device reads the address that the filter read. -/
def Denotes (s : Str) : Prop :=
  ∃ values, octets (s.splitOn dot) = some values ∧ kernelip s = v4tov6 values

theorem isDigit_of_octets : ∀ {fields : List Str} {values : List Nat},
    octets fields = some values →
      values.length = fields.length ∧ ∀ g ∈ fields, g ≠ [] ∧ ∀ c ∈ g, isDigit c = true
  | [], values, read => by
    cases read
    simp
  | field :: more, values, read => by
    obtain ⟨nonempty, _, _, rfl, fieldRead, moreRead⟩ := octets_cons read
    have ⟨sized, others⟩ := isDigit_of_octets moreRead
    refine ⟨by rw [length_cons, sized, length_cons], ?_⟩
    exact forall_mem_cons.2 ⟨⟨nonempty, (digits_of_octet fieldRead).1⟩, others⟩

theorem cstr_cvtca_ascii (ascii : ∀ c ∈ s, 0 < c ∧ c < 128) : cstr (cvtca s) = s := by
  have bytes : cvtca s = s := by
    induction s with
    | nil => rfl
    | cons c rest ih =>
      have small := ascii c (by simp)
      have later := ih (forall_mem_cons.1 ascii).2
      have shape : cvtca (c :: rest) = runetochar c ++ cvtca rest := by simp [cvtca]
      rw [shape, later, runetochar, if_pos (by omega)]
      rfl
  rw [bytes, cstr_of_no_nul]
  intro member
  exact absurd (ascii 0 member).1 (by decide)

theorem exists_four (accepted : publicipv4 s ≠ -1) :
    ∃ field second third fourth x0 x1 x2 x3,
      s.splitOn dot = [field, second, third, fourth] ∧
        octets (s.splitOn dot) = some [x0, x1, x2, x3] := by
  unfold publicipv4 at accepted
  split at accepted
  · rename_i x0 x1 x2 x3 read
    have sized := (isDigit_of_octets read).1
    match fields : s.splitOn dot with
    | [field, second, third, fourth] =>
      exact ⟨field, second, third, fourth, x0, x1, x2, x3, rfl, fields ▸ read⟩
    | [] | [_] | [_, _] | [_, _, _] | _ :: _ :: _ :: _ :: _ :: _ =>
      rw [show (46 : Nat) = dot from rfl, fields] at sized
      simp at sized
  · exact absurd rfl accepted

theorem ascii_of_octets (read : octets (s.splitOn dot) = some values) :
    ∀ c ∈ s, 0 < c ∧ c < 128 := by
  intro c member
  rcases mem_splitOn dot member with isDot | ⟨field, inFields, inField⟩
  · rw [isDot]
    decide
  · have bounds := isDigit_bounds (((isDigit_of_octets read).2 field inFields).2 c inField)
    omega

/-- Four fields are read by `v4parseip` at the start, and fill the address. -/
theorem parseip_octets (fields : s.splitOn dot = field :: more)
    (read : octets (s.splitOn dot) = some values) (four : more.length = 3) :
    parseip s = (v4tov6 (v4bytes 4 (field ++ afterDots more)).1,
      nhgetl (v4bytes 4 (field ++ afterDots more)).1) := by
  have text : s = field ++ afterDots more := by
    rw [← intercalate_afterDots, ← fields, intercalate_splitOn]
  have each := (isDigit_of_octets read).2
  rw [fields] at each
  have clean : ∀ g ∈ field :: more, dot ∉ g := fun g member inside =>
    absurd ((each g member).2 dot inside) (by decide)
  have nonempty := (each field (by simp)).1
  have counted := v4bytes_length 4 field more nonempty
    (fun g member => (each g (mem_cons_of_mem _ member)).1) (by omega) clean
  have number := strtoul_field 16 nonempty (each field (by simp)).2
    (stops_afterDots more) (Or.inr (by decide))
  have allHex : ∀ c ∈ field, digitOf (fieldBase 16 field) c = true := by
    intro c member
    have digit := (each field (by simp)).2 c member
    have bounds := isDigit_bounds digit
    rw [digitOf_of_isDigit digit, decide_eq_true_eq, fieldBase, if_neg (by decide)]
    omega
  have rest : (strtoul (field ++ afterDots more) 16).2 = afterDots more := by
    rw [number, dropWhile_eq_nil_iff.2 allHex, nil_append]
  have dotted_ : (afterDots more).head? = some dot := by
    cases more with
    | nil => cases four
    | cons _ _ => rfl
  rw [text]
  generalize bytesRead : v4bytes 4 (field ++ afterDots more) = bytes at counted ⊢
  have ⟨bytes, _⟩ := bytes
  simp only at counted ⊢
  obtain ⟨a, b, c, d, rfl⟩ : ∃ a b c d, bytes = [a, b, c, d] := by
    match bytes, counted with
    | [a, b, c, d], _ => exact ⟨a, b, c, d, rfl⟩
  have filled : (v4parseip (field ++ afterDots more)).1 = [a, b, c, d] := by
    simp [v4parseip, bytesRead]
  have ⟨_, _, shape⟩ := exists_cons_of_ne_nil
    (append_ne_nil_of_left_ne_nil nonempty (afterDots more))
  have groups : parsegroups 8 ⟨[], 0, true⟩ (field ++ afterDots more) = ⟨[a, b, c, d], 0, true⟩ := by
    rw [shape] at rest filled ⊢
    rw [parsegroups]
    simp only [rest, dotted_, true_or, if_true, filled, nil_append]
  rw [parseip, groups]
  rfl

theorem denotes_iff (accepted : publicipv4 s ≠ -1) : Denotes s ↔ PlainDotted s := by
  have ⟨field, second, third, fourth, _, _, _, _, fields, read⟩ := exists_four accepted
  have bytes : kernelip s = v4tov6 (v4bytes 4 (field ++ afterDots [second, third, fourth])).1 := by
    rw [kernelip, cstr_cvtca_ascii (ascii_of_octets read), parseip_octets fields read rfl]
  have agree := v4bytes_octets [second, third, fourth] (fields ▸ read)
  unfold Denotes PlainDotted
  rw [fields, ← agree]
  constructor
  · rintro ⟨values, sameRead, denotes⟩
    rw [← fields, read, Option.some.injEq] at sameRead
    rw [bytes, ← sameRead, v4tov6, v4tov6, append_cancel_left_eq] at denotes
    exact denotes
  · intro same
    exact ⟨_, fields ▸ read, by rw [bytes]; exact congrArg v4tov6 same⟩

end Infernode.Publicnet
