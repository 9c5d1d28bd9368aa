import Infernode.Lib9.Rune

/-!
The decoder of `lib9/rune.c`, and the two passes that `c2string` makes with it.

Owns: `chartorune` and `fullrune` over a memory that ends, `runenlen`, the pass that counts the
runes and the pass that decodes them, and that both go the same way and not past the end.
-/

namespace Infernode.Lib9

open Text List Option

/-! ### The decoder -/

def Bitx : Nat := 6
def Tx : Nat := 0x80
def T2 : Nat := 0xC0
def T3 : Nat := 0xE0
def T4 : Nat := 0xF0
def Rune1 : Nat := 0x7F
def Rune2 : Nat := 0x7FF
def Rune3 : Nat := 0xFFFF
def Maskx : Nat := 0x3F
def Testx : Nat := 0xC0
def UTFmax : Nat := 3
def Runeself : Nat := 0x80

/-- The rune at a place and the number of its bytes. A byte that cannot be read is a fault. -/
def chartorune (read : Nat → Option Nat) (str : Nat) : Option (Nat × Nat) := do
  let c ← read str
  if c < Tx then some (c, 1)
  else do
    let c1 := (← read (str + 1)) ^^^ Tx
    if c1 &&& Testx ≠ 0 then some (runeerror, 1)
    else if c < T3 then
      if c < T2 then some (runeerror, 1)
      else
        let l := (c <<< Bitx ||| c1) &&& Rune2
        if l ≤ Rune1 then some (runeerror, 1) else some (l, 2)
    else do
      let c2 := (← read (str + 2)) ^^^ Tx
      if c2 &&& Testx ≠ 0 then some (runeerror, 1)
      else if c < T4 then
        let l := ((c <<< Bitx ||| c1) <<< Bitx ||| c2) &&& Rune3
        if l ≤ Rune2 then some (runeerror, 1) else some (l, 3)
      else some (runeerror, 1)

def fullrune (read : Nat → Option Nat) (str n : Nat) : Option Bool :=
  if 0 < n then do
    let c ← read str
    some (decide (c < Tx) || decide (1 < n) && (decide (c < T3) || decide (2 < n)))
  else some false

def runenlen : Str → Nat
  | [] => 0
  | c :: rest => (if c ≤ Rune1 then 1 else if c ≤ Rune2 then 2 else 3) + runenlen rest

/-! ### Two passes -/

/-- The first byte, of so many from a place on, that is no ASCII character. -/
def firsthigh (read : Nat → Option Nat) : (len p : Nat) → Option (Option Nat)
  | 0, _ => some none
  | len + 1, p => do
      let c ← read p
      if Runeself ≤ c then some (some p) else firsthigh read len (p + 1)

/-- `p+UTFmax<=ecs || fullrune(p, ecs-p)`. -/
def isfull (read : Nat → Option Nat) (ecs p : Nat) : Option Bool :=
  if p + UTFmax ≤ ecs then some true else fullrune read p (ecs - p)

/-- The runes up to `ecs`, counted on from `nc`, and where the count ends: a rune that is cut off
is not counted. -/
def countrunes (read : Nat → Option Nat) (ecs : Nat) : (fuel p nc : Nat) → Option (Nat × Nat)
  | 0, _, _ => none
  | fuel + 1, p, nc =>
    if ecs ≤ p then some (nc, p)
    else do
      let c ← read p
      if c < Runeself then countrunes read ecs fuel (p + 1) (nc + 1)
      else do
        let whole ← isfull read ecs p
        if whole then do
          let (_, n) ← chartorune read p
          countrunes read ecs fuel (p + n) (nc + 1)
        else some (nc, p)

def decoderunes (read : Nat → Option Nat) : (nc cs : Nat) → Option (Str × Nat)
  | 0, cs => some ([], cs)
  | nc + 1, cs => do
      let (r, n) ← chartorune read cs
      let (rest, stop) ← decoderunes read nc (cs + n)
      some (r :: rest, stop)

/-! ### Bits -/

theorem testx_clear : ∀ b < 256, (b ^^^ Tx) &&& Testx = 0 ↔ isTx b = true := by
  decide +kernel

theorem xor_tx : ∀ b < 256, isTx b = true → b ^^^ Tx = b % 64 := by
  decide +kernel

theorem or_shifted {a b : Nat} (small : b < 64) : a <<< Bitx ||| b = a * 64 + b := by
  rw [show (64 : Nat) = 2 ^ 6 from rfl] at small
  rw [Bitx, ← Nat.shiftLeft_add_eq_or_of_lt small, Nat.shiftLeft_eq]

theorem and_rune2 (l : Nat) : l &&& Rune2 = l % 2048 := Nat.and_two_pow_sub_one_eq_mod l 11

theorem and_rune3 (l : Nat) : l &&& Rune3 = l % 65536 := Nat.and_two_pow_sub_one_eq_mod l 16

theorem testx_iff {b : Nat} (byte : b < 256) : (b ^^^ Tx) &&& Testx ≠ 0 ↔ ¬ isTx b = true :=
  not_congr (testx_clear b byte)

/-! ### One rune -/

section Step

variable {read : Nat → Option Nat} {p c b1 b2 : Nat}

theorem chartorune_ascii (first : read p = some c) (small : c < Tx) :
    chartorune read p = some (c, 1) := by
  unfold chartorune
  rw [first]
  exact if_pos small

theorem chartorune_two (first : read p = some c) (second : read (p + 1) = some b1)
    (high : ¬ c < 0x80) (two : c < 0xE0) (byte : b1 < 256) :
    chartorune read p = some
      (if isTx b1 && decide (0xC0 ≤ c) && decide (0x7F < c % 32 * 64 + b1 % 64) then
        (c % 32 * 64 + b1 % 64, 2)
      else (runeerror, 1)) := by
  unfold chartorune
  rw [first]
  show (if c < 0x80 then _ else _) = _
  rw [if_neg high]
  show (do let b ← read (p + 1); _) = _
  rw [second]
  show (if (b1 ^^^ Tx) &&& Testx ≠ 0 then _ else _) = _
  cases tail : isTx b1 with
  | false =>
    rw [if_pos ((testx_iff byte).2 (by rw [tail]; exact Bool.false_ne_true))]
    rfl
  | true =>
    rw [if_neg ((testx_iff byte).not.2 (not_not_intro tail)), if_pos (show c < T3 from two)]
    by_cases lead : c < 0xC0
    · rw [if_pos (show c < T2 from lead), Bool.true_and, decide_eq_false (by omega)]
      rfl
    have value : (c <<< Bitx ||| b1 ^^^ Tx) &&& Rune2 = c % 32 * 64 + b1 % 64 := by
      rw [xor_tx b1 byte tail, or_shifted (by omega), and_rune2]
      omega
    rw [if_neg (show ¬ c < T2 from lead), value, Bool.true_and, decide_eq_true (by omega), Bool.true_and]
    by_cases short : c % 32 * 64 + b1 % 64 ≤ Rune1
    · rw [if_pos short, decide_eq_false (by unfold Rune1 at short; omega)]
      rfl
    · rw [if_neg short, decide_eq_true (by unfold Rune1 at short; omega)]
      rfl

theorem chartorune_three (first : read p = some c) (second : read (p + 1) = some b1)
    (third : read (p + 2) = some b2) (high : ¬ c < 0xE0) (byte : b1 < 256) (byte' : b2 < 256) :
    chartorune read p = some
      (if isTx b1 && isTx b2 && decide (c < 0xF0) &&
          decide (0x7FF < c % 16 * 4096 + b1 % 64 * 64 + b2 % 64) then
        (c % 16 * 4096 + b1 % 64 * 64 + b2 % 64, 3)
      else (runeerror, 1)) := by
  unfold chartorune
  rw [first]
  show (if c < 0x80 then _ else _) = _
  rw [if_neg (by omega)]
  show (do let b ← read (p + 1); _) = _
  rw [second]
  show (if (b1 ^^^ Tx) &&& Testx ≠ 0 then _ else _) = _
  cases tail : isTx b1 with
  | false =>
    rw [if_pos ((testx_iff byte).2 (by rw [tail]; exact Bool.false_ne_true))]
    rfl
  | true =>
    rw [if_neg ((testx_iff byte).not.2 (not_not_intro tail)), if_neg (show ¬ c < T3 from high)]
    show (do let b ← read (p + 2); _) = _
    rw [third]
    show (if (b2 ^^^ Tx) &&& Testx ≠ 0 then _ else _) = _
    cases tail' : isTx b2 with
    | false =>
      rw [if_pos ((testx_iff byte').2 (by rw [tail']; exact Bool.false_ne_true))]
      rfl
    | true =>
      rw [if_neg ((testx_iff byte').not.2 (not_not_intro tail')), Bool.true_and, Bool.true_and]
      by_cases lead : c < 0xF0
      · have value : ((c <<< Bitx ||| b1 ^^^ Tx) <<< Bitx ||| b2 ^^^ Tx) &&& Rune3 =
            c % 16 * 4096 + b1 % 64 * 64 + b2 % 64 := by
          rw [xor_tx b1 byte tail, xor_tx b2 byte' tail', or_shifted (by omega),
            or_shifted (by omega), and_rune3]
          omega
        rw [if_pos (show c < T4 from lead), value, decide_eq_true lead, Bool.true_and]
        by_cases short : c % 16 * 4096 + b1 % 64 * 64 + b2 % 64 ≤ Rune2
        · rw [if_pos short, decide_eq_false (by unfold Rune2 at short; omega)]
          rfl
        · rw [if_neg short, decide_eq_true (by unfold Rune2 at short; omega)]
          rfl
      · rw [if_neg (show ¬ c < T4 from lead), decide_eq_false lead]
        rfl

end Step

/-! ### Runes of an array -/

section Passes

variable {bytes : List Nat} {p c : Nat} {rest : List Nat}

theorem getElem?_of_drop (is : bytes.drop p = rest) (i : Nat) : bytes[p + i]? = rest[i]? := by
  rw [← is, getElem?_drop]

/-- Whether a rune is whole depends on its first byte and on how many bytes there are. -/
theorem fullrune_eq {n : Nat} (first : bytes[p]? = some c) (some' : 0 < n) :
    fullrune (fun i => bytes[i]?) p n =
      some (decide (c < Tx) || decide (1 < n) && (decide (c < T3) || decide (2 < n))) := by
  unfold fullrune
  rw [if_pos some']
  show (do let c ← bytes[p]?; _) = _
  rw [first]
  rfl

/-- A rune that is whole is decoded without a look past the end, and takes at least a byte. -/
theorem chartorune_whole (small : ∀ b ∈ bytes, b < 256) (is : bytes.drop p = c :: rest)
    (whole : c < 0x80 ∨ 2 < (c :: rest).length ∨ 1 < (c :: rest).length ∧ c < 0xE0) :
    ∃ r n, 0 < n ∧ n ≤ (c :: rest).length ∧
      chartorune (fun i => bytes[i]?) p = some (r, n) ∧
      c2string (c :: rest) = r :: c2string ((c :: rest).drop n) := by
  have first : bytes[p]? = some c := getElem?_of_drop is 0
  have byte (b : Nat) (member : b ∈ c :: rest) : b < 256 :=
    small b ((drop_sublist p bytes).subset (is ▸ member))
  by_cases ascii : c < 0x80
  · exact ⟨c, 1, Nat.one_pos, Nat.succ_pos _, chartorune_ascii first ascii,
      c2string_ascii ascii rest⟩
  match rest, is, whole, byte with
  | [], _, whole, _ =>
    rw [length_singleton] at whole
    omega
  | [b1], is, whole, byte =>
    have two : c < 0xE0 := by
      rw [length_cons, length_singleton] at whole
      omega
    have second : bytes[p + 1]? = some b1 := getElem?_of_drop is 1
    have decoded := @chartorune_two (fun i => bytes[i]?) _ _ _ first second ascii two
      (byte b1 (by simp))
    rw [decoded]
    have equation : c2string [c, b1] =
        if isTx b1 && decide (0xC0 ≤ c) && decide (0x7F < c % 32 * 64 + b1 % 64) then
          [c % 32 * 64 + b1 % 64]
        else runeerror :: c2string [b1] := by
      conv_lhs => rw [c2string, if_neg ascii, if_neg (by omega)]
    rw [equation]
    split
    · exact ⟨_, 2, Nat.two_pos, Nat.le_refl 2, rfl, rfl⟩
    · exact ⟨_, 1, Nat.one_pos, by simp, rfl, rfl⟩
  | b1 :: b2 :: more, is, _, byte =>
    have second : bytes[p + 1]? = some b1 := getElem?_of_drop is 1
    have third : bytes[p + 2]? = some b2 := getElem?_of_drop is 2
    rw [c2string, if_neg ascii]
    by_cases two : c < 0xE0
    · have decoded := @chartorune_two (fun i => bytes[i]?) _ _ _ first second ascii two
        (byte b1 (by simp))
      rw [decoded, if_pos two]
      split
      · exact ⟨_, 2, Nat.two_pos, by simp, rfl, rfl⟩
      · exact ⟨_, 1, Nat.one_pos, by simp, rfl, rfl⟩
    · have decoded := @chartorune_three (fun i => bytes[i]?) _ _ _ _ first second third two
        (byte b1 (by simp)) (byte b2 (by simp))
      rw [decoded, if_neg two]
      split
      · exact ⟨_, 3, by decide, by simp, rfl, rfl⟩
      · exact ⟨_, 1, Nat.one_pos, by simp, rfl, rfl⟩

/-- A rune that is cut off is dropped with all that follows. -/
theorem c2string_cutoff (high : ¬ c < 0x80) (cut : ¬ 2 < (c :: rest).length)
    (cut' : ¬ (1 < (c :: rest).length ∧ c < 0xE0)) : c2string (c :: rest) = [] := by
  match rest, cut, cut' with
  | [], _, _ => rw [c2string, if_neg high]
  | [b1], _, cut' =>
    have three : 0xE0 ≤ c := by
      rw [length_cons, length_singleton] at cut'
      omega
    rw [c2string, if_neg high, if_pos three]
  | b1 :: b2 :: more, cut, _ =>
    rw [length_cons, length_cons, length_cons] at cut
    omega

/-- The runes are counted to the place where they end when they are decoded. -/
theorem countrunes_eq (small : ∀ b ∈ bytes, b < 256) (fuel : Nat) : ∀ p nc, p ≤ bytes.length →
    bytes.length < p + fuel → ∃ stop ≤ bytes.length,
      countrunes (fun i => bytes[i]?) bytes.length fuel p nc =
        some (nc + (c2string (bytes.drop p)).length, stop) ∧
      decoderunes (fun i => bytes[i]?) (c2string (bytes.drop p)).length p =
        some (c2string (bytes.drop p), stop) := by
  induction fuel with
  | zero =>
    intro p nc within enough
    omega
  | succ fuel ih =>
    intro p nc within enough
    unfold countrunes
    by_cases ends : bytes.length ≤ p
    · rw [if_pos ends, drop_eq_nil_of_le ends]
      exact ⟨p, within, rfl, rfl⟩
    rw [if_neg ends]
    rcases is : bytes.drop p with _ | ⟨c, rest⟩
    · rw [drop_eq_nil_iff] at is
      exact absurd is ends
    have first : bytes[p]? = some c := getElem?_of_drop is 0
    have left : (c :: rest).length = bytes.length - p := by
      rw [← is, length_drop]
    have more : 0 < bytes.length - p := by omega
    have decodes (whole : c < 0x80 ∨ 2 < (c :: rest).length ∨
        1 < (c :: rest).length ∧ c < 0xE0) : ∃ r n, 0 < n ∧
          chartorune (fun i => bytes[i]?) p = some (r, n) ∧ ∃ stop ≤ bytes.length,
          countrunes (fun i => bytes[i]?) bytes.length fuel (p + n) (nc + 1) =
            some (nc + (c2string (c :: rest)).length, stop) ∧
          decoderunes (fun i => bytes[i]?) (c2string (c :: rest)).length p =
            some (c2string (c :: rest), stop) := by
      have ⟨r, n, positive, fits, decoded, equation⟩ := chartorune_whole small is whole
      have ⟨stop, before, counted, later⟩ :=
        ih (p + n) (nc + 1) (by omega) (by omega)
      rw [← drop_drop, is] at counted later
      refine ⟨r, n, positive, decoded, stop, before, ?_, ?_⟩
      · rw [counted, equation, length_cons]
        congr 2
        omega
      rw [equation, length_cons, decoderunes, decoded]
      dsimp only [bind_eq_bind, bind_some]
      rw [later]
      rfl
    rw [first, bind_eq_bind, bind_some]
    by_cases ascii : c < 0x80
    · obtain ⟨r, n, -, decoded, stop, before, counted, later⟩ := decodes (.inl ascii)
      rw [chartorune_ascii first ascii] at decoded
      cases decoded
      rw [if_pos (show c < Runeself from ascii)]
      exact ⟨stop, before, counted, later⟩
    rw [if_neg (show ¬ c < Runeself from ascii), bind_eq_bind]
    by_cases whole : 2 < (c :: rest).length ∨ 1 < (c :: rest).length ∧ c < 0xE0
    · obtain ⟨r, n, -, decoded, stop, before, counted, later⟩ := decodes (.inr whole)
      clear decodes
      have goes : isfull (fun i => bytes[i]?) bytes.length p = some true := by
        unfold isfull
        split
        · rfl
        rename_i short
        rw [fullrune_eq first more, ← left]
        have two : 1 < (c :: rest).length ∧ c < T3 := by
          unfold UTFmax at short
          exact whole.resolve_left (by omega)
        rw [decide_eq_true two.1, decide_eq_true two.2, Bool.true_or, Bool.true_and,
          Bool.or_true]
      rw [goes, bind_some, if_pos rfl, decoded]
      exact ⟨stop, before, counted, later⟩
    · clear decodes
      have ⟨cut, cut'⟩ := not_or.1 whole
      have stops : isfull (fun i => bytes[i]?) bytes.length p = some false := by
        unfold isfull
        rw [if_neg (by unfold UTFmax; omega), fullrune_eq first more, ← left,
          decide_eq_false (show ¬ c < Tx from ascii), decide_eq_false cut, Bool.or_false,
          Bool.false_or, ← Bool.decide_and, decide_eq_false (show ¬ (_ ∧ c < T3) from cut')]
      rw [stops, bind_some, if_neg Bool.false_ne_true, c2string_cutoff ascii cut cut']
      exact ⟨p, within, rfl, rfl⟩

theorem firsthigh_eq (n : Nat) : ∀ p, p + n = bytes.length →
    (firsthigh (fun i => bytes[i]?) n p = some none ∧ ∀ b ∈ bytes.drop p, b < 0x80) ∨
      ∃ q, firsthigh (fun i => bytes[i]?) n p = some (some q) ∧ p ≤ q ∧ q < bytes.length ∧
        (∀ b ∈ (bytes.drop p).take (q - p), b < 0x80) ∧ ∃ b, bytes[q]? = some b ∧ 0x80 ≤ b := by
  induction n with
  | zero =>
    intro p ends
    rw [drop_eq_nil_of_le (by omega)]
    exact .inl ⟨rfl, fun b member => nomatch member⟩
  | succ _ ih =>
    intro p _
    have inside : p < bytes.length := by omega
    have first : bytes[p]? = some bytes[p] := getElem?_eq_getElem inside
    unfold firsthigh
    rw [first, bind_eq_bind, bind_some, drop_eq_getElem_cons inside]
    by_cases high : Runeself ≤ bytes[p]
    · refine .inr ⟨p, if_pos high, Nat.le_refl p, inside, ?_, _, first, high⟩
      rw [Nat.sub_self, take_zero]
      exact fun b member => nomatch member
    rw [if_neg high]
    have low : bytes[p] < 0x80 := Nat.not_le.1 high
    rcases ih (p + 1) (by omega) with ⟨is, rest⟩ | ⟨q, is, after, within, rest, b⟩
    · refine .inl ⟨is, fun b member => ?_⟩
      rcases mem_cons.1 member with same | later
      · rw [same]
        exact low
      · exact rest b later
    refine .inr ⟨q, is, Nat.le_of_succ_le after, within, fun b member => ?_, b⟩
    rw [show q - p = q - (p + 1) + 1 by omega, take_succ_cons] at member
    rcases mem_cons.1 member with same | later
    · rw [same]
      exact low
    · exact rest b later

theorem decoderunes_ascii (front : List Nat) (ascii : ∀ b ∈ front, b < 0x80) (n : Nat) : ∀ p,
    (∀ i < front.length, bytes[p + i]? = front[i]?) →
      decoderunes (fun i => bytes[i]?) (front.length + n) p =
        (decoderunes (fun i => bytes[i]?) n (p + front.length)).map fun r => (front ++ r.1, r.2) := by
  induction front with
  | nil =>
    intro p _
    rw [length_nil, Nat.zero_add, Nat.add_zero]
    cases decoderunes (fun i => bytes[i]?) n p <;> rfl
  | cons b front ih =>
    intro p there
    have first : bytes[p]? = some b := there 0 (Nat.succ_pos _)
    have later := ih (forall_mem_cons.1 ascii).2
      (p + 1) (fun i below => by
        rw [show p + 1 + i = p + (i + 1) by omega]
        exact there (i + 1) (Nat.succ_lt_succ below))
    have small : b < Tx := ascii b (mem_cons_self ..)
    rw [length_cons, show front.length + 1 + n = front.length + n + 1 by omega, decoderunes,
      chartorune_ascii first small]
    dsimp only [bind_eq_bind, bind_some]
    rw [later, show p + 1 + front.length = p + (front.length + 1) by omega]
    cases decoderunes (fun i => bytes[i]?) n (p + (front.length + 1)) <;> rfl

theorem c2string_ascii_append (front : List Nat) (ascii : ∀ b ∈ front, b < 0x80)
    (back : List Nat) : c2string (front ++ back) = front ++ c2string back := by
  induction front with
  | nil => rfl
  | cons b _ ih =>
    rw [cons_append, c2string_ascii (ascii b (mem_cons_self ..)),
      ih (forall_mem_cons.1 ascii).2]
    rfl

end Passes

end Infernode.Lib9
