import Infernode.Lib.Gitdelta

/-!
When `applydelta` applies a delta as the format says.

Owns: the sizes and operands as words against the numbers of the format, the commands at which
an exception is raised, and the deltas that are applied or refused as they should be.
-/

namespace Infernode.Gitdelta

open List Option

/-! ### Sizes -/

/-- The seven-bit groups of a size, to its last byte or to the end of the data. -/
def groups : Bytes → List Nat × Bytes
  | [] => ([], [])
  | b :: data =>
    if b.toNat < 128 then ([b.toNat], data)
    else (b.toNat % 128 :: (groups data).1, (groups data).2)

/-- The word that the groups make, each shifted by seven more than the one before; the machine
counts shifts modulo 64. -/
def word : Nat → List Nat → Word
  | _, [] => 0#32
  | shift, g :: gs => BitVec.ofNat 32 g <<< (shift % 64) ||| word (shift + 7) gs

theorem readvarint_eq (data : Bytes) (shift : Nat) (val : Word) :
    readvarint data shift val = (val ||| word shift (groups data).1, (groups data).2) := by
  induction data generalizing shift val with
  | nil => rw [readvarint, groups, word, BitVec.or_zero]
  | cons b data ih =>
    rw [readvarint, groups]
    split
    · rename_i last
      rw [word, word, BitVec.or_zero, Nat.mod_eq_of_lt last]
    · rw [ih, word, BitVec.or_assoc]

theorem ofNat_shiftLeft (g shift : Nat) :
    BitVec.ofNat 32 g <<< shift = BitVec.ofNat 32 (g * 2 ^ shift) := by
  apply BitVec.eq_of_toNat_eq
  rw [BitVec.toNat_shiftLeft, BitVec.toNat_ofNat, BitVec.toNat_ofNat, Nat.shiftLeft_eq,
    Nat.mod_mul_mod]

variable {shift most : Nat} {out part : Bytes} {built : Option Bytes} {first second : Prop}
    {one two : String}

theorem ofNat_or_ofNat {low high : Nat} (below : low < 2 ^ shift) :
    BitVec.ofNat 32 low ||| BitVec.ofNat 32 (high * 2 ^ shift) =
      BitVec.ofNat 32 (low + high * 2 ^ shift) := by
  rw [← BitVec.ofNat_or, Nat.or_comm, Nat.mul_comm high, ← Nat.two_pow_add_eq_or_of_lt below,
    Nat.add_comm]

variable {data rest behind base delta : Bytes} {n off target total : Nat} {cmd : UInt8}
    {outcome : Outcome}

theorem word_of_size (read : size most data = some (n, rest)) (few : shift + 7 * most ≤ 63) :
    word shift (groups data).1 = BitVec.ofNat 32 (n * 2 ^ shift) ∧ (groups data).2 = rest := by
  induction most generalizing data n shift with
  | zero => cases read
  | succ most ih =>
    cases data with
    | nil => cases read
    | cons b data =>
      have small : shift % 64 = shift := Nat.mod_eq_of_lt (by omega)
      rw [size] at read
      rw [groups]
      split
      · rename_i last
        rw [if_pos last] at read
        cases read
        rw [word, word, BitVec.or_zero, small, ofNat_shiftLeft]
        exact ⟨rfl, rfl⟩
      rename_i more
      rw [if_neg more] at read
      obtain ⟨⟨m, left⟩, later, same⟩ := map_eq_some_iff.1 read
      cases same
      have few' : shift + 7 + 7 * most ≤ 63 := by omega
      obtain ⟨is, behind⟩ := ih later few'
      refine ⟨?_, behind⟩
      have below : b.toNat % 128 * 2 ^ shift < 2 ^ (shift + 7) := by
        rw [Nat.pow_add, Nat.mul_comm]
        exact Nat.mul_lt_mul_of_pos_left (Nat.mod_lt _ (by decide)) (Nat.two_pow_pos shift)
      rw [word, is, small, ofNat_shiftLeft, ofNat_or_ofNat below, Nat.pow_add, Nat.add_mul]
      congr 2
      rw [Nat.mul_comm (2 ^ shift), ← Nat.mul_assoc, Nat.mul_comm m 128]

/-! ### Operands -/

/-- Operands one after the other, each eight bits further on. -/
def chain : List Bool → Nat → Word → Bytes → Option (Word × Bytes)
  | [], _, val, data => some (val, data)
  | present :: more, shift, val, data => do
      let (val, data) ← operand present shift val data
      chain more (shift + 8) val data

theorem chain_eq (flags : List Bool) (shift v : Nat) (data : Bytes) (below : v < 2 ^ shift) :
    chain flags shift (BitVec.ofNat 32 v) data =
      (field flags data).map fun (n, data) => (BitVec.ofNat 32 (v + n * 2 ^ shift), data) := by
  induction flags generalizing shift v data with
  | nil => simp [chain, field]
  | cons flag flags ih =>
    have step (n : Nat) : n * 2 ^ (shift + 8) = 256 * n * 2 ^ shift := by
      rw [Nat.pow_add, Nat.mul_comm (2 ^ shift), ← Nat.mul_assoc, Nat.mul_comm n]
    cases flag with
    | false =>
      have wider : v < 2 ^ (shift + 8) :=
        Nat.lt_of_lt_of_le below (Nat.pow_le_pow_right (by decide) (Nat.le_add_right _ _))
      rw [chain, field]
      show chain flags (shift + 8) (BitVec.ofNat 32 v) data = _
      rw [ih (shift + 8) v data wider, Option.map_map]
      congr 1
      funext ⟨n, rest⟩
      simp only [Function.comp_apply, step]
    | true =>
      cases data with
      | nil => rfl
      | cons b data =>
        have byte : b.toNat < 256 := b.toNat_lt
        have wider : v + b.toNat * 2 ^ shift < 2 ^ (shift + 8) := by
          have most : (b.toNat + 1) * 2 ^ shift ≤ 256 * 2 ^ shift :=
            Nat.mul_le_mul_right _ byte
          rw [Nat.add_mul, Nat.one_mul] at most
          rw [Nat.pow_add, Nat.mul_comm (2 ^ shift)]
          show _ < 256 * 2 ^ shift
          omega
        rw [chain, field]
        show chain flags (shift + 8) (BitVec.ofNat 32 v ||| BitVec.ofNat 32 b.toNat <<< shift)
          data = _
        rw [ofNat_shiftLeft, ofNat_or_ofNat below, ih (shift + 8) _ data wider,
          Option.map_map]
        congr 1
        funext ⟨n, rest⟩
        simp only [Function.comp_apply, step, Nat.add_mul, Nat.add_assoc]

theorem field_lt {flags : List Bool} (read : field flags data = some (n, rest)) :
    n < 256 ^ flags.length := by
  induction flags generalizing n data with
  | nil =>
    cases read
    exact Nat.one_pos
  | cons flag _ ih =>
    rw [length_cons, Nat.pow_succ]
    cases flag with
    | false =>
      have ⟨⟨m, left⟩, more, same⟩ := map_eq_some_iff.1 read
      cases same
      have below := ih more
      omega
    | true =>
      cases data with
      | nil => cases read
      | cons b _ =>
        have ⟨⟨m, left⟩, more, same⟩ := map_eq_some_iff.1 read
        cases same
        have below := ih more
        have byte : b.toNat < 256 := b.toNat_lt
        omega

/-- The operands are the words of the format's numbers. -/
theorem operands_eq (cmd : UInt8) (data : Bytes) :
    operands cmd data = (copy cmd data).map fun (off, n, data) =>
      (BitVec.ofNat 32 off, BitVec.ofNat 32 n, data) := by
  have parts : operands cmd data = (do
      let (cpoff, data) ← chain [cmd.toNat.testBit 0, cmd.toNat.testBit 1, cmd.toNat.testBit 2,
        cmd.toNat.testBit 3] 0 (BitVec.ofNat 32 0) data
      let (cpsize, data) ← chain [cmd.toNat.testBit 4, cmd.toNat.testBit 5, cmd.toNat.testBit 6] 0
        (BitVec.ofNat 32 0) data
      some (cpoff, if cpsize = 0 then 0x10000 else cpsize, data)) := by
    simp only [operands, chain, bind_eq_bind, bind_assoc, bind_some,
      Nat.zero_add, Nat.reduceAdd]
    rfl
  rw [parts, chain_eq _ _ _ _ (by decide), copy]
  cases off : field [cmd.toNat.testBit 0, cmd.toNat.testBit 1, cmd.toNat.testBit 2,
      cmd.toNat.testBit 3] data with
  | none => rfl
  | some first =>
    obtain ⟨_, rest⟩ := first
    simp only [map_some, bind_eq_bind, bind_some]
    rw [chain_eq _ _ _ _ (by decide)]
    cases count : field [cmd.toNat.testBit 4, cmd.toNat.testBit 5, cmd.toNat.testBit 6] rest with
    | none => rfl
    | some second =>
      obtain ⟨n, _⟩ := second
      have below : n < 256 ^ 3 := field_lt count
      simp only [map_some, bind_some, Nat.zero_add, Nat.pow_zero, Nat.mul_one]
      congr 3
      by_cases none : n = 0
      · rw [none]
        rfl
      rw [if_neg none, if_neg]
      intro same
      apply none
      have values := congrArg BitVec.toNat same
      rw [BitVec.toNat_ofNat, Nat.mod_eq_of_lt (by omega)] at values
      exact values

theorem copy_bounds (read : copy cmd data = some (off, n, rest)) :
    off < 2 ^ 32 ∧ 0 < n ∧ n < 2 ^ 24 := by
  simp only [copy, bind_eq_bind, bind_eq_some_iff, Prod.exists] at read
  obtain ⟨first, _, r0, m, _, r1, last⟩ := read
  have b0 : first < 256 ^ 4 := field_lt r0
  have b1 : m < 256 ^ 3 := field_lt r1
  cases last
  refine ⟨by omega, ?_, ?_⟩
  · split
    · omega
    · omega
  · split
    · omega
    · omega

/-! ### Commands -/

theorem toNat_word (small : n < 2 ^ 32) : (BitVec.ofNat 32 n).toNat = n := by
  rw [BitVec.toNat_ofNat, Nat.mod_eq_of_lt small]

theorem signed_of_lt (small : n < 2 ^ 31) : signed n = n := by
  have value : (BitVec.ofNat 32 n).toNat = n := toNat_word (by omega)
  rw [signed, BitVec.toInt_eq_toNat_of_lt (by omega), value]

theorem signed_add (n m : Nat) :
    (BitVec.ofNat 32 n + BitVec.ofNat 32 m).toInt = signed (n + m) := by
  rw [signed, BitVec.ofNat_add]

theorem not_lt_signed (fits : n ≤ most) (small : most < 2 ^ 31) : ¬(most : Int) < signed n := by
  rw [signed_of_lt (by omega)]
  omega

/-- Of the commands from `r` bytes of the target on, none raises an exception: every copy has its
operands, and a command that reads beyond the base or the delta, or writes beyond the target,
does so by a sum that the signed comparison sees. -/
def Answered (base target total : Nat) (r : Nat) : Bytes → Prop
  | [] => True
  | cmd :: data =>
    if 128 ≤ cmd.toNat then
      match _read : copy cmd data with
      | none => False
      | some (off, n, behind) =>
        if off + n ≤ base ∧ r + n ≤ target then Answered base target total (r + n) behind
        else base < signed (off + n) ∨ target < signed (r + n)
    else if cmd ≠ 0 then
      if cmd.toNat ≤ data.length ∧ r + cmd.toNat ≤ target then
        Answered base target total (r + cmd.toNat) (data.drop cmd.toNat)
      else
        total < signed (total - data.length + cmd.toNat) ∨ target < signed (r + cmd.toNat)
    else True
termination_by data => data.length
decreasing_by
  · have shorter := copy_length _read
    simp only [List.length_cons]
    omega
  · simp only [List.length_cons, List.length_drop]
    omega

theorem Answered.copied {base r : Nat} (isCopy : 128 ≤ cmd.toNat)
    (read : copy cmd data = some (off, n, behind)) :
    Answered base target total r (cmd :: data) ↔
      if off + n ≤ base ∧ r + n ≤ target then Answered base target total (r + n) behind
      else (base : Int) < signed (off + n) ∨ (target : Int) < signed (r + n) := by
  rw [Answered, if_pos isCopy]
  split
  · rename_i none
    rw [read] at none
    cases none
  rename_i off' n' behind' same
  rw [read] at same
  cases same
  exact Iff.rfl

theorem commands_copied (base : Buffer) (small : target < 2 ^ 31) (isCopy : 128 ≤ cmd.toNat)
    (read : copy cmd data = some (off, n, behind)) (out : Bytes) :
    commands base (BitVec.ofNat 32 target) total out (cmd :: data) =
      if off + n ≤ base.bytes.length ∧ out.length + n ≤ target then
        commands base (BitVec.ofNat 32 target) total (out ++ (base.bytes.drop off).take n) behind
      else if (base.bytes.length : Int) < signed (off + n) then .error "delta copy out of bounds"
      else if (target : Int) < signed (out.length + n) then .error "delta result overflow"
      else .raised := by
  have size : (BitVec.ofNat 32 target).toInt = target := signed_of_lt small
  have bounds := copy_bounds read
  have offValue : (BitVec.ofNat 32 off).toNat = off := toNat_word bounds.1
  have sizeValue : (BitVec.ofNat 32 n).toNat = n := toNat_word (by omega)
  have short := base.short
  rw [commands, if_pos isCopy]
  split
  · rename_i none
    rw [operands_eq, read] at none
    cases none
  rename_i cpoff cpsize behind' same
  rw [operands_eq, read] at same
  cases same
  rw [signed_add, signed_add, size, offValue, sizeValue]
  by_cases fits : off + n ≤ base.bytes.length ∧ out.length + n ≤ target
  · have positive : ¬(BitVec.ofNat 32 off).toInt < 0 := by
      have value : (BitVec.ofNat 32 off).toInt = off := signed_of_lt (by omega)
      omega
    rw [if_pos fits, if_neg (not_lt_signed fits.1 short), if_neg (not_lt_signed fits.2 small),
      if_neg]
    omega
  · have refused : (BitVec.ofNat 32 off).toInt < 0 ∨ base.bytes.length < off + n ∨
        (target : Int) < out.length + n := by
      omega
    rw [if_neg fits, if_pos refused]

theorem commands_inserted (base : Buffer) (small : target < 2 ^ 31) (short : total < 2 ^ 31)
    (isInsert : ¬128 ≤ cmd.toNat) (used : cmd ≠ 0) (within : data.length ≤ total) (out : Bytes) :
    commands base (BitVec.ofNat 32 target) total out (cmd :: data) =
      if cmd.toNat ≤ data.length ∧ out.length + cmd.toNat ≤ target then
        commands base (BitVec.ofNat 32 target) total (out ++ data.take cmd.toNat)
          (data.drop cmd.toNat)
      else if (total : Int) < signed (total - data.length + cmd.toNat) then
        .error "delta insert out of bounds"
      else if (target : Int) < signed (out.length + cmd.toNat) then .error "delta result overflow"
      else .raised := by
  have size : (BitVec.ofNat 32 target).toInt = target := signed_of_lt small
  rw [commands, if_neg isInsert, if_pos used]
  dsimp only
  rw [signed_add, signed_add, size]
  by_cases fits : cmd.toNat ≤ data.length ∧ out.length + cmd.toNat ≤ target
  · rw [if_pos fits, if_neg (not_lt_signed (by omega) short),
      if_neg (not_lt_signed fits.2 small), if_neg]
    omega
  · have refused : data.length < cmd.toNat ∨ (target : Int) < out.length + cmd.toNat := by
      omega
    rw [if_neg fits, if_pos refused]

def Applied (target : Nat) (out : Bytes) (built : Option Bytes) (outcome : Outcome) : Prop :=
  match built with
  | some more =>
    if out.length + more.length = target then outcome = .ok (out ++ more)
    else ∃ err, outcome = .error err
  | none => ∃ err, outcome = .error err

theorem Applied.append (applied : Applied target (out ++ part) built outcome) :
    Applied target out (built.map (part ++ ·)) outcome := by
  cases built with
  | none => exact applied
  | some _ =>
    unfold Applied at applied ⊢
    simp only [map_some, length_append, ← Nat.add_assoc, ← append_assoc]
      at applied ⊢
    exact applied

theorem Applied.overflow (beyond : target < out.length + part.length)
    (refused : ∃ err, outcome = .error err) :
    Applied target out (built.map (part ++ ·)) outcome := by
  cases built with
  | none => exact refused
  | some _ =>
    unfold Applied
    simp only [map_some, length_append]
    rw [if_neg (by omega)]
    exact refused

theorem build_copied (isCopy : 128 ≤ cmd.toNat) (read : copy cmd data = some (off, n, behind)) :
    build base (cmd :: data) =
      if off + n ≤ base.length then
        (build base behind).map ((base.drop off).take n ++ ·)
      else none := by
  rw [build, if_pos isCopy]
  split
  · rename_i none
    rw [read] at none
    cases none
  rename_i off' n' behind' same
  rw [read] at same
  cases same
  rfl

/-- What is answered with an error rather than an exception. -/
theorem refused_of [Decidable first] [Decidable second] (seen : first ∨ second) :
    ∃ err, (if first then Outcome.error one else if second then .error two else .raised) =
      .error err := by
  by_cases isFirst : first
  · exact ⟨one, if_pos isFirst⟩
  · exact ⟨two, by rw [if_neg isFirst, if_pos (seen.resolve_left isFirst)]⟩

theorem raised_of [Decidable first] [Decidable second] (unseen : ¬(first ∨ second)) :
    (if first then Outcome.error one else if second then .error two else .raised) = .raised := by
  rw [if_neg (fun is => unseen (Or.inl is)), if_neg (fun is => unseen (Or.inr is))]

/-- How the commands end: by an exception, or as the bytes that they build. -/
theorem commands_spec (base : Buffer) (small : target < 2 ^ 31) (short : total < 2 ^ 31)
    (data out : Bytes) (within : data.length ≤ total) :
    (¬Answered base.bytes.length target total out.length data →
      commands base (BitVec.ofNat 32 target) total out data = .raised) ∧
    (Answered base.bytes.length target total out.length data →
      Applied target out (build base.bytes data)
        (commands base (BitVec.ofNat 32 target) total out data)) := by
  have size : (BitVec.ofNat 32 target).toInt = target := signed_of_lt small
  induction length : data.length using Nat.strongRecOn generalizing data out with
  | _ length ih =>
    cases data with
    | nil =>
      constructor
      · intro raised
        exact absurd (by rw [Answered]; exact True.intro) raised
      intro _
      rw [build, commands, size]
      unfold Applied
      simp only [length_nil, Nat.add_zero, append_nil, Int.natCast_inj]
      split
      · rfl
      · exact ⟨_, rfl⟩
    | cons cmd data =>
      rw [length_cons] at within length
      by_cases isCopy : 128 ≤ cmd.toNat
      · cases read : copy cmd data with
        | none =>
          have unanswered :
              ¬Answered base.bytes.length target total out.length (cmd :: data) := by
            rw [Answered, if_pos isCopy]
            split
            · exact id
            · rename_i same
              rw [read] at same
              cases same
          have raised :
              commands base (BitVec.ofNat 32 target) total out (cmd :: data) = .raised := by
            rw [commands, if_pos isCopy]
            split
            · rfl
            · rename_i same
              rw [operands_eq, read] at same
              cases same
          exact ⟨fun _ => raised, fun answered => absurd answered unanswered⟩
        | some parts =>
          obtain ⟨off, n, behind⟩ := parts
          have shorter := copy_length read
          rw [Answered.copied isCopy read, commands_copied base small isCopy read,
            build_copied isCopy read]
          by_cases fits : off + n ≤ base.bytes.length ∧ out.length + n ≤ target
          · have copied : ((base.bytes.drop off).take n).length = n := by
              rw [length_take, length_drop]
              omega
            have later := ih behind.length (by omega) behind
              (out ++ (base.bytes.drop off).take n) (by omega) rfl
            rw [length_append, copied] at later
            rw [if_pos fits, if_pos fits, if_pos fits.1]
            exact ⟨later.1, fun answered => (later.2 answered).append⟩
          rw [if_neg fits, if_neg fits]
          refine ⟨raised_of, fun answered => ?_⟩
          split
          · rename_i inBase
            apply Applied.overflow _ (refused_of answered)
            rw [length_take, length_drop]
            omega
          · exact refused_of answered
      · by_cases used : cmd = 0
        · have answered :
              Answered base.bytes.length target total out.length (cmd :: data) := by
            rw [Answered, if_neg isCopy, if_neg (not_not_intro used)]
            exact True.intro
          refine ⟨fun raised => absurd answered raised, fun _ => ?_⟩
          rw [commands, build, if_neg isCopy, if_neg isCopy, if_neg (not_not_intro used),
            if_neg (not_not_intro used)]
          exact ⟨_, rfl⟩
        rw [Answered, if_neg isCopy, if_pos used,
          commands_inserted base small short isCopy used (by omega), build, if_neg isCopy,
          if_pos used]
        by_cases fits : cmd.toNat ≤ data.length ∧ out.length + cmd.toNat ≤ target
        · have inserted : (data.take cmd.toNat).length = cmd.toNat := by
            rw [length_take]
            omega
          have dropped : (data.drop cmd.toNat).length = data.length - cmd.toNat :=
            length_drop
          have later := ih (data.drop cmd.toNat).length (by omega)
            (data.drop cmd.toNat) (out ++ data.take cmd.toNat) (by omega) rfl
          rw [length_append, inserted] at later
          rw [if_pos fits, if_pos fits, if_pos fits.1]
          exact ⟨later.1, fun answered => (later.2 answered).append⟩
        · rw [if_neg fits, if_neg fits]
          refine ⟨raised_of, fun answered => ?_⟩
          split
          · rename_i inDelta
            apply Applied.overflow _ (refused_of answered)
            rw [length_take]
            omega
          · exact refused_of answered

/-! ### Deltas -/

/-- The size that a delta says its base has, as the code reads it. -/
def source (delta : Bytes) : Word := word 0 (groups delta).1

/-- The size that a delta says its result has, as the code reads it. -/
def goal (delta : Bytes) : Word := word 0 (groups (groups delta).2).1

def body (delta : Bytes) : Bytes := (groups (groups delta).2).2

/-- Both sizes are whole, of at most five bytes, and these. -/
def Sized (base delta : Bytes) (target : Nat) : Prop :=
  ∃ rest behind, size 5 delta = some (base.length, rest) ∧ size 5 rest = some (target, behind)

/-- The commands are well formed and build so many bytes. -/
def Builds (base delta : Bytes) (target : Nat) : Prop :=
  ∃ result, build base (body delta) = some result ∧ result.length = target

theorem groups_length (data : Bytes) : (groups data).2.length ≤ data.length := by
  induction data with
  | nil => exact Nat.le_refl _
  | cons _ _ ih =>
    rw [groups]
    split
    · exact Nat.le_succ _
    · exact Nat.le_succ_of_le ih

theorem body_length (delta : Bytes) : (body delta).length ≤ delta.length :=
  Nat.le_trans (groups_length _) (groups_length _)

theorem Sized.source (sized : Sized base delta target) :
    source delta = BitVec.ofNat 32 base.length := by
  have ⟨_, _, first, _⟩ := sized
  have same := (word_of_size first (show 0 + 7 * 5 ≤ 63 by decide)).1
  rw [Nat.pow_zero, Nat.mul_one] at same
  exact same

theorem Sized.goal (sized : Sized base delta target) : goal delta = BitVec.ofNat 32 target := by
  have ⟨_, _, first, second⟩ := sized
  have left := (word_of_size first (show 0 + 7 * 5 ≤ 63 by decide)).2
  have same := (word_of_size second (show 0 + 7 * 5 ≤ 63 by decide)).1
  rw [Nat.pow_zero, Nat.mul_one, ← left] at same
  exact same

theorem Sized.long (sized : Sized base delta target) : 2 ≤ delta.length := by
  have ⟨_, _, first, second⟩ := sized
  have shorter {most n : Nat} {data left : Bytes} (read : size most data = some (n, left)) :
      left.length < data.length := by
    induction most generalizing data n with
    | zero => cases read
    | succ _ ih =>
      cases data with
      | nil => cases read
      | cons _ _ =>
        rw [size] at read
        split at read
        · cases read
          exact Nat.lt_succ_self _
        · have ⟨_, later, same⟩ := map_eq_some_iff.1 read
          cases same
          exact Nat.lt_succ_of_lt (ih later)
  have one := shorter first
  have two := shorter second
  omega

theorem patch_eq_some {result : Bytes} :
    patch base delta = some result ↔
      Sized base delta result.length ∧ build base (body delta) = some result ∧
        result.length < 2 ^ 31 := by
  constructor
  · intro is
    simp only [patch, bind_eq_bind, bind_eq_some_iff, Prod.exists] at is
    obtain ⟨s, rest, first, t, behind, second, built, made, last⟩ := is
    split at last
    · rename_i fits
      cases last
      obtain ⟨same, length, small⟩ := fits
      subst same length
      have left := (word_of_size first (show 0 + 7 * 5 ≤ 63 by decide)).2
      have right := (word_of_size second (show 0 + 7 * 5 ≤ 63 by decide)).2
      refine ⟨⟨rest, behind, first, second⟩, ?_, small⟩
      rw [body, left, right]
      exact made
    · cases last
  · rintro ⟨⟨rest, behind, first, second⟩, made, small⟩
    have left := (word_of_size first (show 0 + 7 * 5 ≤ 63 by decide)).2
    have right := (word_of_size second (show 0 + 7 * 5 ≤ 63 by decide)).2
    rw [body, left, right] at made
    simp only [patch, first, second, made, bind_eq_bind, bind_some]
    rw [if_pos]
    exact ⟨True.intro, True.intro, small⟩

theorem applydelta_eq (heap : Nat → Bool) (base delta : Buffer) :
    applydelta heap base delta =
      if delta.bytes.length < 2 then .error "delta too short"
      else if (source delta.bytes).toInt ≠ base.bytes.length then
        .error s!"delta source size mismatch: {(source delta.bytes).toInt} vs {base.bytes.length}"
      else if (goal delta.bytes).toInt < 0 ∨ heap (goal delta.bytes).toNat = false then
        .raised
      else commands base (goal delta.bytes) delta.bytes.length [] (body delta.bytes) := by
  have zero (w : Word) : 0 ||| w = w := BitVec.zero_or
  unfold applydelta
  simp only [readvarint_eq, zero]
  rfl

def Meets (heap : Nat → Bool) (base delta : Buffer) : Prop :=
  match patch base.bytes delta.bytes with
  | some result => applydelta heap base delta = .ok result
  | none => ∃ err, applydelta heap base delta = .error err

/-- The delta is refused at its first size, or there is an array for its result, no command
raises an exception, and the sizes are sizes of the format if the commands build the result. -/
def Proper (heap : Nat → Bool) (base delta : Bytes) : Prop :=
  delta.length < 2 ∨ (source delta).toInt ≠ base.length ∨
    ∃ target, target < 2 ^ 31 ∧ goal delta = BitVec.ofNat 32 target ∧ heap target = true ∧
      Answered base.length target delta.length 0 (body delta) ∧
      (Sized base delta target ∨ ¬Builds base delta target)

/-- Of a delta that is refused at its first size the format makes nothing. -/
theorem patch_refused {base : Buffer}
    (refused : delta.length < 2 ∨ (source delta).toInt ≠ base.bytes.length) :
    patch base.bytes delta = none := by
  cases made : patch base.bytes delta with
  | none => rfl
  | some _ =>
    have sized := (patch_eq_some.1 made).1
    rcases refused with short | other
    · exact absurd sized.long (Nat.not_le.2 short)
    · refine absurd ?_ other
      rw [sized.source]
      exact signed_of_lt base.short

theorem applied_meets (small : target < 2 ^ 31) (is : goal delta = BitVec.ofNat 32 target)
    (applied : Applied target [] (build base (body delta)) outcome) :
    (match patch base delta with
      | some result => outcome = .ok result
      | none => ∃ err, outcome = .error err) ↔
      Sized base delta target ∨ ¬Builds base delta target := by
  cases made : patch base delta with
  | some result =>
    obtain ⟨sized, built, _⟩ := patch_eq_some.1 made
    have length : result.length = target := by
      have same := is.symm.trans sized.goal
      have values := congrArg BitVec.toNat same
      rw [toNat_word (by omega), toNat_word (by omega)] at values
      exact values.symm
    rw [built] at applied
    unfold Applied at applied
    dsimp only at applied
    rw [length_nil, Nat.zero_add, if_pos length, nil_append] at applied
    rw [length] at sized
    exact iff_of_true applied (Or.inl sized)
  | none =>
    by_cases builds : Builds base delta target
    · have ⟨_, built, length⟩ := builds
      rw [built] at applied
      unfold Applied at applied
      dsimp only at applied
      rw [length_nil, Nat.zero_add, if_pos length] at applied
      have unsized : ¬Sized base delta target := by
        intro sized
        rw [patch_eq_some.2 ⟨by rw [length]; exact sized, built, by omega⟩] at made
        cases made
      refine iff_of_false ?_ (not_or.2 ⟨unsized, not_not_intro builds⟩)
      rintro ⟨err, refused⟩
      rw [applied] at refused
      cases refused
    · refine iff_of_true ?_ (Or.inr builds)
      cases built : build base (body delta) with
      | none =>
        rw [built] at applied
        exact applied
      | some more =>
        have other : more.length ≠ target := fun length => builds ⟨more, built, length⟩
        rw [built] at applied
        unfold Applied at applied
        dsimp only at applied
        rw [length_nil, Nat.zero_add, if_neg other] at applied
        exact applied

theorem not_raised (made : Option Bytes) :
    ¬match made with
      | some result => Outcome.raised = .ok result
      | none => ∃ err, Outcome.raised = .error err := by
  cases made with
  | none => exact fun ⟨err, same⟩ => nomatch same
  | some _ => exact fun same => nomatch same

/-- A delta is applied as the format says, or refused, exactly if it is proper. -/
theorem delta_application (heap : Nat → Bool) (base delta : Buffer) :
    Meets heap base delta ↔ Proper heap base.bytes delta.bytes := by
  unfold Meets Proper
  rw [applydelta_eq]
  by_cases short : delta.bytes.length < 2
  · rw [if_pos short, patch_refused (Or.inl short)]
    exact iff_of_true ⟨_, rfl⟩ (Or.inl short)
  rw [if_neg short, or_iff_right short]
  by_cases other : (source delta.bytes).toInt ≠ base.bytes.length
  · rw [if_pos other, patch_refused (Or.inr other)]
    exact iff_of_true ⟨_, rfl⟩ (Or.inl other)
  rw [if_neg other, or_iff_right other]
  by_cases noArray : (goal delta.bytes).toInt < 0 ∨ heap (goal delta.bytes).toNat = false
  · rw [if_pos noArray]
    refine iff_of_false (not_raised _) ?_
    rintro ⟨target, small, is, room, _⟩
    have value : (BitVec.ofNat 32 target).toInt = target := signed_of_lt small
    rw [is, value, toNat_word (by omega), room] at noArray
    rcases noArray with negative | full
    · omega
    · cases full
  rw [if_neg noArray]
  obtain ⟨_, room⟩ := not_or.1 noArray
  have small : (goal delta.bytes).toNat < 2 ^ 31 := by
    have bound := (goal delta.bytes).isLt
    have value := BitVec.toInt_eq_toNat_bmod (goal delta.bytes)
    rw [Int.bmod_def] at value
    split at value
    · omega
    · omega
  have is : goal delta.bytes = BitVec.ofNat 32 (goal delta.bytes).toNat :=
    BitVec.eq_of_toNat_eq (toNat_word (by omega)).symm
  have spec := commands_spec base small delta.short (body delta.bytes) []
    (body_length delta.bytes)
  rw [← is, List.length_nil] at spec
  by_cases answered :
      Answered base.bytes.length (goal delta.bytes).toNat delta.bytes.length 0
        (body delta.bytes)
  · rw [applied_meets small is (spec.2 answered)]
    constructor
    · intro right
      exact ⟨_, small, is, Bool.not_eq_false _ ▸ room, answered, right⟩
    · rintro ⟨target, few, same, _, _, right⟩
      rw [same, toNat_word (by omega)]
      exact right
  · rw [spec.1 answered]
    refine iff_of_false (not_raised _) ?_
    rintro ⟨target, few, same, _, right, _⟩
    rw [same, toNat_word (by omega)] at answered
    exact answered right

/-- A copy without its operand raises an exception. -/
theorem truncated_copy_raised :
    ¬∀ base delta : Buffer, Meets (fun _ => true) base delta := by
  intro every
  have met := every ⟨[], by decide⟩ ⟨[0, 1, 0x81], by decide⟩
  have raised :
      applydelta (fun _ => true) ⟨[], by decide⟩ ⟨[0, 1, 0x81], by decide⟩ = .raised := by
    have run : commands ⟨[], by decide⟩ 1 3 [] [0x81] = .raised := by
      rw [commands, if_pos (by decide)]
      rfl
    exact run
  unfold Meets at met
  rw [raised] at met
  exact not_raised _ met

end Infernode.Gitdelta
