import Infernode.Codec.Bigendian
import Mathlib.Data.List.TakeDrop

/-!
Contract: the recursive length prefix encoding of byte strings and lists.

Owns: `Item`, the values; `encode`, the one encoding of each; `parse`, a reader that takes an
encoding off the front of a text and refuses every length and every single byte that could
have been written shorter; and that the two are inverse to each other, so that no encoding is
a proper prefix of another.
-/

namespace Infernode.Rlp

open Bigendian List

abbrev Bytes := List UInt8

inductive Item
  | string (bytes : Bytes)
  | list (items : List Item)

/-! ### Lengths -/

/-- What a length adds to the first byte: itself up to 55, or how many bytes follow. -/
def lengthCode (n : Nat) : Nat := if n ≤ 55 then n else 55 + (ofNat n).length

def lengthBytes (n : Nat) : Bytes := if n ≤ 55 then [] else ofNat n

def readLength (code : Nat) (rest : Bytes) : Option (Nat × Bytes) :=
  if code ≤ 55 then some (code, rest)
  else if rest.length < code - 55 then none
  else if (rest.take (code - 55)).head? = some 0 then none
  else if value (rest.take (code - 55)) ≤ 55 then none
  else some (value (rest.take (code - 55)), rest.drop (code - 55))

def readPayload (code : Nat) (rest : Bytes) : Option (Bytes × Bytes) :=
  match readLength code rest with
  | none => none
  | some (n, after) => if after.length < n then none else some (after.take n, after.drop n)

def frame (low : Nat) (payload : Bytes) : Bytes :=
  UInt8.ofNat (low + lengthCode payload.length) :: (lengthBytes payload.length ++ payload)

/-! ### Values -/

def Single (bytes : Bytes) : Prop := ∃ byte : UInt8, bytes = [byte] ∧ byte.toNat < 0x80

instance (bytes : Bytes) : Decidable (Single bytes) :=
  match bytes with
  | [] => isFalse nofun
  | [byte] =>
    if small : byte.toNat < 0x80 then isTrue ⟨byte, rfl, small⟩
    else isFalse fun ⟨_, same, below⟩ => small (by cases same; exact below)
  | _ :: _ :: _ => isFalse nofun

def encodeString (bytes : Bytes) : Bytes := if Single bytes then bytes else frame 0x80 bytes

mutual

def encode : Item → Bytes
  | .string bytes => encodeString bytes
  | .list items => frame 0xc0 (encodeAll items)

def encodeAll : List Item → Bytes
  | [] => []
  | item :: items => encode item ++ encodeAll items

end

mutual

def Fits : Item → Prop
  | .string bytes => bytes.length < 256 ^ 8
  | .list items => (encodeAll items).length < 256 ^ 8 ∧ FitsAll items

def FitsAll : List Item → Prop
  | [] => True
  | item :: items => Fits item ∧ FitsAll items

end

def front : Bytes → Option (Bool × Bytes × Bytes)
  | [] => none
  | first :: rest =>
    if first.toNat < 0x80 then some (false, [first], rest)
    else if first.toNat < 0xc0 then
      (readPayload (first.toNat - 0x80) rest).bind fun read =>
        if Single read.1 then none else some (false, read.1, read.2)
    else (readPayload (first.toNat - 0xc0) rest).map fun read => (true, read.1, read.2)

mutual

/-- The value at the front of a text, and what follows it. -/
def parse : Nat → Bytes → Option (Item × Bytes)
  | 0, _ => none
  | fuel + 1, bytes =>
    match front bytes with
    | none => none
    | some (false, payload, after) => some (.string payload, after)
    | some (true, payload, after) =>
      (parseAll fuel payload).map fun items => (.list items, after)

def parseAll : Nat → Bytes → Option (List Item)
  | _, [] => some []
  | 0, _ :: _ => none
  | fuel + 1, first :: rest =>
    match parse fuel (first :: rest) with
    | none => none
    | some (item, after) => (parseAll fuel after).map fun items => item :: items

end

def decode (bytes : Bytes) : Option Item :=
  match parse (2 * bytes.length) bytes with
  | some (item, []) => some item
  | _ => none

/-! ### Lengths are read as they are written -/

variable {n : Nat}

theorem length_ofNat_le {width : Nat} (small : n < 256 ^ width) : (ofNat n).length ≤ width := by
  rw [length_le_iff (minimal_ofNat n), value_ofNat]
  exact small

theorem lengthCode_lt (small : n < 256 ^ 8) : lengthCode n < 64 := by
  have width := length_ofNat_le small
  unfold lengthCode
  split <;> omega

theorem readLength_written (rest : Bytes) :
    readLength (lengthCode n) (lengthBytes n ++ rest) = some (n, rest) := by
  unfold readLength lengthCode lengthBytes
  by_cases short : n ≤ 55
  · rw [if_pos short, if_pos short, if_pos short]
    rfl
  have nonempty : (ofNat n).length ≠ 0 := by
    intro empty
    have zero : value (ofNat n) = 0 := by rw [eq_nil_of_length_eq_zero empty, value_nil]
    rw [value_ofNat] at zero
    omega
  have width : 55 + (ofNat n).length - 55 = (ofNat n).length := by omega
  rw [if_neg short, if_neg short, if_neg (by omega), width, take_left, drop_left,
    if_neg (by rw [length_append]; omega), if_neg (minimal_ofNat n), value_ofNat,
    if_neg short]

variable {rest after : Bytes}

variable {code low : Nat}

theorem readLength_eq_some (small : code < 64) (read : readLength code rest = some (n, after)) :
    n < 256 ^ 8 ∧ code = lengthCode n ∧ rest = lengthBytes n ++ after := by
  unfold readLength at read
  unfold lengthCode lengthBytes
  by_cases short : code ≤ 55
  · rw [if_pos short, Option.some.injEq, Prod.mk.injEq] at read
    rw [← read.1, ← read.2, if_pos short, if_pos short]
    exact ⟨by norm_num; omega, rfl, rfl⟩
  rw [if_neg short] at read
  split_ifs at read with missing leading tooSmall
  rw [Option.some.injEq, Prod.mk.injEq] at read
  have width : (rest.take (code - 55)).length = code - 55 := by
    rw [length_take]
    omega
  have bound := value_lt (rest.take (code - 55))
  rw [width, read.1] at bound
  have written : ofNat n = rest.take (code - 55) := by
    rw [← read.1]
    exact ofNat_value leading
  rw [read.1] at tooSmall
  rw [if_neg tooSmall, if_neg tooSmall, written, width, ← read.2, take_append_drop]
  exact ⟨bound.trans_le (Nat.pow_le_pow_right (by decide) (by omega)), by omega, rfl⟩

/-! ### Payloads -/

theorem readPayload_written (payload rest : Bytes) :
    readPayload (lengthCode payload.length) (lengthBytes payload.length ++ (payload ++ rest)) =
      some (payload, rest) := by
  unfold readPayload
  rw [readLength_written]
  show (if (payload ++ rest).length < payload.length then none else
    some ((payload ++ rest).take payload.length, (payload ++ rest).drop payload.length)) = _
  rw [if_neg (by rw [length_append]; omega), take_left, drop_left]

variable {payload : Bytes}

theorem readPayload_eq_some (small : code < 64)
    (read : readPayload code rest = some (payload, after)) :
    payload.length < 256 ^ 8 ∧ code = lengthCode payload.length ∧
      rest = lengthBytes payload.length ++ (payload ++ after) := by
  unfold readPayload at read
  cases length : readLength code rest with
  | none => rw [length] at read; cases read
  | some announced =>
    have spec := readLength_eq_some small length
    rw [length] at read
    simp only at read
    split_ifs at read with missing
    rw [Option.some.injEq, Prod.mk.injEq] at read
    have width : payload.length = announced.1 := by
      rw [← read.1, length_take]
      omega
    rw [width, ← read.1, ← read.2, take_append_drop]
    exact spec

theorem toNat_frame (small : n < 256 ^ 8) (room : low + 64 ≤ 256) :
    (UInt8.ofNat (low + lengthCode n)).toNat = low + lengthCode n := by
  have code := lengthCode_lt small
  rw [UInt8.toNat_ofNat']
  omega

theorem length_frame (low : Nat) (payload : Bytes) :
    payload.length < (frame low payload).length := by
  unfold frame
  rw [length_cons, length_append]
  omega

theorem frame_append {first : UInt8} (here : low ≤ first.toNat)
    (code : first.toNat - low = lengthCode payload.length)
    (behind : rest = lengthBytes payload.length ++ (payload ++ after)) :
    first :: rest = frame low payload ++ after := by
  have same : low + lengthCode payload.length = first.toNat := by omega
  unfold frame
  rw [same, UInt8.ofNat_toNat, behind, cons_append, append_assoc]

/-! ### Values are read as they are written -/

theorem length_encode_pos (item : Item) : 0 < (encode item).length := by
  cases item with
  | string bytes =>
    show 0 < (encodeString bytes).length
    unfold encodeString
    split
    · rename_i single
      obtain ⟨byte, rfl, _⟩ := single
      exact Nat.one_pos
    · exact (Nat.zero_le _).trans_lt (length_frame _ _)
  | list items => exact (Nat.zero_le _).trans_lt (length_frame _ _)

variable {bytes : Bytes}

theorem encodeString_of_single (single : Single bytes) :
    encodeString bytes = bytes := if_pos single

theorem encodeString_of_not_single (several : ¬Single bytes) :
    encodeString bytes = frame 0x80 bytes := if_neg several

theorem front_cons (first : UInt8) (rest : Bytes) :
    front (first :: rest) =
      if first.toNat < 0x80 then some (false, [first], rest)
      else if first.toNat < 0xc0 then
        (readPayload (first.toNat - 0x80) rest).bind fun read =>
          if Single read.1 then none else some (false, read.1, read.2)
      else (readPayload (first.toNat - 0xc0) rest).map fun read => (true, read.1, read.2) := rfl

theorem front_string (small : bytes.length < 256 ^ 8) (rest : Bytes) :
    front (encodeString bytes ++ rest) = some (false, bytes, rest) := by
  by_cases single : Single bytes
  · obtain ⟨byte, rfl, below⟩ := single
    rw [encodeString_of_single ⟨byte, rfl, below⟩, singleton_append]
    exact if_pos below
  have code := lengthCode_lt small
  have first := toNat_frame small (show 0x80 + 64 ≤ 256 by decide)
  rw [encodeString_of_not_single single]
  unfold frame
  rw [cons_append, append_assoc, front_cons, first, if_neg (by omega),
    if_pos (by omega), Nat.add_sub_cancel_left, readPayload_written]
  exact if_neg single

theorem front_list (small : payload.length < 256 ^ 8) (rest : Bytes) :
    front (frame 0xc0 payload ++ rest) = some (true, payload, rest) := by
  have first := toNat_frame small (show 0xc0 + 64 ≤ 256 by decide)
  unfold frame
  rw [cons_append, append_assoc, front_cons, first, if_neg (by omega),
    if_neg (by omega), Nat.add_sub_cancel_left, readPayload_written]
  rfl

theorem front_eq_string (read : front bytes = some (false, payload, after)) :
    payload.length < 256 ^ 8 ∧ bytes = encodeString payload ++ after := by
  cases bytes with
  | nil => cases read
  | cons first rest =>
    rw [front_cons] at read
    have bound := first.toNat_lt
    split_ifs at read with below string
    · simp only [Option.some.injEq, Prod.mk.injEq, true_and] at read
      rw [← read.1, ← read.2, encodeString_of_single ⟨first, rfl, below⟩]
      exact ⟨by simp, rfl⟩
    · cases found : readPayload (first.toNat - 0x80) rest with
      | none => rw [found] at read; cases read
      | some _ =>
        rw [found, Option.bind_some] at read
        split_ifs at read with single
        simp only [Option.some.injEq, Prod.mk.injEq, true_and] at read
        have spec := readPayload_eq_some (by omega) found
        rw [read.1, read.2] at spec
        rw [read.1] at single
        rw [encodeString_of_not_single single]
        exact ⟨spec.1, frame_append (by omega) spec.2.1 spec.2.2⟩
    · cases found : readPayload (first.toNat - 0xc0) rest with
      | none => rw [found] at read; cases read
      | some _ => rw [found] at read; cases read

theorem front_eq_list (read : front bytes = some (true, payload, after)) :
    payload.length < 256 ^ 8 ∧ bytes = frame 0xc0 payload ++ after := by
  cases bytes with
  | nil => cases read
  | cons first rest =>
    rw [front_cons] at read
    have bound := first.toNat_lt
    split_ifs at read with below string
    · cases read
    · cases found : readPayload (first.toNat - 0x80) rest with
      | none => rw [found] at read; cases read
      | some _ =>
        rw [found, Option.bind_some] at read
        split_ifs at read
        cases read
    cases found : readPayload (first.toNat - 0xc0) rest with
    | none => rw [found] at read; cases read
    | some _ =>
      rw [found] at read
      simp only [Option.map_some, Option.some.injEq, Prod.mk.injEq, true_and] at read
      have spec := readPayload_eq_some (by omega) found
      rw [read.1, read.2] at spec
      exact ⟨spec.1, frame_append (by omega) spec.2.1 spec.2.2⟩

mutual

/-- An encoding in front of any text is read, and the text is left. -/
theorem parse_encode : ∀ (fuel : Nat) (item : Item) (rest : Bytes), Fits item →
    2 * (encode item).length ≤ fuel → parse fuel (encode item ++ rest) = some (item, rest)
  | 0, item, rest, fits, enough => by
    have positive := length_encode_pos item
    omega
  | fuel + 1, .string bytes, rest, fits, enough => by
    show parse (fuel + 1) (encodeString bytes ++ rest) = _
    unfold parse
    rw [front_string fits]
  | fuel + 1, .list items, rest, fits, enough => by
    have shorter := length_frame 0xc0 (encodeAll items)
    have whole : 2 * (frame 0xc0 (encodeAll items)).length ≤ fuel + 1 := enough
    show parse (fuel + 1) (frame 0xc0 (encodeAll items) ++ rest) = _
    unfold parse
    rw [front_list fits.1]
    simp only
    rw [parseAll_encode fuel items fits.2 (by omega)]
    rfl

theorem parseAll_encode : ∀ (fuel : Nat) (items : List Item), FitsAll items →
    2 * (encodeAll items).length + 1 ≤ fuel → parseAll fuel (encodeAll items) = some items
  | fuel, [], _, _ => by
    show parseAll fuel [] = _
    unfold parseAll
    rfl
  | 0, item :: items, fits, enough => absurd enough (Nat.not_succ_le_zero _)
  | fuel + 1, item :: items, fits, enough => by
    have positive := length_encode_pos item
    have both : 2 * (encode item ++ encodeAll items).length + 1 ≤ fuel + 1 := enough
    rw [length_append] at both
    show parseAll (fuel + 1) (encode item ++ encodeAll items) = _
    cases text : encode item ++ encodeAll items with
    | nil =>
      have none := congrArg List.length text
      rw [length_append, length_nil] at none
      omega
    | cons _ _ =>
      unfold parseAll
      rw [← text, parse_encode fuel item (encodeAll items) fits.1 (by omega)]
      simp only
      rw [parseAll_encode fuel items fits.2 (by omega)]
      rfl

end

mutual

theorem parse_eq_some : ∀ (fuel : Nat) (bytes : Bytes) (item : Item) (after : Bytes),
    parse fuel bytes = some (item, after) → Fits item ∧ bytes = encode item ++ after
  | 0, _, _, _, read => nomatch read
  | fuel + 1, bytes, item, after, read => by
    unfold parse at read
    cases found : front bytes with
    | none => rw [found] at read; cases read
    | some parts =>
      have ⟨isList, payload, _⟩ := parts
      rw [found] at read
      cases isList with
      | false =>
        simp only [Option.some.injEq, Prod.mk.injEq] at read
        rw [← read.1, ← read.2]
        exact front_eq_string found
      | true =>
        have spec := front_eq_list found
        cases inside : parseAll fuel payload with
        | none => simp only [inside] at read; cases read
        | some items =>
          have parts := parseAll_eq_some fuel payload items inside
          simp only [inside, Option.map_some, Option.some.injEq, Prod.mk.injEq] at read
          rw [← read.1, ← read.2]
          rw [parts.2] at spec
          exact ⟨⟨spec.1, parts.1⟩, spec.2⟩

theorem parseAll_eq_some : ∀ (fuel : Nat) (bytes : Bytes) (items : List Item),
    parseAll fuel bytes = some items → FitsAll items ∧ bytes = encodeAll items
  | fuel, [], items, read => by
    unfold parseAll at read
    rw [← Option.some.inj read]
    exact ⟨trivial, rfl⟩
  | 0, _ :: _, _, read => nomatch read
  | fuel + 1, first :: rest, items, read => by
    unfold parseAll at read
    cases found : parse fuel (first :: rest) with
    | none => rw [found] at read; cases read
    | some parts =>
      have front := parse_eq_some fuel (first :: rest) parts.1 parts.2 found
      cases others : parseAll fuel parts.2 with
      | none => simp only [found, others] at read; cases read
      | some rest' =>
        have behind := parseAll_eq_some fuel parts.2 rest' others
        simp only [found, others, Option.map_some, Option.some.injEq] at read
        rw [← read, front.2]
        exact ⟨⟨front.1, behind.1⟩, congrArg (encode parts.1 ++ ·) behind.2⟩

end

/-! ### The code -/

variable {item : Item}

/-- A text is an encoding of a value exactly if the value is read from it. -/
theorem decode_eq_some_iff : decode bytes = some item ↔ Fits item ∧ bytes = encode item := by
  unfold decode
  constructor
  · intro read
    cases found : parse (2 * bytes.length) bytes with
    | none => rw [found] at read; cases read
    | some parts =>
      have ⟨first, after⟩ := parts
      have spec := parse_eq_some _ _ _ _ found
      rw [found] at read
      cases after with
      | nil =>
        rw [← Option.some.inj read, ← append_nil (encode first)]
        exact spec
      | cons _ _ => cases read
  · rintro ⟨fits, rfl⟩
    have read := parse_encode (2 * (encode item).length) item [] fits (Nat.le_refl _)
    rw [append_nil] at read
    rw [read]

theorem decode_encode (fits : Fits item) : decode (encode item) = some item :=
  decode_eq_some_iff.2 ⟨fits, rfl⟩

variable {left right : Item}

theorem encode_append_eq {leftRest rightRest : Bytes} (leftFits : Fits left)
    (rightFits : Fits right) (same : encode left ++ leftRest = encode right ++ rightRest) :
    left = right ∧ leftRest = rightRest := by
  have fuel := Nat.le_max_left (2 * (encode left).length) (2 * (encode right).length)
  have fuel' := Nat.le_max_right (2 * (encode left).length) (2 * (encode right).length)
  have leftRead := parse_encode _ left leftRest leftFits fuel
  have rightRead := parse_encode _ right rightRest rightFits fuel'
  rw [same, rightRead, Option.some.injEq, Prod.mk.injEq] at leftRead
  exact ⟨leftRead.1.symm, leftRead.2.symm⟩

theorem decode_append (front : decode bytes = some left)
    (whole : decode (bytes ++ rest) = some right) : rest = [] := by
  have leftSpec := decode_eq_some_iff.1 front
  have rightSpec := decode_eq_some_iff.1 whole
  have same : encode left ++ rest = encode right ++ [] := by
    rw [append_nil, ← rightSpec.2, leftSpec.2]
  exact (encode_append_eq leftSpec.1 rightSpec.1 same).2

end Infernode.Rlp
