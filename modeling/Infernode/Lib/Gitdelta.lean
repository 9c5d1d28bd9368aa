import Mathlib.Algebra.Group.Nat.Defs
import Mathlib.Tactic.SplitIfs

/-!
The deltas of `appl/lib/git/git.b`.

Owns: `readvarint` and `applydelta` with the words, the bounds tests and the exceptions of the
virtual machine, and what the format says a delta makes of a base.

Does not own: how a delta is found and inflated. Whether there is memory for an array is a
parameter.
-/

namespace Infernode.Gitdelta

abbrev Bytes := List UInt8

/-- An array of bytes; its length is an `int`. -/
structure Buffer where
  bytes : Bytes
  short : bytes.length < 2 ^ 31
deriving DecidableEq

abbrev Word := BitVec 32

/-- The `int` that a number becomes. -/
def signed (n : Nat) : Int := (BitVec.ofNat 32 n).toInt

inductive Outcome where
  | ok (result : Bytes)
  | error (err : String)
  | raised
deriving DecidableEq, Repr

/-! ### The code -/

/-- `readvarint` from a shift and a value on. The machine shifts by the low six bits of the
count; at the end of the data the value is what it is. -/
def readvarint : Bytes → Nat → Word → Word × Bytes
  | [], _, val => (val, [])
  | b :: data, shift, val =>
    let val := val ||| BitVec.ofNat 32 (b.toNat % 128) <<< (shift % 64)
    if b.toNat < 128 then (val, data) else readvarint data (shift + 7) val

/-- `val |= int delta[off++] << shift`, where the command has the operand. Beyond the end of the
delta the index raises an exception. -/
def operand (present : Bool) (shift : Nat) (val : Word) (data : Bytes) : Option (Word × Bytes) :=
  if present then
    match data with
    | [] => none
    | b :: data => some (val ||| BitVec.ofNat 32 b.toNat <<< shift, data)
  else some (val, data)

/-- `cpoff` and `cpsize` of a copy. -/
def operands (cmd : UInt8) (data : Bytes) : Option (Word × Word × Bytes) := do
  let (cpoff, data) ← operand (cmd.toNat.testBit 0) 0 0 data
  let (cpoff, data) ← operand (cmd.toNat.testBit 1) 8 cpoff data
  let (cpoff, data) ← operand (cmd.toNat.testBit 2) 16 cpoff data
  let (cpoff, data) ← operand (cmd.toNat.testBit 3) 24 cpoff data
  let (cpsize, data) ← operand (cmd.toNat.testBit 4) 0 0 data
  let (cpsize, data) ← operand (cmd.toNat.testBit 5) 8 cpsize data
  let (cpsize, data) ← operand (cmd.toNat.testBit 6) 16 cpsize data
  some (cpoff, if cpsize = 0 then 0x10000 else cpsize, data)

variable {data data' : Bytes}

theorem operand_length {present : Bool} {shift : Nat} {val val' : Word}
    (read : operand present shift val data = some (val', data')) : data'.length ≤ data.length := by
  unfold operand at read
  split at read
  · cases data with
    | nil => cases read
    | cons _ _ =>
      cases read
      exact Nat.le_succ _
  · cases read
    exact Nat.le_refl _

variable {cmd : UInt8} {n : Nat}

theorem operands_length {cpoff cpsize : Word}
    (read : operands cmd data = some (cpoff, cpsize, data')) : data'.length ≤ data.length := by
  simp only [operands, Option.bind_eq_bind, Option.bind_eq_some_iff, Prod.exists] at read
  have ⟨_, _, r0, _, _, r1, _, _, r2, _, _, r3, _, _, r4, _, _, r5, _, _, r6, last⟩ := read
  have l0 := operand_length r0
  have l1 := operand_length r1
  have l2 := operand_length r2
  have l3 := operand_length r3
  have l4 := operand_length r4
  have l5 := operand_length r5
  have l6 := operand_length r6
  cases last
  omega

/-- The commands from some data on, the last of `total` bytes; `out` is what has been written of
the result. A copy from beyond the base or to beyond the result raises an exception. -/
def commands (base : Buffer) (tgtsize : Word) (total : Nat) (out : Bytes) : Bytes → Outcome
  | [] =>
    if out.length = tgtsize.toInt then .ok out
    else .error s!"delta: result size mismatch {out.length} vs {tgtsize.toInt}"
  | cmd :: data =>
    let roff := BitVec.ofNat 32 out.length
    if 128 ≤ cmd.toNat then
      match _read : operands cmd data with
      | none => .raised
      | some (cpoff, cpsize, behind) =>
        if base.bytes.length < (cpoff + cpsize).toInt then .error "delta copy out of bounds"
        else if tgtsize.toInt < (roff + cpsize).toInt then .error "delta result overflow"
        else if cpoff.toInt < 0 ∨ base.bytes.length < cpoff.toNat + cpsize.toNat ∨
            tgtsize.toInt < out.length + cpsize.toNat then .raised
        else
          commands base tgtsize total
            (out ++ (base.bytes.drop cpoff.toNat).take cpsize.toNat) behind
    else if cmd ≠ 0 then
      let n := cmd.toNat
      let off := total - data.length
      if total < (BitVec.ofNat 32 off + BitVec.ofNat 32 n).toInt then
        .error "delta insert out of bounds"
      else if tgtsize.toInt < (roff + BitVec.ofNat 32 n).toInt then
        .error "delta result overflow"
      else if data.length < n ∨ tgtsize.toInt < out.length + n then .raised
      else commands base tgtsize total (out ++ data.take n) (data.drop n)
    else .error "delta: reserved command 0"
termination_by data => data.length
decreasing_by
  · have shorter := operands_length _read
    simp only [List.length_cons]
    omega
  · simp only [List.length_cons, List.length_drop]
    omega

section Applydelta

variable (heap : Nat → Bool)

def applydelta (base delta : Buffer) : Outcome :=
  if delta.bytes.length < 2 then .error "delta too short"
  else
    let (srcsize, data) := readvarint delta.bytes 0 0
    if srcsize.toInt ≠ base.bytes.length then
      .error s!"delta source size mismatch: {srcsize.toInt} vs {base.bytes.length}"
    else
      let (tgtsize, data) := readvarint data 0 0
      if tgtsize.toInt < 0 ∨ heap tgtsize.toNat = false then .raised
      else commands base tgtsize delta.bytes.length [] data

end Applydelta

/-! ### The format -/

/-- A size in at most so many bytes: seven bits in each, the least first, and the top bit in all
but the last. -/
def size : Nat → Bytes → Option (Nat × Bytes)
  | 0, _ => none
  | _, [] => none
  | most + 1, b :: data =>
    if b.toNat < 128 then some (b.toNat, data)
    else (size most data).map fun (n, data) => (b.toNat % 128 + 128 * n, data)

/-- A number of which the bytes that are zero may be left out, the least first. -/
def field : List Bool → Bytes → Option (Nat × Bytes)
  | [], data => some (0, data)
  | false :: more, data => (field more data).map fun (n, data) => (256 * n, data)
  | true :: _, [] => none
  | true :: more, b :: data => (field more data).map fun (n, data) => (b.toNat + 256 * n, data)

/-- Offset and size of a copy; a size of zero is 2^16. -/
def copy (cmd : UInt8) (data : Bytes) : Option (Nat × Nat × Bytes) := do
  let (off, data) ← field
    [cmd.toNat.testBit 0, cmd.toNat.testBit 1, cmd.toNat.testBit 2, cmd.toNat.testBit 3] data
  let (n, data) ← field [cmd.toNat.testBit 4, cmd.toNat.testBit 5, cmd.toNat.testBit 6] data
  some (off, if n = 0 then 0x10000 else n, data)

theorem field_length {flags : List Bool} (read : field flags data = some (n, data')) :
    data'.length ≤ data.length := by
  induction flags generalizing n data with
  | nil =>
    cases read
    exact Nat.le_refl _
  | cons flag _ ih =>
    cases flag with
    | false =>
      have ⟨⟨m, left⟩, more, same⟩ := Option.map_eq_some_iff.1 read
      cases same
      exact ih more
    | true =>
      cases data with
      | nil => cases read
      | cons _ _ =>
        have ⟨⟨m, left⟩, more, same⟩ := Option.map_eq_some_iff.1 read
        cases same
        exact Nat.le_succ_of_le (ih more)

theorem copy_length {off : Nat} (read : copy cmd data = some (off, n, data')) :
    data'.length ≤ data.length := by
  simp only [copy, Option.bind_eq_bind, Option.bind_eq_some_iff, Prod.exists] at read
  have ⟨_, _, r0, _, _, r1, last⟩ := read
  have l0 := field_length r0
  have l1 := field_length r1
  cases last
  omega

/-- The copies and inserts one after the other. -/
def build (base : Bytes) : Bytes → Option Bytes
  | [] => some []
  | cmd :: data =>
    if 128 ≤ cmd.toNat then
      match _read : copy cmd data with
      | none => none
      | some (off, n, behind) =>
        if off + n ≤ base.length then
          (build base behind).map fun more => (base.drop off).take n ++ more
        else none
    else if cmd ≠ 0 then
      if cmd.toNat ≤ data.length then
        (build base (data.drop cmd.toNat)).map fun more => data.take cmd.toNat ++ more
      else none
    else none
termination_by data => data.length
decreasing_by
  · have shorter := copy_length _read
    simp only [List.length_cons]
    omega
  · simp only [List.length_cons, List.length_drop]
    omega

def patch (base delta : Bytes) : Option Bytes := do
  let (source, data) ← size 5 delta
  let (target, data) ← size 5 data
  let result ← build base data
  if source = base.length ∧ target = result.length ∧ target < 2 ^ 31 then some result else none

end Infernode.Gitdelta
