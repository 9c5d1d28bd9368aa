import Mathlib.Data.List.Basic
import Mathlib.Tactic.Common
import Mathlib.Tactic.Ring

/-!
Contract: little-endian fields of a byte stream.

Owns: `le`, the bytes of a number; `rd`, the number at the front of a stream and
the bytes after it; `take`, a run of bytes; their round trips and the lengths that
they consume; and `put`, a write into a byte array, with the arrays that are filled
from the front.
-/

namespace Infernode.Wire

open List Option

abbrev Bytes := List Nat

def IsBytes (bytes : Bytes) : Prop := ∀ b ∈ bytes, b < 256

theorem IsBytes.append {left right : Bytes} (first : IsBytes left) (second : IsBytes right) :
    IsBytes (left ++ right) :=
  fun b member => (mem_append.1 member).elim (first b) (second b)

theorem IsBytes.take {f : Bytes} (bytes : IsBytes f) (n : Nat) : IsBytes (f.take n) :=
  fun b member => bytes b (mem_of_mem_take member)

theorem IsBytes.drop {f : Bytes} (bytes : IsBytes f) (n : Nat) : IsBytes (f.drop n) :=
  fun b member => bytes b (mem_of_mem_drop member)

instance (bytes : Bytes) : Decidable (IsBytes bytes) := by
  unfold IsBytes
  infer_instance

/-- The `k` low bytes of a number, least significant first. -/
def le : Nat → Nat → Bytes
  | 0, _ => []
  | k + 1, v => v % 256 :: le k (v / 256)

def rd : Nat → Bytes → Option (Nat × Bytes)
  | 0, r => some (0, r)
  | _ + 1, [] => none
  | k + 1, b :: r => (rd k r).map fun (v, rest) => (b + 256 * v, rest)

def take (n : Nat) (r : Bytes) : Option (Bytes × Bytes) :=
  if n ≤ r.length then some (r.take n, r.drop n) else none

@[simp] theorem length_le (k : Nat) : ∀ v, (le k v).length = k := by
  induction k with
  | zero => exact fun _ => rfl
  | succ _ ih =>
    intro _
    rw [le, length_cons, ih]

theorem isBytes_le (k : Nat) : ∀ v, IsBytes (le k v) := by
  induction k with
  | zero => exact fun _ b member => absurd member not_mem_nil
  | succ _ ih =>
    intro _
    exact forall_mem_cons.2 ⟨Nat.mod_lt _ (by decide), ih _⟩

/-- A number of `k` bytes is read back. -/
theorem rd_le (k : Nat) : ∀ {v : Nat} (rest : Bytes), v < 256 ^ k →
    rd k (le k v ++ rest) = some (v, rest) := by
  induction k with
  | zero =>
    intro v rest small
    rw [Nat.pow_zero] at small
    rw [Nat.lt_one_iff.1 small]
    rfl
  | succ _ ih =>
    intro v rest small
    rw [le, cons_append, rd, ih rest, map_some]
    · simp only [Option.some.injEq, Prod.mk.injEq, and_true]
      exact Nat.mod_add_div v 256
    · rw [pow_succ, Nat.mul_comm] at small
      exact Nat.div_lt_of_lt_mul small

/-- Of a larger number the low bytes are read back. -/
theorem rd_le_mod (k : Nat) : ∀ (v : Nat) (rest : Bytes),
    rd k (le k v ++ rest) = some (v % 256 ^ k, rest) := by
  induction k with
  | zero =>
    intro v rest
    rw [Nat.pow_zero, Nat.mod_one]
    rfl
  | succ _ ih =>
    intro v rest
    rw [le, cons_append, rd, ih (v / 256) rest, map_some, pow_succ,
      Nat.mul_comm, Nat.mod_mul]

theorem take_append (bytes rest : Bytes) :
    take bytes.length (bytes ++ rest) = some (bytes, rest) := by
  rw [take, if_pos (by simp), take_left, drop_left]

variable {k v n : Nat} {α γ : Type}

/-- What is read leaves the tail of the stream. -/
theorem rd_eq_some : ∀ {r rest : Bytes}, rd k r = some (v, rest) →
    rest = r.drop k ∧ k ≤ r.length := by
  induction k generalizing v with
  | zero =>
    intro r rest read
    cases read
    exact ⟨rfl, Nat.zero_le _⟩
  | succ _ ih =>
    intro r _ read
    cases r with
    | nil => cases read
    | cons _ _ =>
      have ⟨⟨w, more⟩, later, same⟩ := map_eq_some_iff.1 read
      cases same
      have ⟨tail, enough⟩ := ih later
      exact ⟨tail, Nat.succ_le_succ enough⟩

variable {r rest : Bytes}

theorem rd_length (read : rd k r = some (v, rest)) : r.length = k + rest.length := by
  obtain ⟨rfl, _⟩ := rd_eq_some read
  rw [length_drop]
  omega

theorem rd_lt : ∀ {r rest : Bytes}, IsBytes r → rd k r = some (v, rest) →
    v < 256 ^ k := by
  induction k generalizing v with
  | zero =>
    intro r rest _ read
    cases read
    decide
  | succ _ ih =>
    intro r _ bytes read
    cases r with
    | nil => cases read
    | cons b _ =>
      have ⟨⟨w, more⟩, later, same⟩ := map_eq_some_iff.1 read
      cases same
      have high := ih (forall_mem_cons.1 bytes).2
        later
      have low := bytes b (by simp)
      rw [pow_succ]
      omega

theorem exists_rd : ∀ {r : Bytes}, k ≤ r.length → ∃ v, rd k r = some (v, r.drop k) := by
  induction k with
  | zero => exact fun _ => ⟨0, rfl⟩
  | succ _ ih =>
    intro r enough
    cases r with
    | nil => exact absurd enough (by simp)
    | cons b _ =>
      have ⟨v, read⟩ := ih (Nat.le_of_succ_le_succ enough)
      exact ⟨b + 256 * v, by rw [rd, read]; rfl⟩

theorem rd_eq_none (short : r.length < k) : rd k r = none := by
  cases read : rd k r with
  | none => rfl
  | some found =>
    have ⟨_, _⟩ := found
    have sized := rd_length read
    omega

variable {bytes : Bytes}

theorem take_eq_some (read : take n r = some (bytes, rest)) :
    bytes = r.take n ∧ rest = r.drop n ∧ n ≤ r.length := by
  unfold take at read
  split_ifs at read with enough
  cases read
  exact ⟨rfl, rfl, enough⟩

variable {β : Type} {x : Option α} {size : Nat}

theorem andThen {f : α → Option β} {a : α} {c : Option β} (first : x = some a) (next : f a = c) :
    x.bind f = c := by
  rw [first]
  exact next

theorem failed {f : α → Option β} (first : x = none) : x.bind f = none := by
  rw [first]
  rfl

/-- A reader that gives a value only where the stream has at least `n` bytes. -/
def Needs {γ : Type} (n : Nat) (r : Bytes) (read : Option γ) : Prop :=
  ∀ found, read = some found → n ≤ r.length

theorem needs_zero {read : Option γ} : Needs 0 r read :=
  fun _ _ => Nat.zero_le _

/-- What comes after a reader that takes `k` bytes needs the bytes behind them. -/
theorem Needs.bind {α γ : Type} {k n : Nat} {r : Bytes} {first : Option (α × Bytes)}
    {next : α × Bytes → Option γ}
    (takes : ∀ a rest, first = some (a, rest) → rest.length + k ≤ r.length)
    (later : ∀ a rest, Needs n rest (next (a, rest))) : Needs (k + n) r (first.bind next) := by
  intro found read
  have ⟨⟨a, rest⟩, one, others⟩ := bind_eq_some_iff.1 read
  have enough := takes a rest one
  have more := later a rest found others
  omega

theorem Needs.rd {next : Nat × Bytes → Option γ} (later : ∀ v rest, Needs n rest (next (v, rest))) :
    Needs (k + n) r ((rd k r).bind next) := by
  refine Needs.bind (fun v rest read => ?_) later
  rw [rd_length read]
  omega

/-! ### Only what was written is read -/

theorem le_of_rd : ∀ {r rest : Bytes}, IsBytes r → rd k r = some (v, rest) →
    r = le k v ++ rest ∧ v < 256 ^ k ∧ IsBytes rest := by
  induction k generalizing v with
  | zero =>
    intro r rest bytes read
    cases read
    exact ⟨rfl, by decide, bytes⟩
  | succ _ ih =>
    intro r _ bytes read
    have small := rd_lt bytes read
    cases r with
    | nil => cases read
    | cons b _ =>
      have ⟨⟨w, more⟩, later, same⟩ := map_eq_some_iff.1 read
      cases same
      have low := bytes b (by simp)
      obtain ⟨rfl, -, bytesRest⟩ := ih
        (forall_mem_cons.1 bytes).2 later
      have remainder : (b + 256 * w) % 256 = b := by omega
      have quotient : (b + 256 * w) / 256 = w := by omega
      refine ⟨?_, small, bytesRest⟩
      rw [le, remainder, quotient, cons_append]

theorem eq_of_take (isBytes : IsBytes r) (read : take n r = some (bytes, rest)) :
    r = bytes ++ rest ∧ bytes.length = n ∧ IsBytes rest := by
  obtain ⟨rfl, rfl, enough⟩ := take_eq_some read
  refine ⟨(take_append_drop n r).symm, length_take_of_le enough, ?_⟩
  exact fun b member => isBytes b (mem_of_mem_drop member)

theorem of_bind {first : Option (α × Bytes)} {next : α × Bytes → Option γ} {found : γ}
    {written : α → Bytes → Prop} (read : first.bind next = some found)
    (gives : ∀ {a rest}, first = some (a, rest) → written a rest) :
    ∃ a rest, written a rest ∧ next (a, rest) = some found := by
  have ⟨⟨a, rest⟩, one, others⟩ := bind_eq_some_iff.1 read
  exact ⟨a, rest, gives one, others⟩

/-! ### Arrays that are filled -/

/-- Write bytes into an array; a write that does not fit fails. -/
def put (d : Bytes) (o : Nat) (bytes : Bytes) : Option Bytes :=
  if o + bytes.length ≤ d.length then some (d.take o ++ bytes ++ d.drop (o + bytes.length))
  else none

/-- An array of so many bytes with its first ones written. -/
def filled (done : Bytes) (size : Nat) : Bytes := done ++ List.replicate (size - done.length) 0

theorem filled_nil (size : Nat) : filled [] size = List.replicate size 0 := rfl

variable {done : Bytes}

theorem filled_full (full : done.length = size) : filled done size = done := by
  simp [filled, full]

theorem put_filled {o : Nat} (next : o = done.length) (fits : done.length + bytes.length ≤ size) :
    put (filled done size) o bytes = some (filled (done ++ bytes) size) := by
  subst next
  have sized : (filled done size).length = size := by
    simp only [filled, length_append, length_replicate]
    omega
  have rest : size - done.length - bytes.length = size - (done ++ bytes).length := by
    rw [length_append]
    omega
  rw [put, if_pos (by omega)]
  congr 1
  rw [filled, take_left, ← drop_drop, drop_left, drop_replicate, rest]
  rfl

end Infernode.Wire
