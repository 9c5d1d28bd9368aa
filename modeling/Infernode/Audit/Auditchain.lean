import Infernode.Lib9.Rune
import Infernode.Text.Tokens
import Mathlib.Tactic.IntervalCases

/-!
The hash chain of `appl/lib/auditchain.b`: the canonical text of a record, the
extension of the chain by a record, and the hexadecimal spelling of a hash.

Owns: `genesis`, `extend`, `canon`, `hex`, and the injectivity of the canonical
text and of the spelling.

Does not own: SHA-256 itself (`keyring->sha256`), which is a parameter with the
length of its digests; nor any file format.
-/

namespace Infernode.Auditchain

open Text Lib9 List

/-- `HASHLEN`, the bytes of a SHA-256 digest. -/
def HASHLEN : Nat := 32

/-- `keyring->sha256`: digests are `HASHLEN` bytes. -/
structure Sha256 where
  digest : List Nat → List Nat
  length_digest : ∀ bytes, (digest bytes).length = HASHLEN
  byte_digest : ∀ bytes, ∀ b ∈ digest bytes, b < 256

def GENESIS : Str := str "infernode-audit-v1"

section Chain

variable (sha : Sha256)

def genesis : List Nat := sha.digest (cvtca GENESIS)

def extend (prev record : List Nat) : List Nat := sha.digest (prev ++ record)

end Chain

/-- `sprint("%d %d %s %s %s", seq, t, source, event, msg)`. -/
def canon (seq t : Int) (source event msg : Str) : Str :=
  decimal seq ++ 32 :: (decimal t ++ 32 :: (cstr source ++ 32 :: (cstr event ++ 32 :: cstr msg)))

def hexchar (digit : Nat) : Nat := (str "0123456789abcdef").getD digit 0

def hex (hash : List Nat) : Str :=
  hash.flatMap fun byte => [hexchar (byte / 16 % 16), hexchar (byte % 16)]

def hexval (c : Nat) : Nat :=
  if 48 ≤ c ∧ c ≤ 57 then c - 48
  else if 97 ≤ c ∧ c ≤ 102 then c - 97 + 10
  else if 65 ≤ c ∧ c ≤ 70 then c - 65 + 10
  else 0

theorem hexchar_bounds {digit : Nat} (small : digit < 16) :
    32 < hexchar digit ∧ hexchar digit < 128 := by
  interval_cases digit <;> decide

theorem hexval_hexchar {digit : Nat} (small : digit < 16) : hexval (hexchar digit) = digit := by
  interval_cases digit <;> rfl

theorem mem_hex {hash : List Nat} {c : Nat} (member : c ∈ hex hash) :
    32 < c ∧ c < 128 := by
  have ⟨_, _, inPair⟩ := mem_flatMap.1 member
  rcases mem_cons.1 inPair with rfl | inPair
  · exact hexchar_bounds (Nat.mod_lt _ (by decide))
  · rw [mem_singleton.1 inPair]
    exact hexchar_bounds (Nat.mod_lt _ (by decide))

theorem length_hex (hash : List Nat) : (hex hash).length = 2 * hash.length := by
  induction hash with
  | nil => rfl
  | cons _ _ ih =>
    simp only [hex, flatMap_cons, length_append, length_cons,
      length_nil] at ih ⊢
    omega

theorem hex_injective {left right : List Nat} (leftBytes : ∀ b ∈ left, b < 256)
    (rightBytes : ∀ b ∈ right, b < 256) (same : hex left = hex right) : left = right := by
  induction left generalizing right with
  | nil =>
    cases right with
    | nil => rfl
    | cons _ _ => simp [hex] at same
  | cons byte _ ih =>
    cases right with
    | nil => simp [hex] at same
    | cons other _ =>
      simp only [hex, flatMap_cons, cons_append, nil_append,
        List.cons.injEq] at same
      have ⟨high, low, later⟩ := same
      have highEq := congrArg hexval high
      have lowEq := congrArg hexval low
      rw [hexval_hexchar (Nat.mod_lt _ (by decide)),
        hexval_hexchar (Nat.mod_lt _ (by decide))] at highEq lowEq
      have byteSmall := leftBytes byte (by simp)
      have otherSmall := rightBytes other (by simp)
      have headEq : byte = other := by omega
      rw [headEq, ih (forall_mem_cons.1 leftBytes).2
        (forall_mem_cons.1 rightBytes).2 later]

/-! ### The canonical text determines the record -/

theorem decimal_bounds {n : Int} {c : Nat} (member : c ∈ decimal n) :
    32 < c ∧ c < 128 := by
  rcases mem_decimal member with digit | rfl
  · simp only [isDigit, Bool.and_eq_true, decide_eq_true_eq] at digit
    omega
  · decide

theorem blank_notMem_decimal (n : Int) : 32 ∉ decimal n := fun member =>
  absurd (decimal_bounds member).1 (lt_irrefl _)

private theorem append_blank_inj {left right leftRest rightRest : Str} (leftClean : 32 ∉ left)
    (rightClean : 32 ∉ right) (same : left ++ 32 :: leftRest = right ++ 32 :: rightRest) :
    left = right ∧ leftRest = rightRest := by
  have clean : ∀ s : Str, 32 ∉ s → ∀ c ∈ s, (c == 32) = false := by
    intro _ absent c member
    have other : c ≠ 32 := fun isBlank => absent (isBlank ▸ member)
    simpa using other
  have ⟨before, _, after⟩ :=
    append_delim_inj (clean left leftClean) (clean right rightClean) (by rfl) (by rfl) same
  exact ⟨before, after⟩

/-- Records whose source and event are single words have the same canonical text
only when every field, as far as `%s` copies it, is the same. -/
theorem canon_inj {seq t seq' t' : Int} {source event msg source' event' msg' : Str}
    (sourceWord : 32 ∉ source) (eventWord : 32 ∉ event) (sourceWord' : 32 ∉ source')
    (eventWord' : 32 ∉ event')
    (same : canon seq t source event msg = canon seq' t' source' event' msg') :
    seq = seq' ∧ t = t' ∧ cstr source = cstr source' ∧ cstr event = cstr event' ∧
      cstr msg = cstr msg' := by
  have cstrClean : ∀ s : Str, 32 ∉ s → 32 ∉ cstr s :=
    fun s clean member => clean ((cstr_sublist s).subset member)
  unfold canon at same
  have ⟨seqEq, same⟩ := append_blank_inj (blank_notMem_decimal seq) (blank_notMem_decimal seq') same
  have ⟨timeEq, same⟩ := append_blank_inj (blank_notMem_decimal t) (blank_notMem_decimal t') same
  have ⟨sourceEq, same⟩ :=
    append_blank_inj (cstrClean source sourceWord) (cstrClean source' sourceWord') same
  have ⟨eventEq, msgEq⟩ :=
    append_blank_inj (cstrClean event eventWord) (cstrClean event' eventWord') same
  exact ⟨decimal_injective seqEq, decimal_injective timeEq, sourceEq, eventEq, msgEq⟩

theorem length_genesis_lt (sha : Sha256) (bytes record : List Nat) :
    (cvtca GENESIS).length < (sha.digest bytes ++ record).length := by
  have short : (cvtca GENESIS).length = 18 := by decide
  rw [length_append, sha.length_digest, short]
  unfold HASHLEN
  omega

end Infernode.Auditchain
