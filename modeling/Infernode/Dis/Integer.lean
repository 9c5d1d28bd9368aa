import Infernode.Dis.Xec

/-!
What the integer instructions compute.

Owns: the integer that each instruction should store, wrapped to the width of its result; the
operands for which it does so; and the words with a sign.
-/

namespace Infernode.Dis

open Twos BitVec

/-! ### The operations on integers -/

/-- What an operation on integers gives: a division by zero, an integer, or nothing that the
manual defines. -/
inductive Value where
  | zdiv
  | is (t : Int)
  | undefined

/-- An integer scaled by a power of two, rounded down. -/
def shift (t p : Int) : Int :=
  if 0 ≤ p then t * 2 ^ p.toNat else t / 2 ^ (-p).toNat

def quot (t u : Int) : Value := if u = 0 then .zdiv else .is (t.tdiv u)

def rem (t u : Int) : Value := if u = 0 then .zdiv else .is (t.tmod u)

def counted (bits : Nat) (n : Int) (t : Int) : Value :=
  if 0 ≤ n ∧ n ≤ bits then .is t else .undefined

def power (x n : Int) : Value :=
  if 0 ≤ n then .is (x ^ n.toNat) else quot 1 (x ^ (-n).toNat)

/-- A division in fixed point: the product `t`, rounded up before it is scaled by `p` if
`rounds`, with `v` added, is divided by `a`, and `u` is added. -/
structure Fixed where
  zero : Bool
  rounds : Bool
  t : Int
  p : Int
  v : Int
  a : Int
  u : Int

def Fixed.product (f : Fixed) : Int := f.t + if f.rounds then shift 1 (-f.p) - 1 else 0

def Fixed.dividend (f : Fixed) : Int := shift f.product f.p + f.v

def Fixed.value (f : Fixed) : Value :=
  if f.a = 0 then .zdiv
  else if f.zero then .is 0
  else .is (f.dividend.tdiv f.a + f.u)

/-- The number to add before a division by `a` so that the quotient is rounded up. -/
def roundup (p : Int) (a : Int) (below : Prop) [Decidable below] : Int :=
  if p / 2 % 2 = 1 then if below then -(a - 1) else a - 1 else 0

def fixed : Instruction → REG → Option Fixed
  | .divx, r => some ⟨false, false, r.m.W.toInt, r.Dtmp.toInt, 0, r.s.W.toInt, 0⟩
  | .mulx0, r => some ⟨r.m.W = 0 ∨ r.s.W = 0, false, r.m.W.toInt * r.s.W.toInt, r.Dtmp.toInt, 0,
      r.Stmp.toInt, 0⟩
  | .divx0, r => some ⟨r.m.W = 0, false, r.Stmp.toInt * r.m.W.toInt, r.Dtmp.toInt, 0,
      r.s.W.toInt, 0⟩
  | .cvtxx0, r => some ⟨r.s.W = 0, false, r.s.W.toInt, r.m.W.toInt, 0, r.Stmp.toInt, 0⟩
  | .mulx1, r =>
    let x := r.m.W.toInt
    let y := r.s.W.toInt
    let p := r.Dtmp.toInt
    let up := p / 2 % 2 = 1
    some ⟨x = 0 ∨ y = 0, p % 2 = 1 ∧ ((¬up ∧ x * y < 0) ∨ (up ∧ 0 < x * y)), x * y, p / 4,
      roundup p r.Stmp.toInt (x * y < 0), r.Stmp.toInt, 0⟩
  | .divx1, r =>
    let x := r.m.W.toInt
    let y := r.s.W.toInt
    let p := r.Dtmp.toInt
    some ⟨x = 0, p % 2 = 1 ∧ x < 0, r.Stmp.toInt * x, p / 4, 0, y,
      if p / 2 % 2 = 1 then if (0 < x ∧ y < 0) ∨ (x < 0 ∧ 0 ≤ y) then -1 else 1 else 0⟩
  | .cvtxx1, r =>
    let x := r.s.W.toInt
    let p := r.m.W.toInt
    let up := p / 2 % 2 = 1
    some ⟨x = 0, p % 2 = 1 ∧ ((¬up ∧ x < 0) ∨ (up ∧ 0 < x)), x, p / 4,
      roundup p r.Stmp.toInt (x < 0), r.Stmp.toInt, 0⟩
  | _, _ => none

/-- The integer that an instruction computes. -/
def value : Instruction → REG → Value
  | .addb, r => .is (r.m.B.toNat + r.s.B.toNat)
  | .addw, r => .is (r.m.W.toInt + r.s.W.toInt)
  | .addl, r => .is (r.m.V.toInt + r.s.V.toInt)
  | .subb, r => .is (r.m.B.toNat - r.s.B.toNat)
  | .subw, r => .is (r.m.W.toInt - r.s.W.toInt)
  | .subl, r => .is (r.m.V.toInt - r.s.V.toInt)
  | .mulb, r => .is (r.m.B.toNat * r.s.B.toNat)
  | .mulw, r => .is (r.m.W.toInt * r.s.W.toInt)
  | .mull, r => .is (r.m.V.toInt * r.s.V.toInt)
  | .divb, r => quot r.m.B.toNat r.s.B.toNat
  | .divw, r => quot r.m.W.toInt r.s.W.toInt
  | .divl, r => quot r.m.V.toInt r.s.V.toInt
  | .modb, r => rem r.m.B.toNat r.s.B.toNat
  | .modw, r => rem r.m.W.toInt r.s.W.toInt
  | .modl, r => rem r.m.V.toInt r.s.V.toInt
  | .andb, r => .is ((r.m.B.toNat &&& r.s.B.toNat : Nat) : Int)
  | .andw, r => .is (r.m.W.toInt.land r.s.W.toInt)
  | .andl, r => .is (r.m.V.toInt.land r.s.V.toInt)
  | .xorb, r => .is ((r.m.B.toNat ^^^ r.s.B.toNat : Nat) : Int)
  | .xorw, r => .is (r.m.W.toInt.xor r.s.W.toInt)
  | .xorl, r => .is (r.m.V.toInt.xor r.s.V.toInt)
  | .orb, r => .is ((r.m.B.toNat ||| r.s.B.toNat : Nat) : Int)
  | .orw, r => .is (r.m.W.toInt.lor r.s.W.toInt)
  | .orl, r => .is (r.m.V.toInt.lor r.s.V.toInt)
  | .shlb, r => counted 8 r.s.W.toInt (shift r.m.B.toNat r.s.W.toInt)
  | .shlw, r => counted 32 r.s.W.toInt (shift r.m.W.toInt r.s.W.toInt)
  | .shll, r => counted 64 r.s.W.toInt (shift r.m.V.toInt r.s.W.toInt)
  | .shrb, r => counted 8 r.s.W.toInt (shift r.m.B.toNat (-r.s.W.toInt))
  | .shrw, r => counted 32 r.s.W.toInt (shift r.m.W.toInt (-r.s.W.toInt))
  | .shrl, r => counted 64 r.s.W.toInt (shift r.m.V.toInt (-r.s.W.toInt))
  | .lsrw, r => counted 32 r.s.W.toInt (shift (r.m.W.toInt % 2 ^ 32) (-r.s.W.toInt))
  | .lsrl, r => counted 64 r.s.W.toInt (shift r.m.V.toNat (-r.s.W.toInt))
  | .iexpw, r => power r.m.W.toInt r.s.W.toInt
  | .iexpl, r => power r.m.V.toInt r.s.W.toInt
  | .mulx, r => .is (shift (r.m.W.toInt * r.s.W.toInt) r.Dtmp.toInt)
  | .cvtxx, r => .is (shift r.s.W.toInt r.m.W.toInt)
  | i, r => match fixed i r with
    | some f => f.value
    | none => .undefined

/-! ### Soundness -/

def word (t : Int) : WORD := (BitVec.ofInt 32 t).signExtend 64

/-- What an instruction stores for an integer: the integer wrapped to the width of its result. -/
def stored : Instruction → Int → Stored
  | .addb, t | .subb, t | .mulb, t | .divb, t | .modb, t | .andb, t | .xorb, t | .orb, t
  | .shlb, t | .shrb, t => .B (BitVec.ofInt 8 t)
  | .addl, t | .subl, t | .mull, t | .divl, t | .modl, t | .andl, t | .xorl, t | .orl, t
  | .shll, t | .shrl, t | .lsrl, t | .iexpl, t => .V (BitVec.ofInt 64 t)
  | _, t => .W (word t)

/-- The instruction raises `exZdiv` exactly when its operation divides by zero, and else stores
the wrapped result; the host never divides by zero or overflows a division; and a word that is
stored has a sign. -/
structure Sound (i : Instruction) (r : REG) : Prop where
  raises : exec i r = .error .exZdiv ↔ value i r = .zdiv
  stores : ∀ t, value i r = .is t → exec i r = .ok (stored i t)
  divides : exec i r ≠ .error .divide
  signed : ∀ w, exec i r = .ok (.W w) → CW w = w

def words : Instruction → REG → List WORD
  | .addb, _ | .subb, _ | .mulb, _ | .divb, _ | .modb, _ | .andb, _ | .xorb, _ | .orb, _ => []
  | .addl, _ | .subl, _ | .mull, _ | .divl, _ | .modl, _ | .andl, _ | .xorl, _ | .orl, _ => []
  | .shlb, r | .shrb, r | .shll, r | .shrl, r | .lsrl, r | .iexpl, r => [r.s.W]
  | .addw, r | .subw, r | .mulw, r | .divw, r | .modw, r | .andw, r | .xorw, r | .orw, r
  | .shlw, r | .shrw, r | .lsrw, r | .iexpw, r | .cvtxx, r => [r.m.W, r.s.W]
  | .mulx, r | .divx, r => [r.m.W, r.s.W, r.Dtmp]
  | .cvtxx0, r | .cvtxx1, r => [r.m.W, r.s.W, r.Stmp]
  | .mulx0, r | .divx0, r | .mulx1, r | .divx1, r => [r.m.W, r.s.W, r.Dtmp, r.Stmp]

def Canonical (i : Instruction) (r : REG) : Prop := ∀ w ∈ words i r, CW w = w

/-! ### The operands for which the instructions are sound -/

/-- A scale that a shift of 64 bits can make. -/
def Within (p : Int) : Prop := -64 < p ∧ p < 64

def Fixed.Exact (f : Fixed) : Prop :=
  Fits 64 f.product ∧ Fits 64 (shift f.product f.p) ∧ Fits 64 f.dividend

def Fixed.Holds (f : Fixed) : Prop :=
  f.a ≠ 0 ∧ (f.zero ∨ (Within f.p ∧ (f.rounds → f.p ≤ 0) ∧ f.Exact ∧
    ¬(f.dividend = -2 ^ 63 ∧ f.a = -1)))

def Fixed.Wraps (f : Fixed) : Prop := ¬f.zero ∧ ¬f.Exact

/-- The power that a negative exponent inverts has an inverse, or does not wrap to zero or to
a number that has one. -/
def Invertible (x n : Int) : Prop :=
  n < 0 → x = 1 ∨ x = -1 ∨ ∀ unit : Int, unit = 0 ∨ unit = 1 ∨ unit = -1 →
    ¬(2 ^ 64 : Int) ∣ x ^ (-n).toNat - unit

def Holds : Instruction → REG → Prop
  | .divl, r | .modl, r => ¬(r.m.V.toInt = -2 ^ 63 ∧ r.s.V.toInt = -1)
  | .shll, r | .shrl, r | .lsrl, r => r.s.W.toInt ≠ 64
  | .iexpw, r => Invertible r.m.W.toInt r.s.W.toInt
  | .iexpl, r => Invertible r.m.V.toInt r.s.W.toInt
  | .mulx, r => Within r.Dtmp.toInt
  | .cvtxx, r => Within r.m.W.toInt
  | i, r => ∀ f, fixed i r = some f → f.Holds

/-- An intermediate result of a division in fixed point has more than 64 bits. -/
def Wraps (i : Instruction) (r : REG) : Prop := ∃ f, fixed i r = some f ∧ f.Wraps

/-! ### Words -/

theorem CW_ofInt (t : Int) : CW (BitVec.ofInt 64 t) = word t := by
  rw [CW, setWidth_ofInt (by decide), word]

theorem CW_eq_word (w : WORD) : CW w = word w.toInt := by
  rw [← CW_ofInt, ofInt_toInt]

theorem CW_word (t : Int) : CW (word t) = word t := by
  have low : (word t).setWidth 32 = BitVec.ofInt 32 t := by
    rw [word, BitVec.signExtend, setWidth_ofInt (by decide), ofInt_toInt]
  rw [CW, low, word]

theorem CW_CW (w : WORD) : CW (CW w) = CW w := by
  rw [CW_eq_word w, CW_word]

/-- A word with a sign holds an integer of 32 bits. -/
theorem fits_of_canonical {w : WORD} (canonical : CW w = w) : Fits 32 w.toInt := by
  rw [← canonical, CW, toInt_signExtend_of_le (by decide)]
  exact fits_toInt _

/-! ### Words that are stored -/

def Signed (e : Execution) : Prop := ∀ w, e = .ok (.W w) → CW w = w

theorem signed_CW (v : WORD) : Signed (.ok (.W (CW v))) := by
  intro _ same
  cases same
  exact CW_CW v

theorem signed_zero : Signed (.ok (.W 0)) := by
  intro _ same
  cases same
  rfl

theorem signed_B (b : BYTE) : Signed (.ok (.B b)) := fun _ same => by cases same

theorem signed_V (v : LONG) : Signed (.ok (.V v)) := fun _ same => by cases same

theorem signed_error (fault : Fault) : Signed (.error fault) := fun _ same => by cases same

variable {α : Type} {c : Prop} {e : Execution} {k : Nat} {wanted : Bool} {a : LONG}

theorem signed_map {e : Except Fault α} {f : α → Stored} (each : ∀ a, Signed (.ok (f a))) :
    Signed (e.map f) := by
  cases e with
  | error fault => exact signed_error fault
  | ok a => exact each a

theorem signed_ite [Decidable c] {e' : Execution} (left : Signed e) (right : Signed e') :
    Signed (if c then e else e') := by
  split
  · exact left
  · exact right

theorem signed_bind {e : Except Fault α} {f : α → Execution} (each : ∀ a, Signed (f a)) :
    Signed (e.bind f) := by
  cases e with
  | error fault => exact signed_error fault
  | ok a => exact each a

theorem signed_divided (r : LONG) (p v : WORD) (a u : LONG) : Signed (divided r p v a u) :=
  signed_bind fun _ => signed_map fun _ => signed_CW _

theorem signed_scaled (r : LONG) (p : WORD) : Signed (scaled r p) :=
  signed_map fun _ => signed_CW _

theorem signed_exec (i : Instruction) (r : REG) : Signed (exec i r) := by
  cases i
  case addb | subb | mulb | andb | xorb | orb => exact signed_B _
  case addl | subl | mull | andl | xorl | orl => exact signed_V _
  case addw | subw | mulw | andw | xorw | orw | shlw | shrw | lsrw => exact signed_CW _
  case divb | modb => exact signed_ite (signed_error _) (signed_B _)
  case divl | modl => exact signed_ite (signed_error _) (signed_map fun _ => signed_V _)
  case divw | modw => exact signed_ite (signed_error _) (signed_map fun _ => signed_CW _)
  case shlb | shrb => exact signed_map fun _ => signed_B _
  case shll | shrl | lsrl | iexpl => exact signed_map fun _ => signed_V _
  case iexpw => exact signed_map fun _ => signed_CW _
  case mulx | cvtxx => exact signed_scaled _ _
  case divx => exact signed_divided _ _ _ _ _
  case mulx0 | divx0 | cvtxx0 => exact signed_ite signed_zero (signed_divided _ _ _ _ _)
  case mulx1 | divx1 | cvtxx1 =>
    exact signed_ite signed_zero (signed_bind fun _ => signed_divided _ _ _ _ _)

/-! ### Soundness of an instruction -/

variable {t : Int} {r : REG} {i : Instruction} {n : WORD}

section Soundness

variable {i : Instruction} {r : REG}

theorem sound_is (is : value i r = .is t) (stores : exec i r = .ok (stored i t)) :
    Sound i r where
  raises := by
    rw [is, stores]
    exact ⟨nofun, nofun⟩
  stores := by
    intro _ isU
    rw [is, Value.is.injEq] at isU
    rw [stores, isU]
  divides := by
    rw [stores]
    exact nofun
  signed := signed_exec i r

theorem sound_zdiv (zdiv : value i r = .zdiv) (raises : exec i r = .error .exZdiv) :
    Sound i r where
  raises := by
    rw [zdiv, raises]
    exact ⟨fun _ => rfl, fun _ => rfl⟩
  stores := by
    intro _ isU
    rw [zdiv] at isU
    cases isU
  divides := by
    rw [raises]
    exact nofun
  signed := signed_exec i r

theorem sound_undefined (undefined : value i r = .undefined)
    (raises : exec i r ≠ .error .exZdiv) (divides : exec i r ≠ .error .divide) : Sound i r where
  raises := by
    rw [undefined]
    exact ⟨fun zdiv => absurd zdiv raises, nofun⟩
  stores := by
    intro _ isU
    rw [undefined] at isU
    cases isU
  divides := divides
  signed := signed_exec i r

end Soundness


/-! ### Arithmetic and logic -/

section Results

variable {i : Instruction} {r : REG} {t : Int}

theorem sound_byte {b : BYTE} (is : value i r = .is t) (stores : exec i r = .ok (.B b))
    (kind : stored i t = .B (BitVec.ofInt 8 t)) (same : BitVec.ofInt 8 t = b) : Sound i r := by
  apply sound_is is
  rw [stores, kind, same]

theorem sound_word {v : WORD} (is : value i r = .is t) (stores : exec i r = .ok (.W (CW v)))
    (kind : stored i t = .W (word t)) (same : BitVec.ofInt 64 t = v) : Sound i r := by
  apply sound_is is
  rw [stores, kind, ← same, CW_ofInt]

theorem sound_big {v : LONG} (is : value i r = .is t) (stores : exec i r = .ok (.V v))
    (kind : stored i t = .V (BitVec.ofInt 64 t)) (same : BitVec.ofInt 64 t = v) : Sound i r := by
  apply sound_is is
  rw [stores, kind, same]

end Results

theorem sound_add (r : REG) : Sound .addb r ∧ Sound .addw r ∧ Sound .addl r := by
  refine ⟨sound_byte rfl rfl rfl ?_, sound_word rfl rfl rfl ?_, sound_big rfl rfl rfl ?_⟩
  · rw [ofInt_add, ofInt_toNat, ofInt_toNat]
  · rw [ofInt_add, ofInt_toInt, ofInt_toInt]
  · rw [ofInt_add, ofInt_toInt, ofInt_toInt]

theorem sound_sub (r : REG) : Sound .subb r ∧ Sound .subw r ∧ Sound .subl r := by
  refine ⟨sound_byte rfl rfl rfl ?_, sound_word rfl rfl rfl ?_, sound_big rfl rfl rfl ?_⟩
  · rw [ofInt_sub, ofInt_toNat, ofInt_toNat]
  · rw [ofInt_sub, ofInt_toInt, ofInt_toInt]
  · rw [ofInt_sub, ofInt_toInt, ofInt_toInt]

theorem sound_mul (r : REG) : Sound .mulb r ∧ Sound .mulw r ∧ Sound .mull r := by
  refine ⟨sound_byte rfl rfl rfl ?_, sound_word rfl rfl rfl ?_, sound_big rfl rfl rfl ?_⟩
  · rw [ofInt_mul, ofInt_toNat, ofInt_toNat]
  · rw [ofInt_mul, ofInt_toInt, ofInt_toInt]
  · rw [ofInt_mul, ofInt_toInt, ofInt_toInt]

theorem sound_and (r : REG) : Sound .andb r ∧ Sound .andw r ∧ Sound .andl r := by
  refine ⟨sound_byte rfl rfl rfl ?_, sound_word rfl rfl rfl (ofInt_land _ _),
    sound_big rfl rfl rfl (ofInt_land _ _)⟩
  rw [← toNat_and, ofInt_toNat]

theorem sound_or (r : REG) : Sound .orb r ∧ Sound .orw r ∧ Sound .orl r := by
  refine ⟨sound_byte rfl rfl rfl ?_, sound_word rfl rfl rfl (ofInt_lor _ _),
    sound_big rfl rfl rfl (ofInt_lor _ _)⟩
  rw [← toNat_or, ofInt_toNat]

theorem sound_xor (r : REG) : Sound .xorb r ∧ Sound .xorw r ∧ Sound .xorl r := by
  refine ⟨sound_byte rfl rfl rfl ?_, sound_word rfl rfl rfl (ofInt_lxor _ _),
    sound_big rfl rfl rfl (ofInt_lxor _ _)⟩
  rw [← toNat_xor, ofInt_toNat]

/-! ### Division -/

theorem sound_divb (r : REG) : Sound .divb r ∧ Sound .modb r := by
  by_cases zero : r.s.B = 0
  · have quotZero : value .divb r = .zdiv := by
      show quot _ _ = _
      rw [quot, zero]
      rfl
    have remZero : value .modb r = .zdiv := by
      show rem _ _ = _
      rw [rem, zero]
      rfl
    exact ⟨sound_zdiv quotZero (if_pos zero), sound_zdiv remZero (if_pos zero)⟩
  · have nonzero : (r.s.B.toNat : Int) ≠ 0 := by
      intro none
      exact zero (eq_of_toNat_eq (Int.ofNat_eq_zero.1 none))
    exact ⟨sound_byte (if_neg nonzero) (if_neg zero) rfl (ofInt_udiv _ _),
      sound_byte (if_neg nonzero) (if_neg zero) rfl (ofInt_umod _ _)⟩

variable {x y : LONG} {u : Int} {p : WORD}

theorem quotient_eq_ok (zero : y.toInt ≠ 0) (fits : ¬(x.toInt = -2 ^ 63 ∧ y.toInt = -1)) :
    quotient x y = .ok (BitVec.ofInt 64 (x.toInt.tdiv y.toInt)) := by
  have overflows : ¬Overflows x y := by
    rintro (rfl | ⟨rfl, rfl⟩)
    · exact zero rfl
    · exact fits ⟨by decide, by decide⟩
  rw [quotient, if_neg overflows, ← ofInt_sdiv (by decide) (fits_toInt x) (fits_toInt y),
    ofInt_toInt, ofInt_toInt]

theorem remainder_eq_ok (zero : y.toInt ≠ 0) (fits : ¬(x.toInt = -2 ^ 63 ∧ y.toInt = -1)) :
    remainder x y = .ok (BitVec.ofInt 64 (x.toInt.tmod y.toInt)) := by
  have overflows : ¬Overflows x y := by
    rintro (rfl | ⟨rfl, rfl⟩)
    · exact zero rfl
    · exact fits ⟨by decide, by decide⟩
  rw [remainder, if_neg overflows, ← ofInt_srem (by decide) (fits_toInt x) (fits_toInt y),
    ofInt_toInt, ofInt_toInt]

/-- The only numbers of 64 bits that the host does not divide. -/
theorem overflows_of (least : x.toInt = -2 ^ 63) (minus : y.toInt = -1) : Overflows x y := by
  right
  constructor
  · exact toInt_inj.1 (least.trans (by decide))
  · exact toInt_inj.1 (minus.trans (by decide))

theorem toInt_eq_zero : x.toInt = 0 ↔ x = 0 := by
  constructor
  · intro zero
    exact toInt_inj.1 (zero.trans (by decide))
  · rintro rfl
    rfl

theorem sound_divw (canonicalM : CW r.m.W = r.m.W) (canonicalS : CW r.s.W = r.s.W) :
    Sound .divw r ∧ Sound .modw r := by
  by_cases zero : r.s.W = 0
  · have none : r.s.W.toInt = 0 := toInt_eq_zero.2 zero
    exact ⟨sound_zdiv (if_pos none) (if_pos zero), sound_zdiv (if_pos none) (if_pos zero)⟩
  have nonzero : r.s.W.toInt ≠ 0 := fun none => zero (toInt_eq_zero.1 none)
  have fits : ¬(r.m.W.toInt = -2 ^ 63 ∧ r.s.W.toInt = -1) := by
    rintro ⟨least, -⟩
    have fits := (fits_of_canonical canonicalM).1
    rw [least] at fits
    exact absurd fits (by decide)
  constructor
  · refine sound_word (if_neg nonzero) ((if_neg zero).trans ?_) rfl rfl
    rw [canonicalM, canonicalS, quotient_eq_ok nonzero fits]
    rfl
  · refine sound_word (if_neg nonzero) ((if_neg zero).trans ?_) rfl rfl
    rw [canonicalM, canonicalS, remainder_eq_ok nonzero fits]
    rfl

theorem sound_divl (r : REG) : Sound .divl r ↔ Holds .divl r := by
  constructor
  · rintro sound ⟨least, minus⟩
    have nonzero : r.s.V ≠ 0 := by
      intro zero
      rw [zero] at minus
      exact absurd minus (by decide)
    apply sound.divides
    show (if _ then _ else _) = _
    rw [if_neg nonzero, quotient, if_pos (overflows_of least minus)]
    rfl
  · intro fits
    by_cases zero : r.s.V = 0
    · exact sound_zdiv (if_pos (toInt_eq_zero.2 zero)) (if_pos zero)
    have nonzero : r.s.V.toInt ≠ 0 := fun none => zero (toInt_eq_zero.1 none)
    refine sound_big (if_neg nonzero) ((if_neg zero).trans ?_) rfl rfl
    rw [quotient_eq_ok nonzero fits]
    rfl

theorem sound_modl (r : REG) : Sound .modl r ↔ Holds .modl r := by
  constructor
  · rintro sound ⟨least, minus⟩
    have nonzero : r.s.V ≠ 0 := by
      intro zero
      rw [zero] at minus
      exact absurd minus (by decide)
    apply sound.divides
    show (if _ then _ else _) = _
    rw [if_neg nonzero, remainder, if_pos (overflows_of least minus)]
    rfl
  · intro fits
    by_cases zero : r.s.V = 0
    · exact sound_zdiv (if_pos (toInt_eq_zero.2 zero)) (if_pos zero)
    have nonzero : r.s.V.toInt ≠ 0 := fun none => zero (toInt_eq_zero.1 none)
    refine sound_big (if_neg nonzero) ((if_neg zero).trans ?_) rfl rfl
    rw [remainder_eq_ok nonzero fits]
    rfl

/-! ### Shifts -/

theorem shift_of_nonneg (t : Int) {p : Int} (nonneg : 0 ≤ p) : shift t p = t * 2 ^ p.toNat :=
  if_pos nonneg

theorem shift_neg (t : Int) {p : Int} (nonneg : 0 ≤ p) : shift t (-p) = t / 2 ^ p.toNat := by
  unfold shift
  split
  · have zero : p = 0 := by omega
    subst zero
    show t * 2 ^ 0 = t / 2 ^ 0
    rw [Int.pow_zero, Int.mul_one, Int.ediv_one]
  · rw [Int.neg_neg]

section Counts

variable {w : Nat} {n : WORD}

theorem toNat_of_countable (countable : Countable w n) : n.toNat = n.toInt.toNat := by
  have whole := toNat_of_nonneg countable.1
  omega

theorem shl_eq_ok (countable : Countable w n) :
    shl (BitVec.ofInt w t) n = .ok (BitVec.ofInt w (shift t n.toInt)) := by
  rw [shl, if_pos countable, toNat_of_countable countable, ofInt_shiftLeft,
    shift_of_nonneg t countable.1]

theorem shr_eq_ok (positive : 0 < w) (fits : Fits w t) (countable : Countable w n) :
    shr (BitVec.ofInt w t) n = .ok (BitVec.ofInt w (shift t (-n.toInt))) := by
  rw [shr, if_pos countable, toNat_of_countable countable, ofInt_sshiftRight positive fits,
    shift_neg t countable.1]

theorem lsr_eq_ok (x : BitVec w) (countable : Countable w n) :
    lsr x n = .ok (BitVec.ofInt w (shift x.toNat (-n.toInt))) := by
  rw [lsr, if_pos countable, toNat_of_countable countable, ofInt_ushiftRight,
    shift_neg _ countable.1]

/-- The count of a word's shift is masked, which changes no count that is defined. -/
theorem mask_eq {n : WORD} (nonneg : 0 ≤ n.toInt) (few : n.toInt ≤ 32) :
    (n &&& 63).toNat = n.toInt.toNat := by
  have whole := toNat_of_nonneg nonneg
  have masked : (n &&& 63).toNat = n.toNat % 2 ^ 6 := by
    rw [toNat_and]
    exact Nat.and_two_pow_sub_one_eq_mod n.toNat 6
  rw [masked, Nat.mod_eq_of_lt (by omega)]
  omega

end Counts

/-- An execution that does not fail in a given way. -/
def Avoids {α : Type} (fault : Fault) (e : Except Fault α) : Prop := e ≠ .error fault

section Faults

variable {α β : Type} {fault : Fault}

theorem avoids_ok (a : α) : Avoids fault (.ok a) := nofun

variable {e : Except Fault α}

theorem avoids_ite [Decidable c] {e' : Except Fault α} (left : Avoids fault e)
    (right : Avoids fault e') : Avoids fault (if c then e else e') := by
  split
  · exact left
  · exact right

theorem avoids_bind {f : α → Except Fault β} (first : Avoids fault e)
    (each : ∀ a, Avoids fault (f a)) : Avoids fault (e.bind f) := by
  cases e with
  | error _ =>
    intro same
    cases same
    exact first rfl
  | ok a => exact each a

theorem avoids_map (first : Avoids fault e) (f : α → β) : Avoids fault (e.map f) := by
  cases e with
  | error _ =>
    intro same
    cases same
    exact first rfl
  | ok _ => exact nofun

variable {w : Nat}

theorem avoids_shl (x : BitVec w) (n : WORD) (other : fault ≠ .shift) : Avoids fault (shl x n) :=
  avoids_ite (avoids_ok _) fun same => other (by cases same; rfl)

theorem avoids_shr (x : BitVec w) (n : WORD) (other : fault ≠ .shift) : Avoids fault (shr x n) :=
  avoids_ite (avoids_ok _) fun same => other (by cases same; rfl)

theorem avoids_lsr (x : BitVec w) (n : WORD) (other : fault ≠ .shift) : Avoids fault (lsr x n) :=
  avoids_ite (avoids_ok _) fun same => other (by cases same; rfl)

theorem avoids_quotient (x y : BitVec w) (other : fault ≠ .divide) : Avoids fault (quotient x y) :=
  avoids_ite (fun same => other (by cases same; rfl)) (avoids_ok _)

end Faults

theorem sound_counted {bits : Nat} (counts : value i r = counted bits r.s.W.toInt t)
    (shifts : ∀ fault, fault ≠ .shift → Avoids fault (exec i r))
    (inside : 0 ≤ r.s.W.toInt → r.s.W.toInt ≤ bits → exec i r = .ok (stored i t)) : Sound i r := by
  by_cases defined : 0 ≤ r.s.W.toInt ∧ r.s.W.toInt ≤ bits
  · exact sound_is (counts.trans (if_pos defined)) (inside defined.1 defined.2)
  · exact sound_undefined (counts.trans (if_neg defined)) (shifts _ nofun) (shifts _ nofun)

theorem int_eq (b : BYTE) : int b = BitVec.ofInt 32 b.toNat := by
  rw [int, ofInt_natCast, ofNat_toNat]

theorem fits_int (b : BYTE) : Fits 32 b.toNat := by
  have below := b.isLt
  constructor
  · exact Int.le_trans (by decide) (Int.natCast_nonneg _)
  · exact Int.lt_trans (Int.ofNat_lt.2 below) (by decide)

theorem sound_shb (r : REG) : Sound .shlb r ∧ Sound .shrb r := by
  have countable : ∀ n : WORD, 0 ≤ n.toInt → n.toInt ≤ 8 → Countable 32 n :=
    fun n nonneg few => ⟨nonneg, by omega⟩
  constructor
  · refine sound_counted (i := .shlb) rfl (fun _ other => avoids_map (avoids_shl _ _ other) _) ?_
    intro nonneg few
    show (shl (int r.m.B) r.s.W).map _ = _
    rw [int_eq, shl_eq_ok (countable _ nonneg few)]
    show Except.ok (Stored.B _) = _
    rw [setWidth_ofInt (by decide)]
    rfl
  · refine sound_counted (i := .shrb) rfl (fun _ other => avoids_map (avoids_shr _ _ other) _) ?_
    intro nonneg few
    show (shr (int r.m.B) r.s.W).map _ = _
    rw [int_eq, shr_eq_ok (by decide) (fits_int _) (countable _ nonneg few)]
    show Except.ok (Stored.B _) = _
    rw [setWidth_ofInt (by decide)]
    rfl

theorem toNat_low (m : WORD) : ((low m).toNat : Int) = m.toInt % 2 ^ 32 := by
  have narrow : m.setWidth 32 = BitVec.ofInt 32 m.toInt := by
    rw [← setWidth_ofInt (w := 64) (by decide), ofInt_toInt]
  have positive : (0 : Int) ≤ m.toInt % 2 ^ 32 := Int.emod_nonneg _ (by decide)
  rw [low, toNat_setWidth_of_le (by decide), narrow, toNat_ofInt]
  exact Int.toNat_of_nonneg positive

theorem low_eq (m : WORD) : low m = BitVec.ofInt 64 (m.toInt % 2 ^ 32) := by
  rw [← toNat_low, ofInt_toNat]

theorem word_congr (same : t % 2 ^ 32 = u % 2 ^ 32) : word t = word u := by
  rw [word, word, ofInt_inj.2 same]

theorem sound_shw (canonical : CW r.m.W = r.m.W) :
    Sound .shlw r ∧ Sound .shrw r ∧ Sound .lsrw r := by
  refine ⟨?_, ?_, ?_⟩
  · refine sound_counted (i := .shlw) rfl (fun _ _ => avoids_ok _) ?_
    intro nonneg few
    show Except.ok (Stored.W (CW (low r.m.W <<< (r.s.W &&& 63).toNat))) = .ok (.W (word _))
    have same : r.m.W.toInt % 2 ^ 32 * 2 ^ r.s.W.toInt.toNat % 2 ^ 32 =
        r.m.W.toInt * 2 ^ r.s.W.toInt.toNat % 2 ^ 32 := by
      rw [Int.mul_emod, Int.emod_emod_of_dvd _ (Int.dvd_refl _), ← Int.mul_emod]
    rw [mask_eq nonneg few, low_eq, ofInt_shiftLeft, CW_ofInt, shift_of_nonneg _ nonneg,
      word_congr same]
  · refine sound_counted (i := .shrw) rfl (fun _ _ => avoids_ok _) ?_
    intro nonneg few
    show Except.ok (Stored.W (CW ((CW r.m.W).sshiftRight (r.s.W &&& 63).toNat))) = .ok (.W (word _))
    have shifted := ofInt_sshiftRight (w := 64) (by decide) (fits_toInt r.m.W) r.s.W.toInt.toNat
    rw [ofInt_toInt] at shifted
    rw [mask_eq nonneg few, canonical, shifted, CW_ofInt, shift_neg _ nonneg]
  · refine sound_counted (i := .lsrw) rfl (fun _ _ => avoids_ok _) ?_
    intro nonneg few
    show Except.ok (Stored.W (CW (low r.m.W >>> (r.s.W &&& 63).toNat))) = .ok (.W (word _))
    rw [mask_eq nonneg few, ofInt_ushiftRight, toNat_low, CW_ofInt, shift_neg _ nonneg]

theorem sound_shifted {e : Except Fault LONG} (counts : value i r = counted 64 r.s.W.toInt t)
    (execs : exec i r = e.map .V) (kind : stored i t = .V (BitVec.ofInt 64 t))
    (shifts : ∀ fault, fault ≠ .shift → Avoids fault e)
    (inside : Countable 64 r.s.W → e = .ok (BitVec.ofInt 64 t))
    (outside : ¬Countable 64 r.s.W → e = .error .shift) : Sound i r ↔ r.s.W.toInt ≠ 64 := by
  constructor
  · intro sound _
    have is : value i r = .is t := counts.trans (if_pos ⟨by omega, by omega⟩)
    have stores := sound.stores t is
    rw [execs, outside fun countable => absurd countable.2 (by omega)] at stores
    cases stores
  intro _
  apply sound_counted counts
  · intro fault other
    rw [execs]
    exact avoids_map (shifts fault other) _
  · intro nonneg _
    rw [execs, inside ⟨nonneg, by omega⟩, kind]
    rfl

theorem sound_shll (r : REG) : Sound .shll r ↔ Holds .shll r := by
  apply sound_shifted rfl rfl rfl fun _ other => avoids_shl _ _ other
  · intro countable
    have shifted := shl_eq_ok (t := r.m.V.toInt) countable
    rwa [ofInt_toInt] at shifted
  · exact fun outside => if_neg outside

theorem sound_shrl (r : REG) : Sound .shrl r ↔ Holds .shrl r := by
  apply sound_shifted rfl rfl rfl fun _ other => avoids_shr _ _ other
  · intro countable
    have shifted := shr_eq_ok (by decide) (fits_toInt r.m.V) countable
    rwa [ofInt_toInt] at shifted
  · exact fun outside => if_neg outside

theorem sound_lsrl (r : REG) : Sound .lsrl r ↔ Holds .lsrl r := by
  apply sound_shifted rfl rfl rfl fun _ other => avoids_lsr _ _ other
  · exact fun countable => lsr_eq_ok r.m.V countable
  · exact fun outside => if_neg outside

/-! ### Powers -/

theorem bit_ne_zero : n &&& 1 ≠ 0 ↔ n.toNat % 2 = 1 := by
  have bit : (n &&& 1).toNat = n.toNat % 2 := by
    rw [toNat_and]
    exact Nat.and_one_is_mod n.toNat
  rw [Ne, ← toNat_inj, bit]
  show ¬n.toNat % 2 = 0 ↔ _
  omega

theorem toNat_halve (nonneg : n.toNat < 2 ^ 63) : (n.sshiftRight 1).toNat = n.toNat / 2 := by
  have msb : n.msb = false := msb_eq_false_iff_two_mul_lt.2 (by omega)
  rw [sshiftRight_eq_of_msb_false msb, toNat_ushiftRight, Nat.shiftRight_eq_div_pow]

theorem pow_halve (x : Int) (n : Nat) : x ^ n = x ^ (n % 2) * (x * x) ^ (n / 2) := by
  have parts : n = n % 2 + 2 * (n / 2) := (Nat.mod_add_div n 2).symm
  calc x ^ n = x ^ (n % 2 + 2 * (n / 2)) := by rw [← parts]
    _ = x ^ (n % 2) * (x * x) ^ (n / 2) := by rw [pow_add, pow_mul, pow_two]

theorem iexploop_succ (bits : Nat) (x r : Int) (nonneg : n.toNat < 2 ^ 63) :
    iexploop (bits + 1) n (BitVec.ofInt 64 x) (BitVec.ofInt 64 r) =
      if n.toNat / 2 = 0 then .ok (BitVec.ofInt 64 (r * x ^ (n.toNat % 2)))
      else iexploop bits (n.sshiftRight 1) (BitVec.ofInt 64 (x * x))
        (BitVec.ofInt 64 (r * x ^ (n.toNat % 2))) := by
  have ended : n.sshiftRight 1 = 0 ↔ n.toNat / 2 = 0 := by
    rw [← toNat_halve nonneg]
    exact toNat_inj.symm
  have product : (if n &&& 1 ≠ 0 then BitVec.ofInt 64 r * BitVec.ofInt 64 x
      else BitVec.ofInt 64 r) = BitVec.ofInt 64 (r * x ^ (n.toNat % 2)) := by
    split
    · rename_i odd
      rw [bit_ne_zero.1 odd, Int.pow_succ, Int.pow_zero, Int.one_mul, ofInt_mul]
    rename_i even
    have zero : n.toNat % 2 = 0 := by
      have notOdd := mt bit_ne_zero.2 even
      omega
    rw [zero, Int.pow_zero, Int.mul_one]
  rw [iexploop]
  simp only [product, ended, ofInt_mul]

/-- The loop multiplies by the powers whose bits are set in the exponent. -/
theorem iexploop_eq (bits : Nat) (n : WORD) (x r : Int) (small : n.toNat < 2 ^ (bits + 1))
    (nonneg : n.toNat < 2 ^ 63) :
    iexploop (bits + 1) n (BitVec.ofInt 64 x) (BitVec.ofInt 64 r) =
      .ok (BitVec.ofInt 64 (r * x ^ n.toNat)) := by
  induction bits generalizing n x r with
  | zero =>
    have ended : n.toNat / 2 = 0 := by omega
    have bit : n.toNat % 2 = n.toNat := by omega
    rw [iexploop_succ 0 x r nonneg, if_pos ended, bit]
  | succ bits ih =>
    have halved := toNat_halve nonneg
    rw [iexploop_succ _ x r nonneg]
    split
    · rename_i ended
      have bit : n.toNat % 2 = n.toNat := by omega
      rw [bit]
    have fewer : n.toNat / 2 < 2 ^ (bits + 1) := by
      rw [Nat.pow_succ] at small
      omega
    rw [ih _ _ _ (by rw [halved]; exact fewer) (by rw [halved]; omega),
      halved, Int.mul_assoc, ← pow_halve]

theorem iexp_of_nonneg (x : LONG) (nonneg : 0 ≤ n.toInt) :
    iexp x n = .ok (BitVec.ofInt 64 (x.toInt ^ n.toInt.toNat)) := by
  have whole := toNat_of_nonneg nonneg
  have below := (fits_toInt n).2
  have small : n.toNat < 2 ^ 63 := by omega
  have loop := iexploop_eq 63 n x.toInt 1 (by omega) small
  rw [ofInt_toInt, Int.one_mul] at loop
  have positive : ¬n.toInt < 0 := by omega
  rw [← whole, Int.toNat_natCast]
  show (iexploop 64 (if n.toInt < 0 then -n else n) x 1).bind
    (fun r => if n.toInt < 0 then quotient 1 r else .ok r) = _
  simp only [if_neg positive]
  exact congrArg (Except.bind · _) loop

theorem iexp_of_neg (x : LONG) (negative : n.toInt < 0) (small : -2 ^ 63 < n.toInt) :
    iexp x n = quotient 1 (BitVec.ofInt 64 (x.toInt ^ (-n.toInt).toNat)) := by
  have opposite : (-n).toInt = -n.toInt := toInt_neg (by decide) small
  have whole : ((-n).toNat : Int) = -n.toInt := by
    rw [← opposite]
    exact toNat_of_nonneg (by omega)
  have below := (fits_toInt (-n)).2
  have bounded : (-n).toNat < 2 ^ 63 := by omega
  have loop := iexploop_eq 63 (-n) x.toInt 1 (by omega) bounded
  rw [ofInt_toInt, Int.one_mul] at loop
  rw [← whole, Int.toNat_natCast]
  show (iexploop 64 (if n.toInt < 0 then -n else n) x 1).bind
    (fun r => if n.toInt < 0 then quotient 1 r else .ok r) = _
  simp only [if_pos negative]
  exact congrArg (Except.bind · _) loop

theorem one_tdiv_of_not_unit (zero : t ≠ 0) (one : t ≠ 1) (minus : t ≠ -1) :
    (1 : Int).tdiv t = 0 := by
  by_cases positive : 0 < t
  · exact Int.tdiv_eq_zero_of_lt (by decide) (by omega)
  · have opposite : (1 : Int).tdiv (-t) = 0 := Int.tdiv_eq_zero_of_lt (by decide) (by omega)
    rwa [Int.tdiv_neg, Int.neg_eq_zero] at opposite

/-- The number whose bits a multiple of the modulus added does not change. -/
theorem ofInt_of_dvd (divides : (2 ^ 64 : Int) ∣ t - u) : BitVec.ofInt 64 t = BitVec.ofInt 64 u :=
  ofInt_inj.2 (Int.emod_eq_emod_iff_emod_sub_eq_zero.2 (Int.emod_eq_zero_of_dvd divides))

theorem quotient_one_unit (unit : u = 1 ∨ u = -1) :
    quotient 1 (BitVec.ofInt 64 u) = .ok (BitVec.ofInt 64 u) := by
  rcases unit with rfl | rfl
  · decide
  · decide

theorem quotient_one_zero : quotient (1 : LONG) (BitVec.ofInt 64 0) = .error .divide := by
  decide

/-- The inverse of a power that wraps to no unit is zero. -/
theorem quotient_one_of_not_unit
    (apart : ∀ unit : Int, unit = 0 ∨ unit = 1 ∨ unit = -1 → ¬(2 ^ 64 : Int) ∣ t - unit) :
    quotient (1 : LONG) (BitVec.ofInt 64 t) = .ok (BitVec.ofInt 64 0) := by
  have wrapped : ∀ unit : Int, unit = 0 ∨ unit = 1 ∨ unit = -1 →
      (BitVec.ofInt 64 t).toInt ≠ unit := by
    rintro unit among rfl
    apply apart _ among
    rw [BitVec.toInt_ofInt]
    exact Int.dvd_self_sub_bmod
  have zero := wrapped 0 (Or.inl rfl)
  have one := wrapped 1 (Or.inr (Or.inl rfl))
  have minus := wrapped (-1) (Or.inr (Or.inr rfl))
  have unit : (1 : LONG).toInt = 1 := by decide
  rw [quotient_eq_ok zero fun both => minus both.2, unit, one_tdiv_of_not_unit zero one minus]

theorem power_eq_zero {x : Int} (zero : x ≠ 0) (one : x ≠ 1) (minus : x ≠ -1) (positive : 0 < k) :
    (1 : Int).tdiv (x ^ k) = 0 := by
  have large : 1 < x.natAbs := by omega
  have larger : 1 < (x ^ k).natAbs := by
    rw [Int.natAbs_pow]
    exact Nat.one_lt_pow (by omega) large
  apply one_tdiv_of_not_unit
  · omega
  · omega
  · omega

/-- What the inverse of a power is: a division by zero, the power itself, or zero. -/
theorem quot_one_pow {x : Int} (positive : 0 < k) :
    quot 1 (x ^ k) =
      if x = 0 then .zdiv else if x = 1 ∨ x = -1 then .is (x ^ k) else .is 0 := by
  unfold quot
  by_cases zero : x = 0
  · rw [if_pos zero, if_pos]
    rw [zero]
    exact Int.zero_pow (by omega)
  rw [if_neg zero, if_neg (pow_ne_zero k zero)]
  split
  · rename_i unit
    have units : x ^ k = 1 ∨ x ^ k = -1 := by
      rcases unit with rfl | rfl
      · exact Or.inl (one_pow k)
      · exact neg_one_pow_eq_or Int k
    rcases units with one | minus
    · rw [one]
      rfl
    · rw [minus]
      rfl
  · rename_i apart
    rw [power_eq_zero zero (fun one => apart (Or.inl one)) (fun minus => apart (Or.inr minus))
      positive]

theorem sound_power {f : LONG → Stored} (powers : value i r = power x.toInt n.toInt)
    (execs : exec i r = (iexp x n).map f) (kind : ∀ t, f (BitVec.ofInt 64 t) = stored i t)
    (one : stored i 1 ≠ stored i 0) (minus : stored i (-1) ≠ stored i 0)
    (small : -2 ^ 63 < n.toInt) :
    Sound i r ↔ Invertible x.toInt n.toInt := by
  by_cases negative : n.toInt < 0
  · have positive : 0 < (-n.toInt).toNat := by omega
    have inverse := powers.trans ((if_neg (by omega)).trans (quot_one_pow positive))
    rw [iexp_of_neg x negative small] at execs
    constructor
    · intro sound _
      by_cases unit : x.toInt = 1 ∨ x.toInt = -1
      · exact unit.imp_right Or.inl
      refine Or.inr (Or.inr fun u among divides => ?_)
      rw [ofInt_of_dvd divides] at execs
      rcases among with rfl | among
      · rw [quotient_one_zero] at execs
        exact sound.divides execs
      rw [quotient_one_unit among] at execs
      have stores : exec i r = .ok (stored i u) := execs.trans (congrArg Except.ok (kind u))
      by_cases zero : x.toInt = 0
      · rw [if_pos zero] at inverse
        have raised := sound.raises.2 inverse
        rw [stores] at raised
        cases raised
      rw [if_neg zero, if_neg unit] at inverse
      have same := sound.stores 0 inverse
      rw [stores, Except.ok.injEq] at same
      rcases among with rfl | rfl
      · exact one same
      · exact minus same
    · intro invertible
      by_cases unit : x.toInt = 1 ∨ x.toInt = -1
      · have nonzero : x.toInt ≠ 0 := by omega
        have units : x.toInt ^ (-n.toInt).toNat = 1 ∨ x.toInt ^ (-n.toInt).toNat = -1 := by
          rcases unit with one | minus
          · rw [one]
            exact Or.inl (one_pow _)
          · rw [minus]
            exact neg_one_pow_eq_or Int _
        rw [if_neg nonzero, if_pos unit] at inverse
        rw [quotient_one_unit units] at execs
        exact sound_is inverse (execs.trans (congrArg Except.ok (kind _)))
      · have apart := (or_assoc.2 (invertible negative)).resolve_left unit
        have nonzero : x.toInt ≠ 0 := by
          intro zero
          apply apart 0 (Or.inl rfl)
          rw [zero, Int.zero_pow (by omega)]
          exact Int.dvd_zero _
        rw [quotient_one_of_not_unit apart] at execs
        have stores : exec i r = .ok (stored i 0) := execs.trans (congrArg Except.ok (kind 0))
        rw [if_neg nonzero, if_neg unit] at inverse
        exact sound_is inverse stores
  · have nonneg : 0 ≤ n.toInt := by omega
    rw [iexp_of_nonneg x nonneg] at execs
    have sound : Sound i r := sound_is (powers.trans (if_pos nonneg))
      (execs.trans (congrArg Except.ok (kind _)))
    exact ⟨fun _ below => absurd below negative, fun _ => sound⟩

theorem sound_iexpw (canonical : CW r.s.W = r.s.W) : Sound .iexpw r ↔ Holds .iexpw r := by
  have small := (fits_of_canonical canonical).1
  have above : (-2 ^ 63 : Int) < -2 ^ (32 - 1) := by decide
  refine sound_power rfl rfl (fun t => ?_) (by decide) (by decide) (Int.lt_of_lt_of_le above small)
  exact congrArg Stored.W (CW_ofInt t)

theorem sound_iexpl (canonical : CW r.s.W = r.s.W) : Sound .iexpl r ↔ Holds .iexpl r := by
  have small := (fits_of_canonical canonical).1
  have above : (-2 ^ 63 : Int) < -2 ^ (32 - 1) := by decide
  exact sound_power rfl rfl (fun _ => rfl) (by decide) (by decide) (Int.lt_of_lt_of_le above small)

/-! ### Fixed point -/

theorem scale_eq_ok (within : Within p.toInt) (fits : p.toInt < 0 → Fits 64 t) :
    scale (BitVec.ofInt 64 t) p = .ok (BitVec.ofInt 64 (shift t p.toInt)) := by
  unfold scale
  split
  · rename_i nonneg
    exact shl_eq_ok ⟨nonneg, within.2⟩
  rename_i negative
  have above : (-2 ^ (64 - 1) : Int) < p.toInt := Int.lt_trans (by decide) within.1
  have opposite : (-p).toInt = -p.toInt := toInt_neg (by decide) above
  have countable : Countable 64 (-p) := ⟨by omega, by have low := within.1; omega⟩
  have shifted := shr_eq_ok (by decide) (fits (by omega)) countable
  rwa [opposite, Int.neg_neg] at shifted

theorem scale_eq_error (r : LONG) (outside : ¬Within p.toInt) : scale r p = .error .shift := by
  unfold scale
  split
  · rename_i nonneg
    refine if_neg fun countable => outside ⟨?_, countable.2⟩
    omega
  rename_i negative
  refine if_neg fun countable => outside ?_
  by_cases above : (-2 ^ (64 - 1) : Int) < p.toInt
  · have opposite : (-p).toInt = -p.toInt := toInt_neg (by decide) above
    have high := countable.2
    rw [opposite] at high
    exact ⟨by omega, by omega⟩
  have least : p.toInt = -2 ^ 63 := by
    have low := (fits_toInt p).1
    omega
  have same : p = BitVec.intMin 64 := toInt_inj.1 (least.trans (by decide))
  rw [same] at countable
  exact absurd countable (by decide)

theorem sound_scaled (is : value i r = .is (shift t p.toInt))
    (execs : exec i r = scaled (BitVec.ofInt 64 t) p) (kind : ∀ u, stored i u = .W (word u))
    (fits : Fits 64 t) : Sound i r ↔ Within p.toInt := by
  constructor
  · intro sound
    by_contra outside
    have stores := sound.stores _ is
    rw [execs, scaled, scale_eq_error _ outside] at stores
    cases stores
  intro within
  apply sound_word is _ (kind _) rfl
  rw [execs, scaled, scale_eq_ok within fun _ => fits]
  rfl

def Fixed.Realized (f : Fixed) (e : Execution) : Prop :=
  ∃ (p : WORD) (a : LONG), p.toInt = f.p ∧ a.toInt = f.a ∧
    e = if f.zero then .ok (.W 0) else (ones f.rounds p).bind fun w =>
      divided (BitVec.ofInt 64 f.t + w) p (BitVec.ofInt 64 f.v) a (BitVec.ofInt 64 f.u)

theorem ones_eq_ok (within : Within p.toInt) (down : wanted → p.toInt ≤ 0) :
    ones wanted p = .ok (BitVec.ofInt 64 (if wanted then shift 1 (-p.toInt) - 1 else 0)) := by
  cases wanted with
  | false => rfl
  | true =>
    have above : (-2 ^ (64 - 1) : Int) < p.toInt := Int.lt_trans (by decide) within.1
    have opposite : (-p).toInt = -p.toInt := toInt_neg (by decide) above
    have low := within.1
    have most := down rfl
    have countable : Countable 64 (-p) := ⟨by omega, by omega⟩
    have shifted := shl_eq_ok (t := 1) countable
    have one : BitVec.ofInt 64 1 = (1 : LONG) := by decide
    show (shl 1 (-p)).map (fun w => w - 1) = .ok (BitVec.ofInt 64 (shift 1 (-p.toInt) - 1))
    rw [← one, shifted, opposite, ofInt_sub]
    rfl

theorem ones_eq_error (rounds : wanted) (up : 0 < p.toInt) : ones wanted p = .error .shift := by
  have above : (-2 ^ (64 - 1) : Int) < p.toInt := Int.lt_trans (by decide) up
  have opposite : (-p).toInt = -p.toInt := toInt_neg (by decide) above
  have outside : ¬Countable 64 (-p) := fun countable => by
    have nonneg := countable.1
    omega
  rw [ones, if_pos rounds, shl, if_neg outside]
  rfl

variable {f : Fixed}

theorem divided_eq (scaleEq : p.toInt = f.p) (within : Within f.p) (exact_ : f.Exact) (u : LONG) :
    divided (BitVec.ofInt 64 f.product) p (BitVec.ofInt 64 f.v) a u =
      (quotient (BitVec.ofInt 64 f.dividend) a).map fun q => .W (CW (q + u)) := by
  rw [divided, scale_eq_ok (scaleEq ▸ within) fun _ => exact_.1, scaleEq]
  show (quotient (_ + _) a).map _ = _
  rw [← ofInt_add]
  rfl

theorem divided_eq_error (outside : ¬Within p.toInt) (t v : LONG) (a u : LONG) :
    divided t p v a u = .error .shift := by
  rw [divided, scale_eq_error _ outside]
  rfl

theorem avoids_divided (t : LONG) (p v : WORD) (a u : LONG) :
    Avoids .exZdiv (divided t p v a u) := by
  have shifts : Fault.exZdiv ≠ .shift := by decide
  have divides : Fault.exZdiv ≠ .divide := by decide
  apply avoids_bind
  · exact avoids_ite (avoids_shl _ _ shifts) (avoids_shr _ _ shifts)
  · exact fun _ => avoids_map (avoids_quotient _ _ divides) _

section Division

variable {f : Fixed} {e : Execution}

theorem Fixed.Realized.avoids (realized : f.Realized e) : Avoids .exZdiv e := by
  obtain ⟨_, _, -, -, rfl⟩ := realized
  apply avoids_ite (avoids_ok _)
  apply avoids_bind
  · exact avoids_ite (avoids_map (avoids_shl _ _ (by decide)) _) (avoids_ok _)
  · exact fun _ => avoids_divided _ _ _ _ _

/-- The division, where no shift fails and nothing wraps. -/
theorem Fixed.Realized.eq (realized : f.Realized e) (zero : ¬f.zero) (within : Within f.p)
    (down : f.rounds → f.p ≤ 0) (exact_ : f.Exact) : ∃ a : LONG, a.toInt = f.a ∧
      e = (quotient (BitVec.ofInt 64 f.dividend) a).map
        fun q => .W (CW (q + BitVec.ofInt 64 f.u)) := by
  obtain ⟨p, a, scaleEq, divisorEq, rfl⟩ := realized
  refine ⟨a, divisorEq, ?_⟩
  rw [if_neg zero, ones_eq_ok (scaleEq ▸ within) (scaleEq ▸ down), scaleEq]
  show divided (_ + _) p _ a _ = _
  rw [← ofInt_add]
  exact divided_eq scaleEq within exact_ _

/-- A division that stores something has a scale that a shift can make. -/
theorem Fixed.Realized.scales (realized : f.Realized e) (zero : ¬f.zero) {w : Stored}
    (ok : e = .ok w) : Within f.p ∧ (f.rounds → f.p ≤ 0) := by
  obtain ⟨p, a, scaleEq, -, rfl⟩ := realized
  rw [if_neg zero] at ok
  have down : f.rounds → f.p ≤ 0 := by
    intro rounds
    by_contra up
    rw [ones_eq_error rounds (by omega)] at ok
    cases ok
  refine ⟨?_, down⟩
  by_contra outside
  rw [← scaleEq] at outside
  cases once : ones f.rounds p with
  | error _ =>
    rw [once] at ok
    cases ok
  | ok w =>
    rw [once] at ok
    have fails : divided (BitVec.ofInt 64 f.t + w) p (BitVec.ofInt 64 f.v) a
      (BitVec.ofInt 64 f.u) = .ok _ := ok
    rw [divided_eq_error outside] at fails
    cases fails

theorem sound_fixed (divides : value i r = f.value) (kind : ∀ u, stored i u = .W (word u))
    (realized : f.Realized (exec i r)) :
    (f.Holds → Sound i r) ∧ (Sound i r → f.Holds ∨ f.Wraps) := by
  constructor
  · rintro ⟨nonzero, rest⟩
    by_cases zero : f.zero
    · have is : value i r = .is 0 := by
        rw [divides, Fixed.value, if_neg nonzero, if_pos zero]
      apply sound_is is
      obtain ⟨_, a, -, -, stores⟩ := realized
      rw [stores, if_pos zero, kind]
      rfl
    have ⟨within, down, exact_, _⟩ := rest.resolve_left zero
    have is : value i r = .is (f.dividend.tdiv f.a + f.u) := by
      rw [divides, Fixed.value, if_neg nonzero, if_neg zero]
    have ⟨a, divisorEq, stores⟩ := realized.eq zero within down exact_
    have whole := toInt_ofInt (w := 64) (by decide) exact_.2.2
    rw [quotient_eq_ok (by rwa [divisorEq]) (by rwa [whole, divisorEq]), whole,
      divisorEq] at stores
    apply sound_is is
    rw [stores, kind, ← CW_ofInt, ofInt_add]
    rfl
  · intro sound
    by_cases nonzero : f.a = 0
    · have raised := sound.raises.2 (divides.trans (if_pos nonzero))
      exact absurd raised realized.avoids
    by_cases zero : f.zero
    · exact Or.inl ⟨nonzero, Or.inl zero⟩
    by_cases exact_ : f.Exact
    · have is : value i r = .is (f.dividend.tdiv f.a + f.u) := by
        rw [divides, Fixed.value, if_neg nonzero, if_neg zero]
      have ⟨within, down⟩ := realized.scales zero (sound.stores _ is)
      refine Or.inl ⟨nonzero, Or.inr ⟨within, down, exact_, ?_⟩⟩
      rintro ⟨least, minus⟩
      have ⟨_, divisorEq, stores⟩ := realized.eq zero within down exact_
      have whole := toInt_ofInt (w := 64) (by decide) exact_.2.2
      apply sound.divides
      rw [stores, quotient, if_pos (overflows_of (whole.trans least) (divisorEq.trans minus))]
      rfl
    · exact Or.inr ⟨zero, exact_⟩

end Division


/-! ### The divisions in fixed point -/

theorem fits_mul {x y : Int} (fitsX : Fits 32 x) (fitsY : Fits 32 y) : Fits 64 (x * y) := by
  have ⟨_, _⟩ := fitsX
  have ⟨_, _⟩ := fitsY
  have absX : x.natAbs ≤ 2 ^ 31 := by omega
  have absY : y.natAbs ≤ 2 ^ 31 := by omega
  have product : (x * y).natAbs ≤ 2 ^ 31 * 2 ^ 31 := by
    rw [Int.natAbs_mul]
    exact Nat.mul_le_mul absX absY
  exact ⟨by omega, by omega⟩

theorem wnz_eq (p : WORD) : wnz p = decide (p.toInt % 2 = 1) := by
  have below := p.isLt
  unfold wnz
  rw [decide_eq_decide, bit_ne_zero, toInt_eq_toNat_cond]
  split
  · omega
  · omega

theorem vnz_eq (p : WORD) : vnz p = decide (p.toInt / 2 % 2 = 1) := by
  have below := p.isLt
  have bit : p &&& 2 ≠ 0 ↔ p.toNat / 2 % 2 = 1 := by
    have masked : (p &&& 2).toNat = 2 * (p.toNat / 2 % 2) := by
      have half : (p &&& 2).toNat / 2 = p.toNat / 2 % 2 := by
        rw [toNat_and, Nat.and_div_two]
        exact Nat.and_one_is_mod _
      have even : (p &&& 2).toNat % 2 ≠ 1 := by
        rw [toNat_and, Ne, Nat.and_mod_two_eq_one]
        exact fun both => absurd both.2 (by decide)
      omega
    rw [Ne, ← toNat_inj, masked]
    show ¬2 * (p.toNat / 2 % 2) = 0 ↔ _
    omega
  unfold vnz
  rw [decide_eq_decide, bit, toInt_eq_toNat_cond]
  split
  · omega
  · omega

theorem toInt_quarter (p : WORD) : (p.sshiftRight 2).toInt = p.toInt / 4 := by
  rw [toInt_sshiftRight, Int.shiftRight_eq_div_pow]
  rfl

theorem realized_of_divided (scaleEq : p.toInt = f.p) (divisorEq : a.toInt = f.a)
    (rounds : f.rounds = false) (execs : e = if f.zero then .ok (.W 0) else
      divided (BitVec.ofInt 64 f.t) p (BitVec.ofInt 64 f.v) a (BitVec.ofInt 64 f.u)) :
    f.Realized e := by
  refine ⟨p, a, scaleEq, divisorEq, ?_⟩
  rw [execs, rounds]
  have added : BitVec.ofInt 64 f.t + 0 = BitVec.ofInt 64 f.t := BitVec.add_zero _
  show _ = if f.zero then _ else divided (_ + 0) p _ a _
  rw [added]

theorem zeros_iff (x y : WORD) : (x.toInt = 0 ∨ y.toInt = 0) ↔ x = 0 ∨ y = 0 := by
  rw [toInt_eq_zero, toInt_eq_zero]

section Instructions

variable (r : REG)

theorem realized_divx (f : Fixed) (is : fixed .divx r = some f) : f.Realized (divx r) := by
  cases is
  refine realized_of_divided rfl rfl rfl ?_
  show divx r = divided (BitVec.ofInt 64 r.m.W.toInt) _ _ _ _
  rw [ofInt_toInt]
  rfl

theorem realized_mulx0 (f : Fixed) (is : fixed .mulx0 r = some f) : f.Realized (mulx0 r) := by
  cases is
  refine realized_of_divided rfl rfl rfl ?_
  simp only [ofInt_mul, ofInt_toInt, decide_eq_true_eq]
  rfl

theorem realized_divx0 (f : Fixed) (is : fixed .divx0 r = some f) : f.Realized (divx0 r) := by
  cases is
  refine realized_of_divided rfl rfl rfl ?_
  simp only [ofInt_mul, ofInt_toInt, decide_eq_true_eq]
  rfl

theorem realized_cvtxx0 (f : Fixed) (is : fixed .cvtxx0 r = some f) :
    f.Realized (cvtxx0 r) := by
  cases is
  refine realized_of_divided rfl rfl rfl ?_
  simp only [ofInt_toInt, decide_eq_true_eq]
  rfl

theorem ofInt_roundup (p a : WORD) (below : Prop) [Decidable below] :
    BitVec.ofInt 64 (roundup p.toInt a.toInt below) =
      if vnz p then if below then -(a - 1) else a - 1 else 0 := by
  have one : BitVec.ofInt 64 1 = (1 : LONG) := by decide
  have less : BitVec.ofInt 64 (a.toInt - 1) = a - 1 := by
    rw [ofInt_sub, ofInt_toInt, one]
  rw [vnz_eq, roundup]
  simp only [decide_eq_true_eq]
  split
  · split
    · rw [ofInt_neg, less]
    · exact less
  · rfl

/-- The signs of two numbers differ when their product is below zero. -/
theorem differ_eq {x y : WORD} (nonzero : ¬(x = 0 ∨ y = 0)) :
    differ x y = decide (x.toInt * y.toInt < 0) := by
  rw [← zeros_iff] at nonzero
  unfold differ
  rw [decide_eq_decide, Int.mul_neg_iff]
  omega

theorem realized_mulx1 (f : Fixed) (is : fixed .mulx1 r = some f) : f.Realized (mulx1 r) := by
  cases is
  refine ⟨r.Dtmp.sshiftRight 2, r.Stmp, toInt_quarter _, rfl, ?_⟩
  unfold mulx1
  simp only [ofInt_roundup, ofInt_mul, ofInt_toInt, decide_eq_true_eq, zeros_iff]
  split
  · rfl
  rename_i nonzero
  simp only [differ_eq nonzero, decide_eq_true_eq, wnz_eq, vnz_eq, ← Int.mul_neg_iff,
    ← Int.mul_pos_iff, Bool.decide_and, Bool.decide_or, decide_not]
  rfl

theorem realized_divx1 (f : Fixed) (is : fixed .divx1 r = some f) : f.Realized (divx1 r) := by
  cases is
  refine ⟨r.Dtmp.sshiftRight 2, r.s.W, toInt_quarter _, rfl, ?_⟩
  unfold divx1
  simp only [ofInt_mul, ofInt_toInt, decide_eq_true_eq, toInt_eq_zero]
  split
  · rfl
  rename_i nonzero
  rw [← toInt_eq_zero] at nonzero
  have below : decide (r.m.W.toInt ≤ 0) = decide (r.m.W.toInt < 0) := by
    rw [decide_eq_decide]
    omega
  have signs : differ r.m.W r.s.W = decide ((0 < r.m.W.toInt ∧ r.s.W.toInt < 0) ∨
      (r.m.W.toInt < 0 ∧ 0 ≤ r.s.W.toInt)) := by
    unfold differ
    rw [decide_eq_decide]
    omega
  simp only [wnz_eq, vnz_eq, below, signs, Bool.decide_and, decide_eq_true_eq,
    apply_ite (BitVec.ofInt 64)]
  rfl

theorem realized_cvtxx1 (f : Fixed) (is : fixed .cvtxx1 r = some f) :
    f.Realized (cvtxx1 r) := by
  cases is
  refine ⟨r.m.W.sshiftRight 2, r.Stmp, toInt_quarter _, rfl, ?_⟩
  unfold cvtxx1
  simp only [ofInt_roundup, ofInt_toInt, decide_eq_true_eq, toInt_eq_zero, wnz_eq, vnz_eq,
    Bool.decide_and, Bool.decide_or, decide_not]
  rfl

end Instructions

theorem sound_mulx (canonicalM : CW r.m.W = r.m.W) (canonicalS : CW r.s.W = r.s.W) :
    Sound .mulx r ↔ Holds .mulx r := by
  have fits := fits_mul (fits_of_canonical canonicalM) (fits_of_canonical canonicalS)
  apply sound_scaled rfl _ (fun _ => rfl) fits
  rw [ofInt_mul, ofInt_toInt, ofInt_toInt]
  rfl

theorem sound_cvtxx (r : REG) : Sound .cvtxx r ↔ Holds .cvtxx r := by
  apply sound_scaled rfl _ (fun _ => rfl) (fits_toInt r.s.W)
  rw [ofInt_toInt]
  rfl

/-! ### Every instruction -/

/-- What `sound_fixed` says of an instruction. -/
theorem sound_divided (is : fixed i r = some f) (divides : value i r = f.value)
    (kind : ∀ u, stored i u = .W (word u)) (realized : f.Realized (exec i r))
    (holds : Holds i r ↔ ∀ f, fixed i r = some f → f.Holds) :
    (Holds i r → Sound i r) ∧ (Sound i r → Holds i r ∨ Wraps i r) := by
  have ⟨enough, needed⟩ := sound_fixed divides kind realized
  constructor
  · exact fun all => enough (holds.1 all f is)
  intro sound
  refine (needed sound).imp (fun one => holds.2 fun g isG => ?_) fun wraps => ⟨f, is, wraps⟩
  rw [is, Option.some.injEq] at isG
  rwa [← isG]

/-- An instruction that divides nothing in fixed point has nothing to wrap. -/
theorem sound_of_iff (same : Sound i r ↔ Holds i r) :
    (Holds i r → Sound i r) ∧ (Sound i r → Holds i r ∨ Wraps i r) :=
  ⟨same.2, fun sound => Or.inl (same.1 sound)⟩

theorem sound_always (sound : Sound i r) (holds : Holds i r = ∀ f, fixed i r = some f → f.Holds)
    (none : fixed i r = none) : (Holds i r → Sound i r) ∧ (Sound i r → Holds i r ∨ Wraps i r) := by
  refine ⟨fun _ => sound, fun _ => Or.inl ?_⟩
  rw [holds, none]
  exact nofun

/-- The instructions on words with a sign are sound for the operands of `Holds`, and for no
others but those for which a division in fixed point wraps on its way. -/
theorem integer_instructions (i : Instruction) (r : REG) (canonical : Canonical i r) :
    (Holds i r → Sound i r) ∧ (Sound i r → Holds i r ∨ Wraps i r) := by
  cases i
  case addb => exact sound_always (sound_add r).1 rfl rfl
  case addw => exact sound_always (sound_add r).2.1 rfl rfl
  case addl => exact sound_always (sound_add r).2.2 rfl rfl
  case subb => exact sound_always (sound_sub r).1 rfl rfl
  case subw => exact sound_always (sound_sub r).2.1 rfl rfl
  case subl => exact sound_always (sound_sub r).2.2 rfl rfl
  case mulb => exact sound_always (sound_mul r).1 rfl rfl
  case mulw => exact sound_always (sound_mul r).2.1 rfl rfl
  case mull => exact sound_always (sound_mul r).2.2 rfl rfl
  case andb => exact sound_always (sound_and r).1 rfl rfl
  case andw => exact sound_always (sound_and r).2.1 rfl rfl
  case andl => exact sound_always (sound_and r).2.2 rfl rfl
  case xorb => exact sound_always (sound_xor r).1 rfl rfl
  case xorw => exact sound_always (sound_xor r).2.1 rfl rfl
  case xorl => exact sound_always (sound_xor r).2.2 rfl rfl
  case orb => exact sound_always (sound_or r).1 rfl rfl
  case orw => exact sound_always (sound_or r).2.1 rfl rfl
  case orl => exact sound_always (sound_or r).2.2 rfl rfl
  case divb => exact sound_always (sound_divb r).1 rfl rfl
  case modb => exact sound_always (sound_divb r).2 rfl rfl
  case shlb => exact sound_always (sound_shb r).1 rfl rfl
  case shrb => exact sound_always (sound_shb r).2 rfl rfl
  case divl => exact sound_of_iff (sound_divl r)
  case modl => exact sound_of_iff (sound_modl r)
  case shll => exact sound_of_iff (sound_shll r)
  case shrl => exact sound_of_iff (sound_shrl r)
  case lsrl => exact sound_of_iff (sound_lsrl r)
  case divw =>
    have words := sound_divw (canonical _ (.head _)) (canonical _ (.tail _ (.head _)))
    exact sound_always words.1 rfl rfl
  case modw =>
    have words := sound_divw (canonical _ (.head _)) (canonical _ (.tail _ (.head _)))
    exact sound_always words.2 rfl rfl
  case shlw => exact sound_always (sound_shw (canonical _ (.head _))).1 rfl rfl
  case shrw => exact sound_always (sound_shw (canonical _ (.head _))).2.1 rfl rfl
  case lsrw => exact sound_always (sound_shw (canonical _ (.head _))).2.2 rfl rfl
  case iexpw => exact sound_of_iff (sound_iexpw (canonical _ (.tail _ (.head _))))
  case iexpl => exact sound_of_iff (sound_iexpl (canonical _ (.head _)))
  case mulx =>
    exact sound_of_iff (sound_mulx (canonical _ (.head _)) (canonical _ (.tail _ (.head _))))
  case cvtxx => exact sound_of_iff (sound_cvtxx r)
  case divx => exact sound_divided rfl rfl (fun _ => rfl) (realized_divx r _ rfl) Iff.rfl
  case mulx0 => exact sound_divided rfl rfl (fun _ => rfl) (realized_mulx0 r _ rfl) Iff.rfl
  case divx0 => exact sound_divided rfl rfl (fun _ => rfl) (realized_divx0 r _ rfl) Iff.rfl
  case cvtxx0 => exact sound_divided rfl rfl (fun _ => rfl) (realized_cvtxx0 r _ rfl) Iff.rfl
  case mulx1 => exact sound_divided rfl rfl (fun _ => rfl) (realized_mulx1 r _ rfl) Iff.rfl
  case divx1 => exact sound_divided rfl rfl (fun _ => rfl) (realized_divx1 r _ rfl) Iff.rfl
  case cvtxx1 => exact sound_divided rfl rfl (fun _ => rfl) (realized_cvtxx1 r _ rfl) Iff.rfl

/-- The operands of an instruction on two words. -/
def onwords (m s : WORD) : REG := ⟨⟨0, s⟩, ⟨0, m⟩, 0, 0⟩

theorem integer_instructions_inverse : Sound .iexpw (onwords 3 (-1)) := by
  have canonical : Canonical .iexpw (onwords 3 (-1)) := by
    intro _ member
    rcases List.mem_cons.1 member with rfl | rest
    · show CW 3 = 3
      decide
    · rw [List.mem_singleton.1 rest]
      show CW (-1) = -1
      decide
  have holds : Holds .iexpw (onwords 3 (-1)) := by
    intro _
    right
    right
    rintro unit (rfl | rfl | rfl)
    · decide
    · decide
    · decide
  exact (integer_instructions .iexpw (onwords 3 (-1)) canonical).1 holds

/-- The least big divided by -1, the inverse of a power of zero, and a fixed point number
divided by zero. -/
theorem not_sound_divides : ¬Sound .divl (onwords (BitVec.intMin 64) (-1)) ∧
    ¬Sound .iexpw (onwords 0 (-1)) ∧ ¬Sound .divx (onwords 1 0) := by
  refine ⟨fun sound => sound.divides ?_, fun sound => sound.divides ?_,
    fun sound => sound.divides ?_⟩
  · decide
  · decide
  · decide

end Infernode.Dis
