import Infernode.Codec.Twos

/-!
The integer instructions of `libinterp/xec.c`.

Owns: the words and the operands, the C operators that a host may not carry out, and every
instruction on integers: the arithmetic, logic and shifts, the powers and the fixed point.

Does not own: the values that the instructions should have, or the other instructions.
-/

namespace Infernode.Dis

/-! ### Words -/

abbrev BYTE := BitVec 8

abbrev WORD := BitVec 64

abbrev LONG := BitVec 64

def CW (v : WORD) : WORD := (v.setWidth 32).signExtend 64

/-- What a register points to, as a byte and as eight bytes. -/
structure Operand where
  B : BYTE
  W : WORD

def Operand.V (operand : Operand) : LONG := operand.W

structure REG where
  s : Operand
  m : Operand
  Stmp : WORD
  Dtmp : WORD

/-- What an instruction stores in its destination. -/
inductive Stored where
  | B (b : BYTE)
  | W (w : WORD)
  | V (v : LONG)
deriving DecidableEq

/-- Why an instruction stores nothing: it raises `exZdiv`; the host divides by zero or by a
number that makes the quotient too large; the host shifts by a count that C does not define;
or its loop does not end. -/
inductive Fault where
  | exZdiv
  | divide
  | shift
  | loop
deriving DecidableEq

abbrev Execution := Except Fault Stored

/-! ### The operators of the host -/

section Operators

variable {w : Nat}

def Overflows (x y : BitVec w) : Prop := y = 0 ∨ (x = BitVec.intMin w ∧ y = -1)

instance (x y : BitVec w) : Decidable (Overflows x y) := inferInstanceAs (Decidable (_ ∨ _))

def quotient (x y : BitVec w) : Except Fault (BitVec w) :=
  if Overflows x y then .error .divide else .ok (x.sdiv y)

def remainder (x y : BitVec w) : Except Fault (BitVec w) :=
  if Overflows x y then .error .divide else .ok (x.srem y)

/-- A count that a shift of `w` bits may have. -/
def Countable (w : Nat) (n : WORD) : Prop := 0 ≤ n.toInt ∧ n.toInt < w

instance (w : Nat) (n : WORD) : Decidable (Countable w n) := inferInstanceAs (Decidable (_ ∧ _))

def shl (x : BitVec w) (n : WORD) : Except Fault (BitVec w) :=
  if Countable w n then .ok (x <<< n.toNat) else .error .shift

def shr (x : BitVec w) (n : WORD) : Except Fault (BitVec w) :=
  if Countable w n then .ok (x.sshiftRight n.toNat) else .error .shift

def lsr (x : BitVec w) (n : WORD) : Except Fault (BitVec w) :=
  if Countable w n then .ok (x >>> n.toNat) else .error .shift

end Operators

/-! ### Arithmetic -/

def addb (r : REG) : Execution := .ok (.B (r.m.B + r.s.B))

def addw (r : REG) : Execution := .ok (.W (CW (r.m.W + r.s.W)))

def addl (r : REG) : Execution := .ok (.V (r.m.V + r.s.V))

def subb (r : REG) : Execution := .ok (.B (r.m.B - r.s.B))

def subw (r : REG) : Execution := .ok (.W (CW (r.m.W - r.s.W)))

def subl (r : REG) : Execution := .ok (.V (r.m.V - r.s.V))

def mulb (r : REG) : Execution := .ok (.B (r.m.B * r.s.B))

def mulw (r : REG) : Execution := .ok (.W (CW (r.m.W * r.s.W)))

def mull (r : REG) : Execution := .ok (.V (r.m.V * r.s.V))

def divb (r : REG) : Execution :=
  if r.s.B = 0 then .error .exZdiv else .ok (.B (r.m.B.udiv r.s.B))

def divw (r : REG) : Execution :=
  if r.s.W = 0 then .error .exZdiv
  else (quotient (CW r.m.W) (CW r.s.W)).map fun v => .W (CW v)

def divl (r : REG) : Execution :=
  if r.s.V = 0 then .error .exZdiv else (quotient r.m.V r.s.V).map .V

def modb (r : REG) : Execution :=
  if r.s.B = 0 then .error .exZdiv else .ok (.B (r.m.B.umod r.s.B))

def modw (r : REG) : Execution :=
  if r.s.W = 0 then .error .exZdiv
  else (remainder (CW r.m.W) (CW r.s.W)).map fun v => .W (CW v)

def modl (r : REG) : Execution :=
  if r.s.V = 0 then .error .exZdiv else (remainder r.m.V r.s.V).map .V

/-! ### Logic -/

def andb (r : REG) : Execution := .ok (.B (r.m.B &&& r.s.B))

def andw (r : REG) : Execution := .ok (.W (CW (r.m.W &&& r.s.W)))

def andl (r : REG) : Execution := .ok (.V (r.m.V &&& r.s.V))

def xorb (r : REG) : Execution := .ok (.B (r.m.B ^^^ r.s.B))

def xorw (r : REG) : Execution := .ok (.W (CW (r.m.W ^^^ r.s.W)))

def xorl (r : REG) : Execution := .ok (.V (r.m.V ^^^ r.s.V))

def orb (r : REG) : Execution := .ok (.B (r.m.B ||| r.s.B))

def orw (r : REG) : Execution := .ok (.W (CW (r.m.W ||| r.s.W)))

def orl (r : REG) : Execution := .ok (.V (r.m.V ||| r.s.V))

/-! ### Shifts -/

def low (v : WORD) : LONG := (v.setWidth 32).setWidth 64

def int (b : BYTE) : BitVec 32 := b.setWidth 32

def shlb (r : REG) : Execution := (shl (int r.m.B) r.s.W).map fun v => .B (v.setWidth 8)

def shlw (r : REG) : Execution := .ok (.W (CW (low r.m.W <<< (r.s.W &&& 63).toNat)))

def shll (r : REG) : Execution := (shl r.m.V r.s.W).map .V

def shrb (r : REG) : Execution := (shr (int r.m.B) r.s.W).map fun v => .B (v.setWidth 8)

def shrw (r : REG) : Execution := .ok (.W (CW ((CW r.m.W).sshiftRight (r.s.W &&& 63).toNat)))

def shrl (r : REG) : Execution := (shr r.m.V r.s.W).map .V

def lsrw (r : REG) : Execution := .ok (.W (CW (low r.m.W >>> (r.s.W &&& 63).toNat)))

def lsrl (r : REG) : Execution := (lsr r.m.V r.s.W).map .V

/-! ### Powers -/

/-- The loop over the bits of the exponent, for as many of them as `bits`. -/
def iexploop : Nat → WORD → LONG → LONG → Except Fault LONG
  | 0, _, _, _ => .error .loop
  | bits + 1, n, x, r =>
    let r := if n &&& 1 ≠ 0 then r * x else r
    let n := n.sshiftRight 1
    if n = 0 then .ok r else iexploop bits n (x * x) r

/-- A word has no more than 64 bits, so that the loop has ended then or does not end. -/
def iexp (x : LONG) (n : WORD) : Except Fault LONG :=
  let inv := n.toInt < 0
  let n := if inv then -n else n
  (iexploop 64 n x 1).bind fun r => if inv then quotient 1 r else .ok r

def iexpw (r : REG) : Execution := (iexp r.m.W r.s.W).map fun v => .W (CW v)

def iexpl (r : REG) : Execution := (iexp r.m.V r.s.W).map .V

/-! ### Fixed point -/

/-- `r <<= p`, or `r >>= -p` where `p` is negative. -/
def scale (r : LONG) (p : WORD) : Except Fault LONG :=
  if 0 ≤ p.toInt then shl r p else shr r (-p)

def scaled (r : LONG) (p : WORD) : Execution := (scale r p).map fun v => .W (CW v)

def divided (r : LONG) (p v : WORD) (a u : LONG) : Execution :=
  (scale r p).bind fun r => (quotient (r + v) a).map fun q => .W (CW (q + u))

def mulx (r : REG) : Execution := scaled (r.m.W * r.s.W) r.Dtmp

def divx (r : REG) : Execution := divided r.m.W r.Dtmp 0 r.s.W 0

def cvtxx (r : REG) : Execution := scaled r.s.W r.m.W

def mulx0 (r : REG) : Execution :=
  if r.m.W = 0 ∨ r.s.W = 0 then .ok (.W 0) else divided (r.m.W * r.s.W) r.Dtmp 0 r.Stmp 0

def divx0 (r : REG) : Execution :=
  if r.m.W = 0 then .ok (.W 0) else divided (r.Stmp * r.m.W) r.Dtmp 0 r.s.W 0

def cvtxx0 (r : REG) : Execution :=
  if r.s.W = 0 then .ok (.W 0) else divided r.s.W r.m.W 0 r.Stmp 0

/-- `((LONG)1<<(-p)) - 1` where it is called for. -/
def ones (wanted : Bool) (p : WORD) : Except Fault LONG :=
  if wanted then (shl 1 (-p)).map fun w => w - 1 else .ok 0

/-- `p&2`, after which `p` is shifted. -/
def vnz (p : WORD) : Bool := p &&& 2 ≠ 0

/-- `p&1`, after which `p` is shifted. -/
def wnz (p : WORD) : Bool := p &&& 1 ≠ 0

/-- The signs of the operands differ, with that of a zero as if it were above zero. -/
def differ (x y : WORD) : Bool :=
  (0 ≤ x.toInt ∧ y.toInt < 0) ∨ (x.toInt < 0 ∧ 0 ≤ y.toInt)

def mulx1 (r : REG) : Execution :=
  let x := r.m.W
  let y := r.s.W
  let p := r.Dtmp
  let a := r.Stmp
  if x = 0 ∨ y = 0 then .ok (.W 0)
  else
    let below := (0 < x.toInt ∧ y.toInt < 0) ∨ (x.toInt < 0 ∧ 0 < y.toInt)
    let above := (0 < x.toInt ∧ 0 < y.toInt) ∨ (x.toInt < 0 ∧ y.toInt < 0)
    let v := if vnz p then if differ x y then -(a - 1) else a - 1 else 0
    (ones (wnz p && ((!vnz p && below) || (vnz p && above))) (p.sshiftRight 2)).bind fun w =>
      divided (x * y + w) (p.sshiftRight 2) v a 0

def divx1 (r : REG) : Execution :=
  let x := r.m.W
  let y := r.s.W
  let p := r.Dtmp
  let b := r.Stmp
  if x = 0 then .ok (.W 0)
  else
    let v := if vnz p then if differ x y then -1 else 1 else 0
    (ones (wnz p && x.toInt ≤ 0) (p.sshiftRight 2)).bind fun w =>
      divided (b * x + w) (p.sshiftRight 2) 0 y v

def cvtxx1 (r : REG) : Execution :=
  let x := r.s.W
  let p := r.m.W
  let a := r.Stmp
  if x = 0 then .ok (.W 0)
  else
    let v := if vnz p then if x.toInt < 0 then -(a - 1) else a - 1 else 0
    (ones (wnz p && ((!vnz p && x.toInt < 0) || (vnz p && 0 < x.toInt)))
        (p.sshiftRight 2)).bind fun w =>
      divided (x + w) (p.sshiftRight 2) v a 0

/-! ### Instructions -/

inductive Instruction where
  | addb | addw | addl
  | subb | subw | subl
  | mulb | mulw | mull
  | divb | divw | divl
  | modb | modw | modl
  | andb | andw | andl
  | xorb | xorw | xorl
  | orb | orw | orl
  | shlb | shlw | shll
  | shrb | shrw | shrl
  | lsrw | lsrl
  | iexpw | iexpl
  | mulx | divx | cvtxx
  | mulx0 | divx0 | cvtxx0
  | mulx1 | divx1 | cvtxx1
deriving DecidableEq

def exec : Instruction → REG → Execution
  | .addb => addb
  | .addw => addw
  | .addl => addl
  | .subb => subb
  | .subw => subw
  | .subl => subl
  | .mulb => mulb
  | .mulw => mulw
  | .mull => mull
  | .divb => divb
  | .divw => divw
  | .divl => divl
  | .modb => modb
  | .modw => modw
  | .modl => modl
  | .andb => andb
  | .andw => andw
  | .andl => andl
  | .xorb => xorb
  | .xorw => xorw
  | .xorl => xorl
  | .orb => orb
  | .orw => orw
  | .orl => orl
  | .shlb => shlb
  | .shlw => shlw
  | .shll => shll
  | .shrb => shrb
  | .shrw => shrw
  | .shrl => shrl
  | .lsrw => lsrw
  | .lsrl => lsrl
  | .iexpw => iexpw
  | .iexpl => iexpl
  | .mulx => mulx
  | .divx => divx
  | .cvtxx => cvtxx
  | .mulx0 => mulx0
  | .divx0 => divx0
  | .cvtxx0 => cvtxx0
  | .mulx1 => mulx1
  | .divx1 => divx1
  | .cvtxx1 => cvtxx1

end Infernode.Dis
