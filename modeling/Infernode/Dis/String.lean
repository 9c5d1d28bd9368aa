import Infernode.Lib9.Rune
import Infernode.Program.Action

/-!
The strings of `libinterp/string.c`.

Owns: the memory of a string as bytes and as runes, the heap of strings with their reference
counts, the pool that blocks come out of, and the instructions that make and change strings.

Does not own: what the strings mean, or the instructions that only read them.
-/

namespace Infernode.Dis

open Program Text

/-! ### The memory of a string -/

/-- `room` is the number of bytes in the block from `data` on; a length below zero is that of a
string of runes. -/
structure DisString where
  len : Int
  max : Nat
  room : Nat
  data : Nat → UInt8

namespace DisString

/-- `Sascii[i]`, as an unsigned char. -/
def ascii (s : DisString) (i : Nat) : Nat := (s.data i).toNat

/-- `Srune[i]`. -/
def rune (s : DisString) (i : Nat) : Nat :=
  (s.data (2 * i)).toNat + 256 * (s.data (2 * i + 1)).toNat

/-- Write `n` chars at `Sascii[o]`, where the block has room for them. -/
def putascii (s : DisString) (o n : Nat) (f : Nat → Nat) : Option DisString :=
  let data := fun k => if o ≤ k ∧ k < o + n then UInt8.ofNat (f (k - o)) else s.data k
  if o + n ≤ s.room then some { s with data := data } else none

/-- Write `n` runes at `Srune[o]`, where the block has room for them. -/
def putrunes (s : DisString) (o n : Nat) (f : Nat → Nat) : Option DisString :=
  let data := fun k =>
    if o ≤ k / 2 ∧ k / 2 < o + n then UInt8.ofNat (f (k / 2 - o) / 256 ^ (k % 2)) else s.data k
  if 2 * (o + n) ≤ s.room then some { s with data := data } else none

def setlen (s : DisString) (len : Int) : DisString := { s with len := len }

/-- `max /= sizeof(Rune)`. -/
def halvemax (s : DisString) : DisString := { s with max := s.max / 2 }

def length (s : DisString) : Nat := s.len.natAbs

def chars (s : DisString) : Str :=
  (List.range s.length).map (if s.len < 0 then s.rune else s.ascii)

end DisString

/-! ### The heap -/

/-- A block of the heap that holds a string. -/
structure Cell where
  ref : Nat
  str : DisString

/-- The blocks are numbered. The variables that hold no string hold `H`. -/
structure Strings where
  heap : Nat → Option Cell
  next : Nat
  vars : Nat → Option Nat

/-- `error(exBounds)` and `error(exHeap)`. -/
inductive Exn where
  | exBounds
  | exHeap
deriving DecidableEq

abbrev Act (α : Type) := Action Strings Exn α

namespace Strings

def put (s : Strings) (a : Nat) (cell : Option Cell) : Strings :=
  { s with heap := fun b => if b = a then cell else s.heap b }

def alloc (s : Strings) (str : DisString) : Strings :=
  { s.put s.next (some ⟨1, str⟩) with next := s.next + 1 }

def assign (s : Strings) (d : Nat) (value : Option Nat) : Strings :=
  { s with vars := fun x => if x = d then value else s.vars x }

end Strings

/-- A request rounded to the sizes of the pool's blocks, less the header and the tail. -/
def poolround (asize : Nat) : Nat := (asize + 24 + 127) / 128 * 128 - 24

/-- `poolalloc`: the size of the block for a request, which may be larger than asked for or none
at all, and what the block holds. A request of a gigabyte is refused, so that no length comes
near the ends of an int. -/
structure Pool where
  grant : Nat → Nat → Option Nat
  fill : Nat → Nat → UInt8
  enough : ∀ {k asize size}, grant k asize = some size → poolround asize ≤ size

def sizeofHeap : Nat := 32

def sizeofString : Nat := 24

/-- Where `data` starts in a string. -/
def offsetofData : Nat := 16

def look (a : Nat) : Act Cell := .attempt fun s => (s.heap a).map fun cell => (cell, s)

def change (a : Nat) (f : DisString → Option DisString) : Act Unit := .attempt fun s =>
  (s.heap a).bind fun cell => (f cell.str).map fun str => ((), s.put a (some ⟨cell.ref, str⟩))

def destroy : Option Nat → Act Unit
  | none => pure ()
  | some a => .attempt fun s => (s.heap a).map fun cell =>
    ((), s.put a (if 1 < cell.ref then some { cell with ref := cell.ref - 1 } else none))

def S (x : Nat) : Act (Option Nat) := .get fun s => s.vars x

def assign (d : Nat) (value : Option Nat) : Act Unit := .modify fun s => s.assign d value

section Instructions

variable (pool : Pool)

/-! ### Strings -/

def newstring (nb : Nat) : Act Nat := fun s =>
  match pool.grant s.next (sizeofHeap + (sizeofString + nb)) with
  | none => .raised .exHeap s
  | some hmsize => .ok s.next <| s.alloc
      { len := nb
        max := hmsize - (sizeofString + sizeofHeap)
        room := hmsize - (sizeofHeap + offsetofData)
        data := pool.fill s.next }

def newrunes (nr : Nat) : Act Nat :=
  if nr = 0 then newstring pool nr
  else do
    let ns ← newstring pool (2 * nr)
    change ns fun n => some (n.setlen (-nr)).halvemax
    pure ns

/-- `stringdup` of a string that is not `H`. -/
def duplicate (a : Nat) : Act Nat := do
  let cell ← look a
  let s := cell.str
  if 0 ≤ s.len then
    let ns ← newstring pool s.length
    change ns fun n => n.putascii 0 s.length s.ascii
    pure ns
  else
    let ns ← newrunes pool s.length
    change ns fun n => n.putrunes 0 s.length s.rune
    pure ns

def stringdup : Option Nat → Act (Option Nat)
  | none => pure none
  | some a => do
      let ns ← duplicate pool a
      pure (some ns)

/-- The copy that `splitc` makes of a string. -/
def splitcopy (ss : Nat) (expand : Bool) : Act Nat := do
  let cell ← look ss
  let s := cell.str
  if expand ∧ 0 < s.len then
    let ns ← newrunes pool s.length
    change ns fun n => n.putrunes 0 s.length s.ascii
    pure ns
  else duplicate pool ss

/-- `splitc` of a variable that holds the string `ss`. -/
def splitc (d : Nat) (ss : Nat) (expand : Bool) : Act Nat := do
  let ns ← splitcopy pool ss expand
  destroy (some ss)
  assign d (some ns)
  pure ns

/-- `if(ss != S(d))`, the string takes the place of what the variable held. -/
def store (d : Nat) (ss : Option Nat) : Act Unit := do
  let old ← S d
  if ss ≠ old then
    destroy old
    assign d ss
  else pure ()

/-! ### Instructions -/

/-- The end of `insc` for a string of runes of length `l`. -/
def inscrunes (d : Nat) (ss : Nat) (l v : Nat) (r : Int) : Act Unit := do
  let cell ← look ss
  let s := cell.str
  let c := (r % 65536).toNat
  if v < l then
    change ss fun s => s.putrunes v 1 fun _ => c
    store d (some ss)
  else if v = l ∧ v < s.max then
    change ss fun s => (s.setlen (-(v + 1))).putrunes v 1 fun _ => c
    store d (some ss)
  else if v ≠ l then .raise .exBounds
  else
    let ns ← newstring pool ((v + 1 + v / 4) * 2)
    change ns fun n => (n.putrunes 0 s.length s.rune).bind fun n =>
      (n.putrunes v 1 fun _ => c).map fun n => (n.setlen (-(v + 1))).halvemax
    store d (some ns)

/-- The end of `insc` for a string of chars. -/
def inscascii (d : Nat) (ss : Nat) (l v : Nat) (r : Int) : Act Unit := do
  let cell ← look ss
  let s := cell.str
  let c := (r % 256).toNat
  if v < l then
    change ss fun s => s.putascii v 1 fun _ => c
    store d (some ss)
  else if v = l ∧ v < s.max then
    change ss fun s => (s.setlen (v + 1)).putascii v 1 fun _ => c
    store d (some ss)
  else if v ≠ l then .raise .exBounds
  else
    let ns ← newstring pool (v + 1 + v / 4)
    change ns fun n => (n.putascii 0 l s.ascii).bind fun n =>
      (n.putascii v 1 fun _ => c).map fun n => n.setlen (v + 1)
    store d (some ns)

/-- The first runes of the code are those above the chars. -/
def Runeself : Int := 0x80

/-- The string that `insc` changes, where the variable holds the string `a`. -/
def unshared (d a : Nat) (expand : Bool) : Act Nat := do
  let cell ← look a
  if 1 < cell.ref ∨ (expand ∧ 0 < cell.str.len) then splitc pool d a expand else pure a

def insc (r : Int) (v : Nat) (d : Nat) : Act Unit := do
  let expand := decide (Runeself ≤ r)
  match ← S d with
  | none =>
    let ss ← newstring pool 0
    if expand then
      change ss fun s => some s.halvemax
      inscrunes pool d ss 0 v r
    else inscascii pool d ss 0 v r
  | some a =>
    let ss ← unshared pool d a expand
    let cell ← look ss
    if cell.str.len < 0 ∨ expand then inscrunes pool d ss cell.str.length v r
    else inscascii pool d ss cell.str.length v r

def slicer (start v : Nat) : Option Nat → Act (Option Nat)
  | none => if start = 0 ∧ v = 0 then pure none else .raise .exBounds
  | some a => do
      let cell ← look a
      let ds := cell.str
      if v < start ∨ ds.length < v then .raise .exBounds
      else if v - start = 0 then pure none
      else if ds.len < 0 then
        let ns ← newrunes pool (v - start)
        change ns fun n => n.putrunes 0 (v - start) fun i => ds.rune (start + i)
        pure (some ns)
      else
        let ns ← newstring pool (v - start)
        change ns fun n => n.putascii 0 (v - start) fun i => ds.ascii (start + i)
        pure (some ns)

def slicec (s m : Nat) (d : Nat) : Act Unit := do
  let ns ← slicer pool s m (← S d)
  destroy (← S d)
  assign d ns

/-- The size to ask for when a string is appended to. -/
def grown (append : Bool) (l : Nat) : Nat := if append then l + l / 4 else l

/-- A string of `l` runes that begins with those of the first: itself, where it may be appended
to and has room, or else a new one. -/
def frontrunes (a1 : Nat) (append : Bool) (l : Nat) : Act Nat := do
  let s1 := (← look a1).str
  if append ∧ l ≤ s1.max then pure a1
  else
    let ns ← newrunes pool (grown append l)
    change ns fun n => n.putrunes 0 s1.length s1.rune
    pure ns

def frontchars (a1 : Nat) (append : Bool) (l : Nat) : Act Nat := do
  let s1 := (← look a1).str
  if append ∧ l ≤ s1.max then pure a1
  else
    let ns ← newstring pool (grown append l)
    change ns fun n => n.putascii 0 s1.length s1.ascii
    pure ns

/-- The second string behind the first. It is read where it is copied, which is after the length
of the result is set. -/
def backrunes (ns a2 : Nat) (l1 l : Nat) : Act Unit := do
  change ns fun n => some (n.setlen (-l))
  let s2 := (← look a2).str
  change ns fun n => n.putrunes l1 s2.length (if s2.len < 0 then s2.rune else s2.ascii)

def backchars (ns a2 : Nat) (l1 l : Nat) : Act Unit := do
  change ns fun n => some (n.setlen l)
  let s2 := (← look a2).str
  change ns fun n => n.putascii l1 s2.length s2.ascii

/-- `addstring` of two strings that are not `H`. -/
def addstrings (a1 a2 : Nat) (append : Bool) : Act Nat := do
  let s1 := (← look a1).str
  let s2 := (← look a2).str
  let l := s1.length + s2.length
  if s1.len < 0 then
    let ns ← frontrunes pool a1 append l
    backrunes ns a2 s1.length l
    pure ns
  else if s2.len < 0 then
    let ns ← newrunes pool (grown append l)
    change ns fun n => some (n.setlen (-l))
    change ns fun n => (n.putrunes 0 s1.length s1.ascii).bind fun n =>
      n.putrunes s1.length s2.length s2.rune
    pure ns
  else
    let ns ← frontchars pool a1 append l
    backchars ns a2 s1.length l
    pure ns

def addstring (s1 s2 : Option Nat) (append : Bool) : Act (Option Nat) :=
  match s1, s2 with
  | none, none => pure none
  | none, some a2 => stringdup pool (some a2)
  | some a1, s2 => do
      let cell ← look a1
      let append := append && !decide (1 < cell.ref)
      match s2 with
      | none => if append then pure (some a1) else stringdup pool (some a1)
      | some a2 => do
          let ns ← addstrings pool a1 a2 append
          pure (some ns)

def addc (s m d : Nat) : Act Unit := do
  let ns ← addstring pool (← S m) (← S s) (m = d)
  store d ns

def c2string (cs : List UInt8) : Act Nat :=
  let bytes := cs.map UInt8.toNat
  if bytes.all fun c => decide (c < 0x80) then do
    let s ← newstring pool cs.length
    change s fun n => n.putascii 0 cs.length fun i => bytes.getD i 0
    pure s
  else do
    let runes := Lib9.c2string bytes
    let s ← newrunes pool runes.length
    change s fun n => n.putrunes 0 runes.length fun i => runes.getD i 0
    pure s

/-- A new string takes the place of what the variable held. -/
def replace (d : Nat) (ds : Option Nat) : Act Unit := do
  destroy (← S d)
  assign d ds

def cvtac (a : Option (List UInt8)) (d : Nat) : Act Unit :=
  match a with
  | none => replace d none
  | some cs => do
      let ds ← c2string pool cs
      replace d (some ds)

/-- `newstring(16)` with what `sprint` prints into it, and the NUL at the end. -/
def printed (text : Str) (d : Nat) : Act Unit := do
  let ds ← newstring pool 16
  change ds fun n => (n.putascii 0 (text.length + 1) fun i => text.getD i 0).map fun n =>
    n.setlen text.length
  replace d (some ds)

/-- `%d` prints the low half of the word. -/
def cvtwc (w : BitVec 64) (d : Nat) : Act Unit := printed pool (decimal (w.setWidth 32).toInt) d

def cvtlc (v : BitVec 64) (d : Nat) : Act Unit := printed pool (decimal v.toInt) d

def dup (s d : Nat) : Act Unit := do
  let ns ← stringdup pool (← S s)
  replace d ns

/-- `D2H(sv)->ref++`. -/
def incref : Option Nat → Act Unit
  | none => pure ()
  | some a => .attempt fun s => (s.heap a).map fun cell =>
    ((), s.put a (some { cell with ref := cell.ref + 1 }))

def movp (s d : Nat) : Act Unit := do
  let sv ← S s
  incref sv
  let dv ← S d
  assign d sv
  destroy dv

inductive Strop where
  | insc (r : Int) (v d : Nat)
  | slicec (s m d : Nat)
  | addc (s m d : Nat)
  | cvtac (a : Option (List UInt8)) (d : Nat)
  | cvtwc (w : BitVec 64) (d : Nat)
  | cvtlc (v : BitVec 64) (d : Nat)
  | dup (s d : Nat)
  | movp (s d : Nat)

def Strop.exec : Strop → Act Unit
  | .insc r v d => Dis.insc pool r v d
  | .slicec s m d => Dis.slicec pool s m d
  | .addc s m d => Dis.addc pool s m d
  | .cvtac a d => Dis.cvtac pool a d
  | .cvtwc w d => Dis.cvtwc pool w d
  | .cvtlc v d => Dis.cvtlc pool v d
  | .dup s d => Dis.dup pool s d
  | .movp s d => Dis.movp s d

end Instructions

end Infernode.Dis
