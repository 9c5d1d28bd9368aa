import Infernode.Net.InetText
import Infernode.Lib9.Rune

/-!
The address parser of the network device, `emu/port/ipaux.c`, with the part of
`emu/port/devip.c` that reads the remote address of a connection.

Owns: the C library's `strtoul`, `v4parseip`, `parseip`, `v4tov6` and
`setraddrport`. A C string is the list of its bytes before the NUL, an address is
its sixteen bytes.
-/

namespace Infernode.Ipaux

open Text Inet

/-! ### Numbers -/

def digitOf (base c : Nat) : Bool :=
  match digitValue c with
  | some d => decide (d < base)
  | none => false

def valueOf (base : Nat) (digits : Str) : Nat :=
  digits.foldl (fun value c => value * base + (digitValue c).getD 0) 0

/-- The base that the text selects, and the text after a prefix `0x`. -/
def strtoulBase (base : Nat) : Str → Nat × Str
  | 48 :: x :: d :: rest =>
    if (base = 0 ∨ base = 16) ∧ (x = 120 ∨ x = 88) ∧ digitOf 16 d then (16, d :: rest)
    else (if base = 0 then 8 else base, 48 :: x :: d :: rest)
  | 48 :: rest => (if base = 0 then 8 else base, 48 :: rest)
  | text => (if base = 0 then 10 else base, text)

/-- The largest unsigned long, for what overflows. -/
def ULONG_MAX : Nat := 18446744073709551615

/-- The number at the front of the text, and what follows it; a text without digits is
not read. -/
def strtoul (p : Str) (base : Nat) : Nat × Str :=
  let (minus, q) := takeSign (p.dropWhile isSpace)
  let (base, q) := strtoulBase base q
  let digits := q.takeWhile (digitOf base)
  if digits = [] then (0, p)
  else
    let value := valueOf base digits
    let value :=
      if ULONG_MAX < value then ULONG_MAX
      else if minus then (ULONG_MAX + 1 - value) % (ULONG_MAX + 1) else value
    (value, q.dropWhile (digitOf base))

/-! ### Addresses -/

/-- The loop of `v4parseip`, for at most so many bytes. -/
def v4bytes : Nat → Str → List Nat × Str
  | 0, p => ([], p)
  | _ + 1, [] => ([], [])
  | n + 1, c :: rest =>
    let (value, p) := strtoul (c :: rest) 0
    let (later, p) := v4bytes n (if p.head? = some dot then p.tail else p)
    (value % 256 :: later, p)

/-- Short forms are filled up by the class of the network. -/
def v4parseip (p : Str) : List Nat × Str :=
  let (bytes, p) := v4bytes 4 p
  let filled :=
    match bytes with
    | [a, b, c] =>
      if a / 64 < 2 then [a, 0, b, c] else if a / 64 = 2 then [a, b, 0, c] else [a, b, c, 0]
    | [a, b] => if a / 64 < 2 then [a, 0, 0, b] else [a, b, 0, 0]
    | _ => bytes ++ List.replicate (4 - bytes.length) 0
  (filled, p)

/-- The state of the loop of `parseip`: the bytes written, the place of a `::`, and
whether no colon was seen. -/
structure Parse where
  «to» : List Nat
  elipsis : Nat
  v4 : Bool
deriving DecidableEq, Repr

def parsegroups : Nat → Parse → Str → Parse
  | 0, s, _ => s
  | _ + 1, s, [] => s
  | n + 1, s, c :: rest =>
    let op := c :: rest
    let (x, p) := strtoul op 16
    if p.head? = some dot ∨ (p = [] ∧ s.to = []) then
      { s with «to» := s.to ++ (v4parseip op).1 }
    else
      let written := s.to ++ [x / 256 % 256, x % 256]
      if p.head? = some colon then
        if p.tail.head? = some colon then parsegroups n ⟨written, written.length, false⟩ p.tail.tail
        else parsegroups n ⟨written, s.elipsis, false⟩ p.tail
      else parsegroups n ⟨written, s.elipsis, s.v4⟩ p

/-- Move what follows the `::` to the end. -/
def Parse.spread (s : Parse) : List Nat :=
  (s.to.take s.elipsis ++ List.replicate (16 - s.to.length) 0 ++ s.to.drop s.elipsis).take 16

def nhgetl (bytes : List Nat) : Nat := bytes.foldl (fun value b => value * 256 + b) 0

/-- The bytes of the address, and the result of the call. -/
def parseip (p : Str) : List Nat × Nat :=
  let s := parsegroups 8 ⟨[], 0, true⟩ p
  if s.v4 then
    let «to» := (s.spread.set 10 0xff).set 11 0xff
    («to», nhgetl («to».drop 12))
  else (s.spread, 6)

def v4tov6 (v4 : List Nat) : List Nat := [0, 0, 0, 0, 0, 0, 0, 0, 0, 0, 0xff, 0xff] ++ v4

/-- The remote address of a connection, from the argument of `connect`. -/
def setraddrport (s : Str) : Except String (List Nat) :=
  if 33 ∉ s then .error "malformed address"
  else
    let (raddr, ok) := parseip (s.takeWhile (· != 33))
    if ok = 0 then .error "invalid IP address" else .ok raddr

end Infernode.Ipaux
