import Infernode.Lib.Strings

/-!
The public-network filter `appl/lib/publicnet.b`: which hosts a fetch tool may
contact.

Owns: `urlhost`, `hostblocked`, `parseipv4any`, `parseradix`, `publicipv4` and
`dotted`. A 32-bit `int` is its bit pattern, a number below `2^32`, negative when
its top bit is set.
-/

namespace Infernode.Publicnet

open Text Strings

def negative (v : Nat) : Bool := decide (2147483648 ≤ v)

/-! ### Dotted addresses -/

/-- One field of `publicipv4`: decimal digits of a value up to 255. -/
def octet : Nat → Str → Option Nat
  | v, [] => some v
  | v, c :: rest =>
    if c < 48 ∨ 57 < c then none
    else if 255 < v * 10 + (c - 48) then none
    else octet (v * 10 + (c - 48)) rest

def octets : List Str → Option (List Nat)
  | [] => some []
  | field :: rest =>
    if field = [] then none
    else
      match octet 0 field, octets rest with
      | some v, some vs => some (v :: vs)
      | _, _ => none

/-- `1` for a public address, `0` for one that is not, `-1` for no address. -/
def publicipv4 (s : Str) : Int :=
  match octets (s.splitOn 46) with
  | some [x0, x1, x2, _] =>
    if x0 = 0 ∨ x0 = 10 ∨ x0 = 127 ∨ 224 ≤ x0 then 0
    else if x0 = 100 ∧ 64 ≤ x1 ∧ x1 ≤ 127 then 0
    else if x0 = 169 ∧ x1 = 254 then 0
    else if x0 = 172 ∧ 16 ≤ x1 ∧ x1 ≤ 31 then 0
    else if x0 = 192 ∧ (x1 = 168 ∨ (x1 = 0 ∧ (x2 = 0 ∨ x2 = 2))) then 0
    else if x0 = 198 ∧ (x1 = 18 ∨ x1 = 19 ∨ (x1 = 51 ∧ x2 = 100)) then 0
    else if x0 = 203 ∧ x1 = 0 ∧ x2 = 113 then 0
    else 1
  | _ => -1

def dotted (v : Nat) : Str :=
  decimal ((v / 16777216 % 256 : Nat)) ++ 46 :: (decimal ((v / 65536 % 256 : Nat)) ++
    46 :: (decimal ((v / 256 % 256 : Nat)) ++ 46 :: decimal ((v % 256 : Nat))))

/-! ### Numbers in any radix -/

def digit (base c : Nat) : Option Nat :=
  let d :=
    if 48 ≤ c ∧ c ≤ 57 then some (c - 48)
    else if base = 16 ∧ 97 ≤ c ∧ c ≤ 102 then some (c - 97 + 10)
    else if base = 16 ∧ 65 ≤ c ∧ c ≤ 70 then some (c - 65 + 10)
    else none
  d.bind fun d => if base ≤ d then none else some d

/-- The digit loop of `parseradix`; a value that turns negative has overflowed. -/
def digits (base : Nat) : Nat → Str → Option Nat
  | v, [] => some v
  | v, c :: rest =>
    match digit base c with
    | none => none
    | some d =>
      let v := (v * base + d) % 4294967296
      if negative v then none else digits base v rest

def radix : Str → Nat × Str
  | 48 :: 120 :: d :: rest => (16, d :: rest)
  | 48 :: 88 :: d :: rest => (16, d :: rest)
  | 48 :: d :: rest => (8, d :: rest)
  | s => (10, s)

def parseradix (s : Str) : Option Nat :=
  if s = [] ∨ 11 < s.length then none else digits (radix s).1 0 (radix s).2

def parseparts : List Str → Option (List Nat)
  | [] => some []
  | part :: rest =>
    if part = [] then none
    else
      match parseradix part, parseparts rest with
      | some v, some vs => some (v :: vs)
      | _, _ => none

def orparts (addr j : Nat) : List Nat → Option (Nat × Nat)
  | [] => none
  | [last] => some (addr, last)
  | v :: next :: rest =>
    if 255 < v then none else orparts (addr ||| v <<< (8 * (3 - j))) (j + 1) (next :: rest)

def maxlast (nparts : Nat) : Nat :=
  match nparts with
  | 1 => 0x7fffffff
  | 2 => 0xffffff
  | 3 => 0xffff
  | _ => 0xff

/-- Parse an IPv4 literal the way `inet_aton` does. -/
def parseipv4any (s : Str) : Option Nat :=
  match parseparts (s.splitOn 46) with
  | none => none
  | some ordered =>
    if ordered.length < 1 ∨ 4 < ordered.length then none
    else
      match orparts 0 0 ordered with
      | none => none
      | some (addr, last) =>
        if negative last ∨ (1 < ordered.length ∧ maxlast ordered.length < last) then none
        else some (addr ||| last)

/-! ### Hosts -/

/-- Drop the scheme: what follows the first `//` that has anything after it. -/
def stripscheme : Str → Option Str
  | 47 :: 47 :: c :: rest => some (c :: rest)
  | _ :: rest => stripscheme rest
  | [] => none

def urlhost (url : Str) : Str :=
  let s := (stripscheme url).getD url
  let s := s.takeWhile fun c => !(c == 47 || c == 63 || c == 35)
  let s := (splitr s (· == 64)).2
  let s :=
    if s.head? = some 91 then
      if 93 ∈ s then (splitl s (· == 93)).1 ++ [93] else s
    else (splitl s (· == 58)).1
  tolower s

def unbracket (host : Str) : Str :=
  if 2 < host.length ∧ host.head? = some 91 ∧ host.getLast? = some 93 then host.tail.dropLast
  else host

def hostblocked (host : Str) : Bool :=
  if host = [] then true
  else
    let host := unbracket (tolower host)
    if host = str "localhost" ∨ host = str "ip6-localhost" ∨ host = str "metadata" ∨
        host = str "metadata.google.internal" then true
    else if hasprefix host (str "localhost.") then true
    else if hasprefix host (str "::") || hasprefix host (str "fc") ||
        hasprefix host (str "fd") || hasprefix host (str "fe80") then true
    else if host = str "0:0:0:0:0:0:0:1" ∨
        host = str "0000:0000:0000:0000:0000:0000:0000:0001" then true
    else
      match parseipv4any host with
      | some v => decide (publicipv4 (dotted v) ≠ 1)
      | none => false

end Infernode.Publicnet
