import Infernode.Lib.Strings

/-!
Contract: URI references and their resolution (RFC 3986, section 5), without the
removal of dot segments.

Owns: the components of a reference, the resolution of one reference against
another, the target that components name, and origins.
-/

namespace Infernode.Uri

open Text Strings List

/-! ### Components -/

structure Ref where
  scheme : Option Str
  authority : Option Str
  path : Str
  query : Option Str
  fragment : Option Str
deriving DecidableEq, Repr

def isAlpha (c : Nat) : Bool :=
  (decide (97 ≤ c) && decide (c ≤ 122)) || (decide (65 ≤ c) && decide (c ≤ 90))

def isSchemeChar (c : Nat) : Bool :=
  isAlpha c || (decide (48 ≤ c) && decide (c ≤ 57)) || c == 43 || c == 45 || c == 46

/-- A letter and scheme characters before a colon, and what follows the colon. -/
def splitScheme (text : Str) : Option Str × Str :=
  match text.dropWhile isSchemeChar with
  | 58 :: rest =>
    match text.takeWhile isSchemeChar with
    | first :: others => if isAlpha first then (some (first :: others), rest) else (none, text)
    | [] => (none, text)
  | _ => (none, text)

def endsAuthority (c : Nat) : Bool := c == 47 || c == 63 || c == 35

def splitAuthority : Str → Option Str × Str
  | 47 :: 47 :: rest =>
    (some (rest.takeWhile fun c => !endsAuthority c), rest.dropWhile fun c => !endsAuthority c)
  | text => (none, text)

def pathOf (text : Str) : Str := text.takeWhile fun c => !(c == 63 || c == 35)

def queryOf (text : Str) : Option Str :=
  match text.dropWhile fun c => !(c == 63 || c == 35) with
  | 63 :: rest => some (rest.takeWhile (· != 35))
  | _ => none

def fragmentOf (text : Str) : Option Str :=
  match text.dropWhile (· != 35) with
  | 35 :: rest => some rest
  | _ => none

def parse (text : Str) : Ref :=
  let (scheme, rest) := splitScheme text
  let (authority, rest) := splitAuthority rest
  ⟨scheme, authority, pathOf rest, queryOf rest, fragmentOf rest⟩

/-! ### Resolution -/

def merge (authority : Option Str) (base path : Str) : Str :=
  if authority ≠ none ∧ base = [] then 47 :: path else (splitr base (· == 47)).1 ++ path

/-- The reference that `rel` names when it is found at `base`. -/
def resolve (base rel : Ref) : Ref :=
  if rel.scheme ≠ none then rel
  else if rel.authority ≠ none then { rel with scheme := base.scheme }
  else if rel.path = [] then
    ⟨base.scheme, base.authority, base.path, if rel.query ≠ none then rel.query else base.query,
      rel.fragment⟩
  else if rel.path.head? = some 47 then
    ⟨base.scheme, base.authority, rel.path, rel.query, rel.fragment⟩
  else
    ⟨base.scheme, base.authority, merge base.authority base.path rel.path, rel.query, rel.fragment⟩

/-! ### What a reference names -/

def userinfo (authority : Str) : Str := (splitr authority (· == 64)).1

def hostPort (authority : Str) : Str × Str :=
  let hp := (splitr authority (· == 64)).2
  let (front, port) := splitr hp (· == 58)
  if front = [] ∨ 93 ∈ port then (hp, []) else (front.dropLast, port)

def effectivePort (scheme port : Str) : Str :=
  if port ≠ [] then port
  else if tolower scheme = str "http" then str "80"
  else if tolower scheme = str "https" then str "443"
  else []

def Ref.origin (r : Ref) : Option Str × Option (Str × Str) :=
  (r.scheme.map tolower, r.authority.map fun a =>
    ((hostPort a).1, effectivePort (r.scheme.getD []) (hostPort a).2))

/-- What distinguishes references: letter case in the scheme and a default port do not. -/
def Ref.target (r : Ref) :
    (Option Str × Option (Str × Str)) × Option Str × Str × Option Str × Option Str :=
  (r.origin, r.authority.map userinfo, r.path, r.query, r.fragment)

/-! ### Components of composed text -/

end Infernode.Uri
