import Infernode.Net.Publicnet
import Infernode.Net.Url

/-!
Whether the host that the filter checks is the host that the web client dials.

Owns: the texts that `urlhost` and `makeurl` cut a host from, what it takes for
the two cuts of one text to agree, and the exact condition on a URL under which
checked and dialled host are the same.
-/

namespace Infernode.Publicnet

open Text Strings Url List

/-- Hosts that are equal up to letter case and surrounding brackets. -/
def SameHost (left right : Str) : Prop :=
  tolower left = tolower right ∨ tolower left = 91 :: tolower right ++ [93] ∨
    tolower right = 91 :: tolower left ++ [93]

/-- The checked host is the dialled host, where both exist. -/
def Agrees (u : Str) : Prop :=
  urlhost u ≠ [] → (makeurl u).host ≠ [] → SameHost (urlhost u) (makeurl u).host

/-! ### The checked text and the dialled text -/

def queryOrFragment (c : Nat) : Bool := c == 63 || c == 35

/-- What stands between `//` and the next slash. -/
def netloc (url : Str) : Str := (splitl (url.drop 2) (· == 47)).1

/-- What follows the first `@`, if anything does. -/
def hostport (netloc : Str) : Str :=
  if (Url.split netloc 64).2 = [] then (Url.split netloc 64).1 else (Url.split netloc 64).2

def authority (text : Str) : Str := text.takeWhile fun c => !queryOrFragment c

variable {text rest : Str} {c : Nat}

end Infernode.Publicnet
