import Infernode.Net.Cookies

/-!
The cookie jar over any history, and its text, from `appl/lib/webclient.b`.

Owns: whose cookies a jar holds and to whom it sends them, whatever its clock reads; `jartext` and
`jaradd`, and the jar that the lines of its text give back.
-/

namespace Infernode.Cookies

open Text Strings List

/-! ### Confinement -/

/-- The host is the one that the cookie is for, or it is in the domain of the cookie. -/
def Cookie.Own {τ : Type} (host : Str) (c : Cookie τ) : Prop :=
  if c.hostonly then host = c.domain else DomainMatch host c.domain

/-- A response from `u` may set the cookie. -/
def Owned (u : Str) (c : Cookie Int) : Prop :=
  let (scheme, host, _) := urlparts u
  host ≠ [] ∧ c.Own host ∧ (c.secure → scheme = str "https")

variable {readtimezone : Str → Daytime.Timezone} {u sc host : Str} {jar : List (Cookie Int)}
  {began ended t : Int} {c : Cookie Int}

/-- No two cookies have one name, domain and path, and every one was set by a response that may
set it. -/
structure Confined (events : List Event) (jar : List (Cookie Int)) : Prop where
  distinct : jar.Pairwise fun a b => same a b = false
  owned : ∀ c ∈ jar, ∃ u sc began ended, Event.set u sc began ended ∈ events ∧ Owned u c

/-- A cookie with all that its line says; a flag is any `int`. -/
structure Stored where
  name : Str
  value : Str
  domain : Str
  path : Str
  expires : Int
  secure : Int
  httponly : Int
  hostonly : Int
deriving DecidableEq

def Stored.same (o c : Stored) : Bool :=
  o.name == c.name && o.domain == c.domain && o.path == c.path

def Stored.line (c : Stored) : Str :=
  c.domain ++ 32 :: (c.path ++ 32 :: ((c.name ++ 61 :: c.value) ++ 32 :: (decimal c.expires ++
    32 :: (decimal c.secure ++ 32 :: (decimal c.httponly ++ 32 :: decimal c.hostonly)))))

/-- It fits into one line: no field has a blank or ends the line, the name no `=`, and the domain
is in lower case. -/
structure Stored.Plain (c : Stored) : Prop where
  blank : ∀ s ∈ [c.name, c.value, c.domain, c.path], ∀ b ∈ s, b ≠ 32 ∧ b ≠ 9 ∧ b ≠ 10
  name : c.name ≠ [] ∧ 61 ∉ c.name
  domain : c.domain ≠ [] ∧ tolower c.domain = c.domain
  path : c.path ≠ []
  words : InWord c.expires ∧ InWord c.secure ∧ InWord c.httponly ∧ InWord c.hostonly

end Infernode.Cookies
