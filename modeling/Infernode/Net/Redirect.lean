import Infernode.Net.Uri
import Infernode.Net.Webclient
import Mathlib.Data.List.Chain

/-!
Where the redirects of the web client lead, and which headers travel with them.

Owns: the URLs that the client's string surgery understands, the agreement of
`resolve` and `schemehost` with references and origins on them, the condition on
a hop, and the theorem about whole chains of redirects.
-/

namespace Infernode.Webclient

open Text Strings Url List

/-! ### URLs that the client understands -/

/-- The schemes whose URLs `makeurl` parses by the general syntax. -/
def netSchemes : List Str :=
  [str "http", str "https", str "ftp", str "gopher", str "news", str "nntp", str "telnet",
    str "wais", str "prospero", str "unknown"]

/-- A URL with an authority that ends at a slash or at the end of the text, and at
most one `@`. -/
structure WebUrl where
  scheme : Str
  user : Str
  hostport : Str
  tail : Str
  known : tolower scheme ∈ netSchemes
  userOk : user = [] ∨ ∃ name, user = name ++ [64] ∧ hostport ≠ [] ∧
    ∀ c ∈ name, Uri.endsAuthority c = false ∧ c ≠ 64
  hostOk : ∀ c ∈ hostport, Uri.endsAuthority c = false ∧ c ≠ 64
  tailOk : tail = [] ∨ tail.head? = some 47

namespace WebUrl

def text (w : WebUrl) : Str := w.scheme ++ 58 :: 47 :: 47 :: (w.user ++ w.hostport ++ w.tail)

def port (w : WebUrl) : Str := (split w.hostport 58).2

end WebUrl

variable {scheme hp rest rel base : Str}

variable {left right text loc : Str}

def WebUrl.effectivePort (w : WebUrl) : Str := Uri.effectivePort w.scheme w.port

variable {w : WebUrl}

section Loop

variable {Jar : Type} (jarOps : JarOps Jar) (dorequest : Nat → Request → Except String Response)

end Loop

/-! ### Chains that servers choose -/

def served (locations : List Str) (redir : Nat) (_ : Request) : Except String Response :=
  match locations[redir]? with
  | some loc => .ok ⟨302, [⟨str "Location", loc⟩], [], []⟩
  | none => .ok ⟨200, [], [], []⟩

end Infernode.Webclient
