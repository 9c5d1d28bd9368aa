import Infernode.Lib.Strings

/-!
The URL parser `appl/lib/url.b`.

Owns: the schemes, `ParsedUrl`, `split` and `makeurl`, and how `split` cuts.

Does not own: rebuilding or making absolute a parsed URL, which the web client
does on the text instead.
-/

namespace Infernode.Url

open Text Strings

inductive Scheme where
  | NOSCHEME
  | HTTP
  | HTTPS
  | FTP
  | FILE
  | GOPHER
  | MAILTO
  | NEWS
  | NNTP
  | TELNET
  | WAIS
  | PROSPERO
  | JAVASCRIPT
  | UNKNOWN
deriving DecidableEq, Repr

def Scheme.all : List Scheme :=
  [.NOSCHEME, .HTTP, .HTTPS, .FTP, .FILE, .GOPHER, .MAILTO, .NEWS, .NNTP, .TELNET, .WAIS,
    .PROSPERO, .JAVASCRIPT, .UNKNOWN]

/-- The table `schemes`. -/
def schemes : Scheme → Str
  | .NOSCHEME => str ""
  | .HTTP => str "http"
  | .HTTPS => str "https"
  | .FTP => str "ftp"
  | .FILE => str "file"
  | .GOPHER => str "gopher"
  | .MAILTO => str "mailto"
  | .NEWS => str "news"
  | .NNTP => str "nntp"
  | .TELNET => str "telnet"
  | .WAIS => str "wais"
  | .PROSPERO => str "prospero"
  | .JAVASCRIPT => str "javascript"
  | .UNKNOWN => str "unknown"

structure ParsedUrl where
  scheme : Scheme
  user : Str
  passwd : Str
  host : Str
  port : Str
  pstart : Str
  path : Str
  query : Str
  frag : Str
deriving DecidableEq, Repr

/-- The class `-a-zA-Z0-9.+` of the characters of a scheme. -/
def schemechar (c : Nat) : Bool :=
  c == 45 || (decide (97 ≤ c) && decide (c ≤ 122)) || (decide (65 ≤ c) && decide (c ≤ 90)) ||
    (decide (48 ≤ c) && decide (c ≤ 57)) || c == 46 || c == 43

/-- Cut at the first `c`, which belongs to neither side. -/
def split (s : Str) (c : Nat) : Str × Str :=
  let (a, b) := splitl s (· == c)
  (a, b.tail)

def splitscheme (surl : Str) : Scheme × Str :=
  let (sch, url) := split surl 58
  if url = [] then (.NOSCHEME, sch)
  else if (splitl sch fun c => !schemechar c).2 ≠ [] then (.NOSCHEME, surl)
  else ((Scheme.all.find? fun s => schemes s == tolower sch).getD .UNKNOWN, url)

def makeurl (surl : Str) : ParsedUrl :=
  let (scheme, url) := splitscheme surl
  if scheme = .MAILTO ∨ scheme = .JAVASCRIPT then ⟨scheme, [], [], [], [], [], url, [], []⟩
  else
    let (user, passwd, host, port, pstart, path) : Str × Str × Str × Str × Str × Str :=
      if hasprefix url (str "//") then
        let (netloc, path) := splitl (url.drop 2) (· == 47)
        let path := path.tail
        if scheme = .FILE then ([], [], netloc, [], [47], path)
        else
          let (up, hp) := split netloc 64
          let (user, passwd) := if hp = [] then ([], []) else split up 58
          let hp := if hp = [] then up else hp
          let (host, port) := split hp 58
          (user, passwd, host, port, [47], path)
      else if hasprefix url [47] then ([], [], [], [], [47], url.drop 1)
      else ([], [], [], [], [], url)
    if scheme = .FILE then
      ⟨scheme, user, passwd, if host = [] then str "localhost" else host, port, pstart, path,
        [], []⟩
    else
      let (path, frag) := split path 35
      let (path, query) := split path 63
      ⟨scheme, user, passwd, host, port, pstart, path, query, frag⟩

/-! ### Cutting -/

theorem split_append {left right : Str} {c : Nat} (absent : c ∉ left) :
    split (left ++ c :: right) c = (left, right) := by
  have kept : ∀ d ∈ left, (!(d == c)) = true := by
    intro d member
    have other : d ≠ c := fun same => absent (same ▸ member)
    simpa using other
  simp only [split, splitl]
  rw [takeWhile_append_stop kept (by simp), List.dropWhile_append_of_pos kept,
    List.dropWhile_cons_of_neg (by simp), List.tail_cons]

end Infernode.Url
