import Infernode.Net.Url

/-!
The redirect loop of the web client `appl/lib/webclient.b`.

Owns: `request0`, `resolve`, `schemehost`, `redirectheaders` and the checks of the
text of a request.

Does not own: dialling and the exchange of one request (`dorequest`), and the
cookie jar, which are parameters; nor the decoding of a body.
-/

namespace Infernode.Webclient

open Text Strings Url

structure Header where
  name : Str
  value : Str
deriving DecidableEq, Repr

structure Response where
  statuscode : Int
  headers : List Header
  body : List Nat
  url : Str
deriving DecidableEq, Repr

def Response.hdrval (r : Response) (name : Str) : Str :=
  ((r.headers.find? fun h => tolower h.name == tolower name).map Header.value).getD []

/-! ### The text of a request -/

def validtoken (s : Str) : Bool := !s.isEmpty && s.all fun c => !(decide (c ≤ 32) || c == 127)

def validurltext (s : Str) : Bool := !s.isEmpty && s.all fun c => !(decide (c ≤ 32) || c == 127)

def validheadername (s : Str) : Bool :=
  !s.isEmpty && s.all fun c => !(decide (c ≤ 32) || c == 58 || c == 127)

def validheadervalue (s : Str) : Bool := s.all fun c => !(decide (c < 32) || c == 127)

def validrequesttext (method requrl : Str) (hdrs : List Header) : Option String :=
  if !validtoken method then some "invalid HTTP method"
  else if !validurltext requrl then some "invalid URL text"
  else
    hdrs.findSome? fun h =>
      if !validheadername h.name then some "invalid HTTP header name"
      else if !validheadervalue h.value then some "invalid HTTP header value"
      else none

/-! ### Redirects -/

def schemehost (requrl : Str) : Str :=
  let u := makeurl requrl
  let port := if u.port = [] then (if u.scheme = .HTTPS then str "443" else str "80") else u.port
  let s := schemes u.scheme ++ str "://" ++ u.host
  if port ≠ str "80" ∧ port ≠ str "443" then s ++ 58 :: port else s

/-- The characters that `resolve` passes over in search of a scheme's colon. -/
def relchar (c : Nat) : Bool :=
  (decide (97 ≤ c) && decide (c ≤ 122)) || (decide (65 ≤ c) && decide (c ≤ 90)) ||
    (decide (48 ≤ c) && decide (c ≤ 57)) || c == 43 || c == 45 || c == 46

def resolve (base rel : Str) : Str :=
  if (rel.dropWhile relchar).head? = some 58 then rel
  else
    let sh := schemehost base
    let scheme := if 58 ∈ base then base.takeWhile (· != 58) else []
    if hasprefix rel (str "//") then scheme ++ 58 :: rel
    else if rel.head? = some 47 then sh ++ rel
    else
      let path := (base.drop sh.length).takeWhile fun c => !(c == 63 || c == 35)
      if rel.head? = some 63 then sh ++ path ++ rel
      else sh ++ (splitr path (· == 47)).1 ++ rel

def safeheader (h : Header) : Bool :=
  tolower h.name == str "accept" || tolower h.name == str "accept-encoding" ||
    tolower h.name == str "accept-language" || tolower h.name == str "content-type" ||
    tolower h.name == str "user-agent"

def redirectheaders (hdrs : List Header) : List Header := hdrs.filter safeheader

/-! ### The loop -/

structure JarOps (Jar : Type) where
  header : Jar → Str → Str
  set : Jar → Str → Str → Jar

/-- One request: `hdrs` are the caller's headers that it carries, `cookie` the jar's. -/
structure Request where
  method : Str
  url : Str
  hdrs : List Header
  cookie : Option Header
  body : List Nat
deriving DecidableEq, Repr

structure Exchange where
  request : Request
  answer : Except String Response

section Loop

variable {Jar : Type} (jarOps : JarOps Jar) (dorequest : Nat → Request → Except String Response)

def redirects (statuscode : Int) : Bool :=
  statuscode == 301 || statuscode == 302 || statuscode == 303 || statuscode == 307 ||
    statuscode == 308

def redirectmethod (statuscode : Int) (method : Str) (body : List Nat) : Str × List Nat :=
  if statuscode = 303 ∨ ((statuscode = 301 ∨ statuscode = 302) ∧ method = str "POST") then
    (str "GET", [])
  else (method, body)

def jarcookie (requrl : Str) (jar : Option Jar) : Option Header :=
  match jar.map fun j => jarOps.header j requrl with
  | some (c :: value) => some ⟨str "Cookie", c :: value⟩
  | _ => none

def setcookies (requrl : Str) (headers : List Header) (jar : Jar) : Jar :=
  headers.foldl
    (fun jar h => if tolower h.name == str "set-cookie" then jarOps.set jar requrl h.value else jar)
    jar

/-- The loop of `request0`, `left` turns before it gives up, with the exchanges that
it makes. -/
def request0 :
    Nat → Nat → Str → Str → List Header → List Nat → Option Jar →
      List Exchange × Except String Response
  | 0, _, _, _, _, _, _ => ([], .error "too many redirects")
  | left + 1, redir, method, requrl, hdrs, body, jar =>
    let cookie := jarcookie jarOps requrl jar
    match validrequesttext method requrl (cookie.toList ++ hdrs) with
    | some verr => ([], .error verr)
    | none =>
      let request : Request := ⟨method, requrl, hdrs, cookie, body⟩
      match dorequest redir request with
      | .error err => ([⟨request, .error err⟩], .error err)
      | .ok resp =>
        let resp := { resp with url := requrl }
        let jar := jar.map (setcookies jarOps requrl resp.headers)
        let loc := resp.hdrval (str "Location")
        if redirects resp.statuscode = false ∨ loc = [] then
          ([⟨request, .ok resp⟩], .ok resp)
        else
          let newurl := resolve requrl loc
          let hdrs :=
            if schemehost newurl ≠ schemehost requrl then redirectheaders hdrs else hdrs
          let (method, body) := redirectmethod resp.statuscode method body
          let (later, result) :=
            request0 left (redir + 1) method newurl hdrs body jar
          (⟨request, .ok resp⟩ :: later, result)

end Loop

end Infernode.Webclient
