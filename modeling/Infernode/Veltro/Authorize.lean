import Infernode.Lib.Ethcrypto
import Infernode.Text.Keyed

/-!
The request for a payment authorization: written by `authorize` of `appl/lib/x402.b`, read
by `parseauthreq` of `appl/veltro/wallet9p.b`.

Owns: the checks on the fields of a server's answer, the text of the request, the parser,
that the parser finds in a written text the fields it was written from, and that in every
text it takes each field comes from one line.

Does not own: the JSON of the answer, the polling for the result, or the signature.
-/

namespace Infernode.Authorize

open Text Ethcrypto

/-! ### Writing -/

structure PaymentReq where
  scheme : Str
  network : Str
  amount : Str
  asset : Str
  payto : Str
  timeout : Int
  name : Str
  version : Str
deriving DecidableEq, Repr

structure ResourceInfo where
  url : Str
deriving DecidableEq, Repr

def noctl (s : Str) : Bool := s.all fun c => decide (32 ≤ c) && decide (c ≤ 126)

/-- `eip155:` and digits. -/
def validnetwork (s : Str) : Bool :=
  if s.length < 8 ∨ 32 < s.length ∨ s.take 7 ≠ str "eip155:" then false
  else (s.drop 7).all isDigit

def validtoken (s : Str) : Bool :=
  if s.length = 0 ∨ 64 < s.length then false else noctl s

def validurlfield (s : Str) : Bool :=
  if s.length = 0 ∨ 1024 < s.length then false else noctl s && s.all (· != 32)

/-- A text from the server as it stands in an error message. -/
def clean (s : Str) : Str := (s.take 64).map fun c => if c < 32 ∨ 126 < c then 63 else c

def validacct (s : Str) : Bool :=
  if s = [] ∨ s = str "." ∨ s = str ".." ∨ 64 < s.length then false
  else s.all fun c =>
    (decide (97 ≤ c) && decide (c ≤ 122)) || (decide (65 ≤ c) && decide (c ≤ 90)) ||
      isDigit c || c == 45 || c == 95 || c == 46

def field (key : String) (val : Str) : Str := str key ++ 32 :: val

def reqlines (req : PaymentReq) : List Str :=
  [field "scheme" req.scheme, field "network" req.network, field "asset" req.asset,
    field "payto" req.payto, field "amount" req.amount, field "timeout" (decimal req.timeout),
    field "name" req.name, field "version" req.version]

def reqtext (lines : List Str) : Str := lines.flatMap (· ++ [10])

/-- The text that is written to the account's `authorize` file, or the error. -/
def authorize (req : PaymentReq) (resource : Option ResourceInfo) (acctname : Str) :
    Except Str Str :=
  if !validacct acctname then .error (str "unsafe wallet account name")
  else if req.scheme ≠ str "exact" then
    .error (str "unsupported payment scheme: " ++ clean req.scheme)
  else if !validnetwork req.network then
    .error (str "malformed network in 402 response: " ++ clean req.network)
  else if strtoaddr req.asset = none then
    .error (str "malformed asset address in 402 response: " ++ clean req.asset)
  else if strtoaddr req.payto = none then
    .error (str "malformed payTo address in 402 response: " ++ clean req.payto)
  else if dectobe req.amount = none then
    .error (str "malformed amount in 402 response: " ++ clean req.amount)
  else if req.timeout < 0 then .error (str "malformed timeout in 402 response")
  else if !validtoken req.name || !validtoken req.version then
    .error (str "malformed token name/version in 402 response")
  else
    match resource with
    | none => .ok (reqtext (reqlines req))
    | some resource =>
      if resource.url = [] then .ok (reqtext (reqlines req))
      else if !validurlfield resource.url then
        .error (str "malformed resource url in 402 response")
      else .ok (reqtext (reqlines req ++ [field "resource" resource.url]))

/-! ### Reading -/

structure AuthReq where
  network : Str
  asset : Str
  payto : Str
  amount : Str
  timeout : Int
  tokenname : Str
  tokenver : Str
  resource : Str
deriving DecidableEq, Repr

def strint (s : Str) : Option Int :=
  if s = [] ∨ 9 < s.length then none
  else if s.all isDigit then some (natOfDigits s) else none

def setfield (req : AuthReq) (key val : Str) : Except Str AuthReq :=
  if key = str "scheme" then
    if val ≠ str "exact" then .error (str "unsupported scheme") else .ok req
  else if key = str "network" then .ok { req with network := val }
  else if key = str "asset" then .ok { req with asset := val }
  else if key = str "payto" then .ok { req with payto := val }
  else if key = str "amount" then .ok { req with amount := val }
  else if key = str "timeout" then
    (strint val).elim (.error (str "bad timeout")) fun t => .ok { req with timeout := t }
  else if key = str "name" then .ok { req with tokenname := val }
  else if key = str "version" then .ok { req with tokenver := val }
  else if key = str "resource" then
    if val.length ≤ 1024 then .ok { req with resource := val } else .ok req
  else .error (str "unknown field")

def parselines : List Str → List Str → AuthReq → Except Str AuthReq
  | [], _, req => .ok req
  | line :: lines, seen, req =>
    match fieldOf 32 line with
    | none => parselines lines seen req
    | some (key, val) =>
      if seen.contains key then .error (str "duplicate field: " ++ key)
      else
        match setfield req key val with
        | .error err => .error err
        | .ok req => parselines lines (key :: seen) req

def clamp (timeout : Int) : Int :=
  if timeout < 30 then 30 else if 3600 < timeout then 3600 else timeout

def emptyreq : AuthReq := ⟨[], [], [], [], 0, [], [], []⟩

def isNewline (c : Nat) : Bool := c == 10 || c == 13

def parseauthreq (data : Str) : Except Str AuthReq :=
  match parselines (tokens isNewline data) [] emptyreq with
  | .error err => .error err
  | .ok req =>
    if req.network = [] ∨ req.asset = [] ∨ req.payto = [] ∨ req.amount = [] then
      .error (str "missing required field (network/asset/payto/amount)")
    else .ok { req with timeout := clamp req.timeout }

end Infernode.Authorize
