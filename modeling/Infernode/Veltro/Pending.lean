import Infernode.Veltro.Payments

/-!
The proposals of `appl/veltro/wallet9p.b` that wait for an approval.

Owns: the records and the list of them, expiry, `newpending`, `approvepending`,
`denypending`, `resolvefidresult`, and the writes to `pay`, `authorize`, `ctl` and an
account's `ctl`.
-/

namespace Infernode.Wallet9p

open Text Strings Ethcrypto Wallet Checks Authorize

/-! ### State -/

def PENDTTL : Int := 900
def MAXPENDING : Nat := 100

inductive Kind where
  | pay
  | x402
deriving DecidableEq, Repr

def Kind.text : Kind → Str
  | .pay => str "pay"
  | .x402 => str "x402"

/-- `result` is `none` while the proposal is unresolved. -/
structure PendingPay where
  id : Int
  kind : Kind
  acct : Str
  amount : Str
  recipient : Str
  token : Str
  agent : Str
  created : Int
  network : Str
  tokenname : Str
  tokenver : Str
  timeout : Int
  resource : Str
  result : Option Str
deriving DecidableEq, Repr

structure AcctState where
  id : Nat
  acct : Account
deriving DecidableEq, Repr

/-- An approval that went on to the execution: the record, the reading of the clock, the
network and what the execution returned. -/
structure Execution where
  ref : Nat
  time : Int
  net : Fin 4
  outcome : Except Str Str
deriving Repr

/-- The records are kept in the order of their creation, and the list refers to them by
their places. `quoted` is the network at the creation of each, and `executions` are the
executions so far; the program keeps neither. -/
structure State where
  accounts : List AcctState
  nextacctid : Nat
  purse : Purse
  activenetwork : Fin 4
  heap : List PendingPay
  pendingpays : List Nat
  nextpendingid : Int
  quoted : List (Fin 4)
  executions : List Execution

def start : State := ⟨[], 0, ⟨nobooks, none, []⟩, 0, [], [], 1, [], []⟩

def State.net (s : State) : NetworkConfig := getnetwork s.activenetwork

def findacct (s : State) (name : Str) : Option AcctState := s.accounts.find? (·.acct.name == name)

def findacctbyid (s : State) (id : Nat) : Option AcctState := s.accounts.find? (·.id == id)

/-- What the outside gives one request: the time, the time when the record at a place is
looked at, and the answers to an execution. -/
structure Env where
  time : Int
  clock : Nat → Int
  out : Outside

/-! ### Records -/

def unresolved (heap : List PendingPay) (ref : Nat) : Bool :=
  (heap[ref]?.bind PendingPay.result).isNone

def setresult (heap : List PendingPay) (ref : Nat) (result : Str) : List PendingPay :=
  heap.modify ref fun pp => { pp with result := some result }

def findpending (s : State) (id : Int) : Option Nat :=
  s.pendingpays.find? fun ref => (s.heap[ref]?.map PendingPay.id) == some id

def stale (t : Int) (pp : PendingPay) : Bool :=
  decide (t ≤ 0) || decide (pp.created ≤ 0) || decide (pp.created + PENDTTL < t)

def checkpendingexpiry (clock : Nat → Int) (heap : List PendingPay) (ref : Nat) :
    List PendingPay :=
  heap.modify ref fun pp =>
    if pp.result.isNone && stale (clock ref) pp then { pp with result := some (str "expired") }
    else pp

/-- The first loop of `newpending`: the records after it, and how many are unresolved. -/
def expireloop (clock : Nat → Int) : List Nat → List PendingPay → Nat → List PendingPay × Nat
  | [], heap, live => (heap, live)
  | ref :: rest, heap, live =>
    let heap := checkpendingexpiry clock heap ref
    expireloop clock rest heap (if unresolved heap ref then live + 1 else live)

/-- The second loop: unresolved records stay, resolved ones while there is room. -/
def keeploop (heap : List PendingPay) : List Nat → Nat → List Nat
  | [], _ => []
  | ref :: rest, kept =>
    if unresolved heap ref || decide (kept < MAXPENDING) then
      ref :: keeploop heap rest (kept + 1)
    else keeploop heap rest kept

def record (env : Env) (s : State) (kind : Kind) (acct amount recipient token : Str) :
    PendingPay :=
  ⟨s.nextpendingid, kind, acct, amount, recipient, token, str "agent", env.time, [], [], [], 0, [],
    none⟩

def newpending (env : Env) (s : State) (kind : Kind) (acct amount recipient token : Str) :
    Except Str Nat × State :=
  if env.time ≤ 0 then
    (.error (str "no time source: cannot queue a payment for approval"), s)
  else
    let (heap, live) := expireloop env.clock s.pendingpays s.heap 0
    if MAXPENDING ≤ live then
      (.error (str "pending queue full (" ++ natDigits live ++
        str " awaiting approval): approve or deny before submitting more"), { s with heap := heap })
    else
      (.ok heap.length, { s with
        heap := heap ++ [record env s kind acct amount recipient token]
        pendingpays := heap.length :: keeploop heap s.pendingpays 0
        nextpendingid := wrap (s.nextpendingid + 1)
        quoted := s.quoted ++ [s.activenetwork] })

/-! ### Approval -/

/-- The execution of a proposal of its kind. -/
def execute (env : Env) (s : State) (acct : Account) (pp : PendingPay) :
    Except Str Str × Purse :=
  match pp.kind with
  | .x402 =>
    executex402 env.out s.net s.purse acct
      ⟨pp.network, pp.token, pp.recipient, pp.amount, pp.timeout, pp.tokenname, pp.tokenver,
        pp.resource⟩
  | .pay =>
    if pp.token = str "usdc" then
      executeerc20 env.out s.net s.purse acct pp.amount pp.recipient
    else executepayment env.out s.net s.purse acct pp.amount pp.recipient

/-- What the record says after an execution. -/
def resulttext : Except Str Str → Str
  | .error err => str "error:" ++ err
  | .ok res => str "approved:" ++ res

def networkchanged : Str := str "error:network changed since proposal"

def approvepending (env : Env) (s : State) (id : Int) : Option Str × State :=
  match findpending s id with
  | none => (some (str "pending payment not found: " ++ decimal id), s)
  | some ref =>
    if !unresolved s.heap ref then
      (some (str "pending payment not found: " ++ decimal id), s)
    else
      let s := { s with heap := checkpendingexpiry env.clock s.heap ref }
      match s.heap[ref]? with
      | none => (none, s)
      | some pp =>
        if pp.result.isSome then
          (some (str "pending payment expired: " ++ decimal id), s)
        else
          match findacct s pp.acct with
          | none => (some (str "account not found: " ++ pp.acct), s)
          | some as =>
            let active := caip2 s.net
            if pp.network ≠ [] ∧ pp.network ≠ active then
              (some (str "payment " ++ decimal id ++ str " was proposed on " ++ pp.network ++
                str " but the active network is now " ++ active ++
                str "; it was not executed"),
                { s with heap := setresult s.heap ref networkchanged })
            else
              let (outcome, purse) := execute env s as.acct pp
              let s := { s with
                purse := purse
                heap := setresult s.heap ref (resulttext outcome)
                executions := ⟨ref, env.clock ref, s.activenetwork, outcome⟩ :: s.executions }
              match outcome with
              | .error err =>
                (some ((if pp.kind = .x402 then str "authorize: " else str "pay: ") ++ err), s)
              | .ok _ => (none, s)

def denypending (s : State) (id : Int) : Option Str × State :=
  match findpending s id with
  | none => (some (str "pending payment not found: " ++ decimal id), s)
  | some ref =>
    if !unresolved s.heap ref then
      (some (str "pending payment not found: " ++ decimal id), s)
    else (none, { s with heap := setresult s.heap ref (str "denied") })

/-! ### Writes -/

def firstline (data : Str) : Str := data.takeWhile fun c => c ≠ 10 && c ≠ 13

def words (data : Str) : List Str := tokens (fun c => c == 32 || c == 9) (firstline data)

/-- The id of an `approve` or `deny` command, or the error. -/
def pendingid (toks : List Str) (verb : Str) : Except Str Int :=
  match toks with
  | [_, arg] =>
    let (id, rest) := toint arg
    if id ≤ 0 ∨ rest ≠ [] then .error (verb ++ str ": invalid id") else .ok id
  | _ => .error (str "usage: " ++ verb ++ str " <id>")

def validacctname (s : Str) : Bool :=
  if s = [] ∨ s = str "." ∨ s = str ".." then false
  else s.all fun c =>
    (decide (97 ≤ c) && decide (c ≤ 122)) || (decide (65 ≤ c) && decide (c ≤ 90)) ||
      isDigit c || c == 95 || c == 45 || c == 46

/-- What a write returns: the error, or nothing. -/
abbrev Reply := Option Str

def writectl (env : Env) (s : State) (data : Str) : Reply × State :=
  match words data with
  | [] => (some (str "bad argument in request"), s)
  | cmd :: args =>
    if cmd = str "default" ∧ args.length = 1 then
      if !validacctname (args.headD []) then (some (str "invalid account name"), s)
      else (none, s)
    else if cmd = str "rpc" ∧ args.length = 1 then (none, s)
    else if cmd = str "network" ∧ 1 ≤ args.length then
      (none, { s with activenetwork := setnetwork s.activenetwork ([32].intercalate args) })
    else if cmd = str "approve" then
      match pendingid (cmd :: args) (str "approve") with
      | .error err => (some err, s)
      | .ok id => approvepending env s id
    else if cmd = str "deny" then
      match pendingid (cmd :: args) (str "deny") with
      | .error err => (some err, s)
      | .ok id => denypending s id
    else (some (str "unknown ctl command: " ++ cmd), s)

/-- The amount, the recipient and the token of a `pay` request, or the error. -/
def parsepay (acct : Account) (data : Str) : Except Str (Str × Str × Str) :=
  match words data with
  | first :: second :: rest =>
    if first = str "usdc" ∨ first = str "USDC" then
      match rest with
      | [] => .error (str "usage: usdc amount recipient")
      | third :: _ =>
        if acct.accttype = .stripe then
          .error (str "pay: Stripe accounts cannot send USDC")
        else .ok (second, third, str "usdc")
    else .ok (first, second, if acct.accttype = .stripe then str "usd-cents" else str "eth")
  | _ => .error (str "usage: amount recipient OR usdc amount recipient")

/-- A write to an account's `pay` file: the error, or the place of the proposal. -/
def writepay (env : Env) (s : State) (as : AcctState) (data : Str) : Except Str Nat × State :=
  match parsepay as.acct data with
  | .error err => (.error err, s)
  | .ok (amount, recipient, token) =>
    match validatepay s.purse.books as.acct token amount recipient with
    | some err => (.error err, s)
    | none =>
      match newpending env s .pay as.acct.name amount recipient token with
      | (.error err, s) => (.error (str "pay: " ++ err), s)
      | (.ok ref, s) =>
        (.ok ref, { s with
          heap := s.heap.modify ref fun pp => { pp with network := caip2 s.net } })

/-- A write to an account's `authorize` file: the error, or the place of the proposal. -/
def writeauthorize (env : Env) (s : State) (as : AcctState) (data : Str) :
    Except Str Nat × State :=
  match parseauthreq data with
  | .error err => (.error (str "authorize: " ++ err), s)
  | .ok areq =>
    match validateauth s.purse.books s.net as.acct areq with
    | some err => (.error (str "authorize: " ++ err), s)
    | none =>
      match newpending env s .x402 as.acct.name areq.amount areq.payto areq.asset with
      | (.error err, s) => (.error (str "authorize: " ++ err), s)
      | (.ok ref, s) =>
        (.ok ref, { s with
          heap := s.heap.modify ref fun pp => { pp with
            network := areq.network
            tokenname := areq.tokenname
            tokenver := areq.tokenver
            timeout := areq.timeout
            resource := areq.resource } })

def usagebudget : Str :=
  str "usage: budget <maxpertx> <maxpersess> USDC|ETH|USD (integer base units)"

def usagegasbudget : Str := str "usage: gasbudget <maxpertx> <maxpersess> (ETH accounts, wei)"

def usageacctctl : Str :=
  str ("usage: budget maxpertx maxpersess currency | gasbudget maxpertx maxpersess | " ++
    "requireapproval on")

/-- A write to an account's `ctl` file. -/
def writeacctctl (s : State) (as : AcctState) (data : Str) : Reply × State :=
  match words data with
  | cmd :: args =>
    if cmd = str "budget" ∧ 3 ≤ args.length then
      let currency := args.getD 2 []
      match dectobe (args.getD 0 []), dectobe (args.getD 1 []) with
      | some maxpertx, some maxpersess =>
        if currency = USDC ∨ currency = ETH ∨ currency = USD then
          let b : Budget := ⟨maxpertx, maxpersess, [], currency⟩
          (none, { s with purse := { s.purse with
            books := setbudget s.purse.books as.acct b
            log := .budget as.acct.name b :: s.purse.log } })
        else (some usagebudget, s)
      | _, _ => (some usagebudget, s)
    else if cmd = str "gasbudget" ∧ args.length = 2 then
      match dectobe (args.getD 0 []), dectobe (args.getD 1 []) with
      | some maxpertx, some maxpersess =>
        if as.acct.accttype = .eth then
          let b : FeeBudget := ⟨maxpertx, maxpersess, []⟩
          (none, { s with purse := { s.purse with
            books := setfeebudget s.purse.books as.acct b
            log := .feebudget as.acct.name b :: s.purse.log } })
        else (some usagegasbudget, s)
      | _, _ => (some usagegasbudget, s)
    else if cmd = str "requireapproval" then
      if args = [str "on"] then (none, s)
      else (some (str "requireapproval: approval is mandatory"), s)
    else (some usageacctctl, s)
  | [] => (some usageacctctl, s)

/-- A new account, when the wallet library made it. -/
def addaccount (s : State) (acct : Account) : Reply × State :=
  if !validacctname acct.name then (some (str "invalid account name"), s)
  else if (findacct s acct.name).isSome then (some (str "account exists: " ++ acct.name), s)
  else (none, { s with
    accounts := ⟨s.nextacctid, acct⟩ :: s.accounts
    nextacctid := s.nextacctid + 1 })

/-! ### Reads -/

/-- The records that `pending` lists are looked at one by one. -/
def expirelisted (clock : Nat → Int) (s : State) : State :=
  { s with heap := s.pendingpays.foldl (checkpendingexpiry clock) s.heap }

/-- One line of the file `pending`. -/
def pendingline (pp : PendingPay) : Str :=
  [32].intercalate [decimal pp.id, pp.kind.text, pp.acct, pp.token, pp.amount, pp.recipient,
    if pp.network = [] then str "-" else pp.network, pp.agent] ++ [10]

def readpending (clock : Nat → Int) (s : State) : Str × State :=
  let s := expirelisted clock s
  let listed := s.pendingpays.filter (unresolved s.heap)
  let text := (listed.filterMap fun ref => s.heap[ref]?.map pendingline).flatten
  (if text = [] then str "(none)\n" else text, s)

/-- The text for a result that may refer to a proposal. -/
def resolvefidresult (clock : Nat → Int) (s : State) (result : Str) : Str × State :=
  if result = [] then ([], s)
  else if ¬(8 < result.length ∧ result.take 8 = str "pending:") then (result, s)
  else
    match strint (result.drop 8) with
    | none => (str "error:bad pending id", s)
    | some id =>
      match findpending s id with
      | none => (str "expired", s)
      | some ref =>
        let s := { s with heap := checkpendingexpiry clock s.heap ref }
        match s.heap[ref]?.bind PendingPay.result with
        | none => (result, s)
        | some outcome =>
          (if 9 < outcome.length ∧ outcome.take 9 = str "approved:" then outcome.drop 9
            else outcome, s)

end Infernode.Wallet9p
