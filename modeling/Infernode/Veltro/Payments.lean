import Infernode.Lib.Ethtx
import Infernode.Lib.Strings
import Infernode.Lib.Wallet
import Infernode.Lib9.Rune
import Infernode.Program.Checks
import Infernode.Veltro.Authorize

/-!
The payments of `appl/veltro/wallet9p.b`, with the parts of `x402.b`, `stripe.b` and
`ethcrypto.b` that build what is sent.

Owns: the networks, the checks at submission (`validatepay`, `validateauth`), the four ways a
payment is executed, and the log of what was reserved and what left the server.
-/

namespace Infernode.Wallet9p

open Text Strings Bigendian Ethcrypto Wallet Checks Authorize List

/-! ### The outside -/

structure Outside where
  kr : Keyring
  chainid : Except Str Int
  getnonce : Str → Except Str Int
  gasprice : Except Str Str
  sendrawtx : Str → Except Str Str
  getuserpasswd : Str → Str
  randfill : Nat → Option Bytes
  now : Int
  /-- The error of loading the Stripe module, and of its `init` before it takes the key. -/
  loadstripe : Option Str
  initstripe : Option Str
  apipost : Str → Str → Str → Except Str Str

/-- What was reserved, and what left the server. -/
inductive Event where
  | budget (name : Str) (b : Budget)
  | feebudget (name : Str) (b : FeeBudget)
  | reserved (name : Str) (amount : Bytes)
  | reservedfee (name : Str) (amount : Bytes)
  | rawtx (name : Str) (privkey : Bytes) (tx : EthTx) (raw : Bytes)
  | authorization (name : Str) (asset amount : Str) (domain struct sig : Bytes)
  | charge (name : Str) (apikey : Str) (cents : Int) (body idempotencykey : Str)
deriving DecidableEq, Repr

/-- The budgets, the key that the Stripe module holds once it is loaded, and the events,
latest first. -/
structure Purse where
  books : Books
  stripe : Option Str
  log : List Event

/-! ### Networks -/

structure NetworkConfig where
  name : Str
  rpcurl : Str
  usdc : Str
  chainid : Int
deriving DecidableEq, Repr

def networks : List NetworkConfig :=
  [⟨str "Ethereum Sepolia", str "https://ethereum-sepolia-rpc.publicnode.com",
      str "0x1c7D4B196Cb0C7B01d743Fbc6116a902379C7238", 11155111⟩,
    ⟨str "Base Sepolia", str "https://sepolia.base.org",
      str "0x036CbD53842c5426634e7929541eC2318f3dCF7e", 84532⟩,
    ⟨str "Ethereum Mainnet", str "https://eth.llamarpc.com",
      str "0xA0b86991c6218b36c1d19D4a2e9Eb0cE3606eB48", 1⟩,
    ⟨str "Base", str "https://mainnet.base.org",
      str "0x833589fCD6eDb6E08f4c7C32D4f71b54bdA02913", 8453⟩]

def getnetwork (activenetwork : Fin 4) : NetworkConfig := networks.get activenetwork

def setnetwork (activenetwork : Fin 4) (name : Str) : Fin 4 :=
  match networks.findIdx? (·.name == name) with
  | some i => if inTable : i < 4 then ⟨i, inTable⟩ else activenetwork
  | none => activenetwork

/-- `eip155:` and the chain id. -/
def caip2 (net : NetworkConfig) : Str := str "eip155:" ++ decimal net.chainid

def networktochainid (network : Str) : Int :=
  if !validnetwork network then 0
  else if 9 < (network.drop 7).length then 0
  else natOfDigits (network.drop 7)

/-! ### Checks -/

def strbig (s : Str) : Option Int :=
  if s = [] ∨ 18 < s.length then none
  else if s.all isDigit then some (natOfDigits s) else none

def validamount (s : Str) : Bool :=
  if s = [] then false else s.all isDigit && s.any (· != 48)

def hascontrol (s : Str) : Bool := s.any fun c => decide (c < 32) || c == 127

def budgeterr (books : Books) (acct : Account) (currency : Str) (amt : Option Bytes) :
    Option Str :=
  match getbudget books acct.name with
  | none => none
  | some b =>
    if b.currency ≠ currency then
      some (str "budget is in " ++ b.currency ++ str "; cannot evaluate a " ++ currency ++
        str " payment against it")
    else checkbudget books acct amt

def confirmchainid (out : Outside) (net : NetworkConfig) : Option Str :=
  match out.chainid with
  | .error err => some (str "cannot confirm chain id: " ++ err)
  | .ok rpcid =>
    if rpcid ≠ net.chainid then
      some (str "RPC chain id " ++ decimal rpcid ++ str " does not match configured network " ++
        net.name ++ str " (" ++ decimal net.chainid ++ str "); refusing to sign")
    else none

def ETH : Str := str "ETH"
def USDC : Str := str "USDC"
def USD : Str := str "USD"

def validatepay (books : Books) (acct : Account) (token amount recipient : Str) : Option Str :=
  if !validamount amount then some (str "invalid payment amount")
  else if acct.accttype = .stripe then
    if recipient = [] ∨ 256 < recipient.length ∨ hascontrol recipient then
      some (str "invalid payment description")
    else
      match strint amount with
      | none => some (str "invalid amount (cents, up to 9 digits): " ++ amount)
      | some cents =>
        if cents ≤ 0 then some (str "invalid amount (cents, up to 9 digits): " ++ amount)
        else budgeterr books acct USD (dectobe amount)
  else if acct.accttype ≠ .eth then
    some (str "only ETH and Stripe accounts can send payments")
  else
    match dectobe amount with
    | none => some (str "invalid amount (must be integer base units): " ++ amount)
    | some amt =>
      if strtoaddr recipient = none then
        some (str "invalid recipient address: " ++ recipient)
      else budgeterr books acct (if token = str "usdc" then USDC else ETH) (some amt)

def hexeq (a b : Str) : Bool := tolower a == tolower b

def assetcurrency (net : NetworkConfig) (asset : Str) : Str :=
  if hexeq asset net.usdc then USDC else str "token:" ++ asset

def validateauth (books : Books) (net : NetworkConfig) (acct : Account) (req : AuthReq) :
    Option Str :=
  if acct.accttype ≠ .eth then some (str "only ETH accounts can authorize x402 payments")
  else if acct.address = [] then some (str "account has no address")
  else if networktochainid req.network ≠ net.chainid then
    some (str "request network " ++ req.network ++ str " does not match active network " ++
      net.name ++ str " (eip155:" ++ decimal net.chainid ++ str ")")
  else if strtoaddr req.asset = none then some (str "invalid asset address")
  else if strtoaddr req.payto = none then some (str "invalid payto address")
  else
    match dectobe req.amount with
    | none => some (str "invalid amount (must be integer base units)")
    | some amt =>
      if req.tokenname = [] ∨ 64 < req.tokenname.length ∨ 16 < req.tokenver.length then
        some (str "invalid token name/version")
      else budgeterr books acct (assetcurrency net req.asset) (some amt)

/-! ### Ethereum transfers -/

/-- The network's price where it can be read, at most 100 gwei. -/
def gasprice (out : Outside) : Int :=
  let price :=
    match out.gasprice with
    | .error _ => 1000000000
    | .ok gpstr =>
      if gpstr ≠ [] ∧ gpstr ≠ str "0" then (strbig gpstr).getD 1000000000 else 1000000000
  if 100000000000 < price then 100000000000 else price

def factotumkey (out : Outside) (acct : Account) : Except Str Bytes := do
  let password := out.getuserpasswd (str "wallet-eth-" ++ acct.name)
  check (password = []) (str "no key in factotum for " ++ acct.name)
  let privkey ← need (hexdecode password) (str "invalid key in factotum")
  check (privkey.length ≠ 32) (str "invalid key in factotum")
  return privkey

/-- A signed transaction, the amount that the proposal names and the largest fee. -/
structure Signed where
  tx : EthTx
  privkey : Bytes
  raw : Bytes
  amount : Bytes
  maxfee : Option Bytes
deriving DecidableEq, Repr

def signed (out : Outside) (acct : Account) (tx : EthTx) (amount : Bytes) : Except Str Signed := do
  let privkey ← factotumkey out acct
  let raw ← need (signtx out.kr tx privkey) (str "transaction signing failed")
  return ⟨tx, privkey, raw, amount, dectobe (decimal (tx.gasprice * tx.gaslimit))⟩

def reserveamt (purse : Purse) (acct : Account) (amt : Bytes) : Except Str Purse := do
  let books ← reserve purse.books acct (some amt)
  return { purse with
    books := books
    log := if (getbudget purse.books acct.name).isSome then .reserved acct.name amt :: purse.log
      else purse.log }

def reservefeeamt (purse : Purse) (acct : Account) (maxfee : Option Bytes) : Except Str Purse := do
  let books ← reservefee purse.books acct maxfee
  return { purse with books := books, log := .reservedfee acct.name (maxfee.getD []) :: purse.log }

def submit (out : Outside) (purse : Purse) (acct : Account) (s : Signed) (uncertain : Str) :
    Except Str Str × Purse :=
  (mapError (out.sendrawtx (hexencode s.raw)) (uncertain ++ ·),
    { purse with log := .rawtx acct.name s.privkey s.tx s.raw :: purse.log })

/-- The steps of `executepayment` up to the signature. -/
def signpayment (out : Outside) (net : NetworkConfig) (books : Books) (acct : Account)
    (amount recipient : Str) : Except Str Signed := do
  check (acct.accttype ≠ .eth) (str "only ETH and Stripe accounts can send payments")
  check (acct.address = []) (str "account has no address")
  let amt ← need (dectobe amount) (str "invalid amount (must be integer wei): " ++ amount)
  let dstaddr ← need (strtoaddr recipient) (str "invalid recipient address: " ++ recipient)
  refuse (budgeterr books acct ETH (some amt)) (str "budget: " ++ ·)
  refuse (confirmchainid out net) id
  let nonce ← mapError (out.getnonce acct.address) (str "nonce: " ++ ·)
  signed out acct ⟨nonce, gasprice out, 21000, dstaddr, amt, [], net.chainid⟩ amt

/-- The value and the largest fee are reserved together. -/
def reservepayment (purse : Purse) (acct : Account) (s : Signed) : Except Str Purse := do
  let charge ← need (beadd s.amount (s.maxfee.getD []))
    (str "transaction charge overflows uint256")
  refuse (budgeterr purse.books acct ETH (some charge)) (str "budget including gas: " ++ ·)
  mapError (reserveamt purse acct charge) (str "budget including gas: " ++ ·)

/-! ### Token transfers -/

/-- `transfer(address,uint256)`: what the code puts at its place in 68 zero bytes. -/
def calldata (recipaddr amtbytes : Bytes) : Bytes :=
  let blit (array : Bytes) (offset : Nat) (from_ : Bytes) : Bytes :=
    array.take offset ++ from_ ++ array.drop (offset + from_.length)
  let zero := List.replicate 68 0
  let selector := blit zero 0 [0xa9, 0x05, 0x9c, 0xbb]
  blit (blit selector 16 recipaddr) (68 - amtbytes.length) amtbytes

/-- The steps of `executeerc20` up to the signature. -/
def signerc20 (out : Outside) (net : NetworkConfig) (books : Books) (acct : Account)
    (amount recipient : Str) : Except Str Signed := do
  check (acct.accttype ≠ .eth) (str "only ETH accounts can send ERC-20")
  check (acct.address = []) (str "account has no address")
  let recipaddr ← need (strtoaddr recipient) (str "invalid recipient: " ++ recipient)
  let amtbytes ← need (dectobe amount)
    (str "invalid amount (must be integer base units): " ++ amount)
  refuse (budgeterr books acct USDC (some amtbytes)) (str "budget: " ++ ·)
  refuse (confirmchainid out net) id
  let nonce ← mapError (out.getnonce acct.address) (str "nonce: " ++ ·)
  let tokenaddr ← need (strtoaddr net.usdc) (str "invalid token contract address")
  signed out acct
    ⟨nonce, gasprice out, 100000, tokenaddr, [], calldata recipaddr amtbytes, net.chainid⟩ amtbytes

/-- Both limits are checked before either reservation. -/
def checkerc20 (books : Books) (acct : Account) (s : Signed) : Except Str Unit := do
  refuse (checkbudget books acct (some s.amount)) (str "budget: " ++ ·)
  refuse (checkfee books acct s.maxfee) (str "gas budget: " ++ ·)

def executeerc20 (out : Outside) (net : NetworkConfig) (purse : Purse) (acct : Account)
    (amount recipient : Str) : Except Str Str × Purse :=
  match signerc20 out net purse.books acct amount recipient with
  | .error err => (.error err, purse)
  | .ok s =>
    match checkerc20 purse.books acct s with
    | .error err => (.error err, purse)
    | .ok _ =>
      match reserveamt purse acct s.amount with
      | .error err => (.error (str "budget: " ++ err), purse)
      | .ok purse =>
        match reservefeeamt purse acct s.maxfee with
        | .error err => (.error (str "gas budget: " ++ err), purse)
        | .ok purse =>
          submit out purse acct s
            (str "send outcome uncertain; reserved budgets retained: ")

/-! ### Stripe -/

def upperhex (v : Nat) : Nat := if v < 10 then 48 + v else 55 + v

/-- `%%%02X`. -/
def percent (c : Nat) : Str :=
  let digits := ((Nat.digits 16 c).map upperhex).reverse
  37 :: List.replicate (2 - digits.length) 48 ++ digits

def urlencode (s : Str) : Str :=
  s.flatMap fun c =>
    if (97 ≤ c ∧ c ≤ 122) ∨ (65 ≤ c ∧ c ≤ 90) ∨ (48 ≤ c ∧ c ≤ 57) ∨ c = 45 ∨ c = 95 ∨ c = 46 ∨
      c = 126 then [c]
    else if c = 32 then [43]
    else percent c

/-- The error, if there is one, and the key that the module holds then. -/
def initstripe (out : Outside) (stripe : Option Str) (acctname : Str) : Option Str × Option Str :=
  match stripe with
  | some key => (none, some key)
  | none =>
    let apikey := out.getuserpasswd (str "wallet-stripe-" ++ acctname)
    if apikey = [] then (some (str "no Stripe API key in factotum for " ++ acctname), none)
    else
      match out.loadstripe with
      | some err => (some (str "cannot load Stripe: " ++ err), none)
      | none =>
        match out.initstripe with
        | some err => (some err, some [])
        | none => (none, some apikey)

def chargebody (amount : Int) (currency description : Str) : Str :=
  str "amount=" ++ decimal amount ++ str "&currency=" ++ currency ++ str "&description=" ++
    urlencode description ++ str "&automatic_payment_methods[enabled]=true"

def createpayment (out : Outside) (purse : Purse) (acct : Account) (key : Str) (amount : Int)
    (currency description idempotencykey : Str) : Except Str Str × Purse :=
  if key = [] then (.error (str "stripe not initialized"), purse)
  else
    let body := chargebody amount currency description
    (out.apipost key body idempotencykey,
      { purse with log := .charge acct.name key amount body idempotencykey :: purse.log })

/-- The steps of `executestripepayment` before the reservation. -/
def preparestripe (out : Outside) (books : Books) (acct : Account) (amount : Str) :
    Except Str (Int × Str × Option Bytes) := do
  let cents ← need (strint amount) (str "invalid amount: " ++ amount)
  check (cents ≤ 0) (str "invalid amount: " ++ amount)
  refuse (budgeterr books acct USD (dectobe amount)) (str "budget: " ++ ·)
  let keybytes ← need (out.randfill 16) (str "no entropy source for Stripe idempotency key")
  return (cents, str "infernode-" ++ hexencode keybytes, dectobe amount)

def executestripepayment (out : Outside) (purse : Purse) (acct : Account)
    (amount description : Str) : Except Str Str × Purse :=
  let (err, stripe) := initstripe out purse.stripe acct.name
  let purse := { purse with stripe := stripe }
  match err with
  | some err => (.error (str "Stripe: " ++ err), purse)
  | none =>
    match preparestripe out purse.books acct amount with
    | .error err => (.error err, purse)
    | .ok (cents, idempotencykey, amt) =>
      match amt with
      | none => (.error (str "budget: nil amount"), purse)
      | some amt =>
        match reserveamt purse acct amt with
        | .error err => (.error (str "budget: " ++ err), purse)
        | .ok purse =>
          let (sent, purse) := createpayment out purse acct (stripe.getD []) cents
            (str "usd") description idempotencykey
          (mapError sent (str "Stripe outcome uncertain; reserved budget retained: " ++ ·),
            purse)

def executepayment (out : Outside) (net : NetworkConfig) (purse : Purse) (acct : Account)
    (amount recipient : Str) : Except Str Str × Purse :=
  if acct.accttype = .stripe then executestripepayment out purse acct amount recipient
  else
    match signpayment out net purse.books acct amount recipient with
    | .error err => (.error err, purse)
    | .ok s =>
      match reservepayment purse acct s with
      | .error err => (.error err, purse)
      | .ok purse =>
        submit out purse acct s (str "send outcome uncertain; reserved budget retained: ")

/-! ### x402 authorizations -/

/-- A number as a 32-byte word, left-padded; nothing gives zero. -/
def pad32 (b : Option Bytes) : Bytes :=
  let b := b.getD []
  if b.length ≤ 32 then List.replicate (32 - b.length) 0 ++ b else b.take 32

def pad32addr (addr : Option Bytes) : Bytes :=
  match addr with
  | some addr => if addr.length = 20 then List.replicate 12 0 ++ addr else List.replicate 32 0
  | none => List.replicate 32 0

def ascii (s : String) : Bytes := s.toList.map fun c => UInt8.ofNat c.toNat

def utf8 (s : Str) : Bytes := (Lib9.cvtca s).map UInt8.ofNat

def eip712domain (kr : Keyring) (name version : Str) (chainid : Int) (contract : Str) : Bytes :=
  kr.keccak256 (ascii
      "EIP712Domain(string name,string version,uint256 chainId,address verifyingContract)") ++
    kr.keccak256 (utf8 name) ++ kr.keccak256 (utf8 version) ++
    pad32 (some (ofNat chainid.toNat)) ++ pad32addr (strtoaddr contract)

def eip712struct (kr : Keyring) (sender recipient value : Str) (validafter validbefore : Int)
    (nonce : Bytes) : Bytes :=
  kr.keccak256 (ascii ("TransferWithAuthorization(address from,address to,uint256 value," ++
      "uint256 validAfter,uint256 validBefore,bytes32 nonce)")) ++
    pad32addr (strtoaddr sender) ++ pad32addr (strtoaddr recipient) ++ pad32 (dectobe value) ++
    pad32 (dectobe (decimal validafter)) ++ pad32 (dectobe (decimal validbefore)) ++ nonce

/-- The two structures whose hashes are signed, and the digest. -/
def authdigest (kr : Keyring) (network asset payto sender amount : Str)
    (validafter validbefore : Int) (nonce : Bytes) (tokenname tokenversion : Str) :
    Except Str (Bytes × Bytes × Bytes) := do
  let chainid := networktochainid network
  check (chainid ≤ 0) (str "unknown network: " ++ network)
  check (strtoaddr asset = none) (str "invalid asset address")
  check (strtoaddr payto = none) (str "invalid payto address")
  check (strtoaddr sender = none) (str "invalid from address")
  check (dectobe amount = none) (str "invalid amount (must be integer base units)")
  check (nonce.length ≠ 32) (str "nonce must be 32 bytes")
  check (validafter < 0 ∨ validbefore ≤ validafter) (str "invalid validity window")
  check (tokenname = [] ∨ 64 < tokenname.length ∨ 16 < tokenversion.length)
    (str "invalid token name/version")
  let domain := eip712domain kr tokenname tokenversion chainid asset
  let struct := eip712struct kr sender payto amount validafter validbefore nonce
  return (domain, struct, kr.keccak256 ([0x19, 0x01] ++ kr.keccak256 domain ++ kr.keccak256 struct))

def servicekey (acct : Account) : Str :=
  match acct.accttype with
  | .eth => str "wallet-eth-" ++ acct.name
  | .sol => str "wallet-sol-" ++ acct.name
  | .stripe => str "wallet-stripe-" ++ acct.name

def signhash (out : Outside) (acct : Account) (hash : Bytes) : Except Str Bytes := do
  check (hash = []) (str "empty hash")
  let password := out.getuserpasswd (servicekey acct)
  check (password = []) (str "no key in factotum for " ++ acct.name)
  match acct.accttype with
  | .eth =>
    let privkey ← need (hexdecode password) (str "invalid key in factotum")
    check (privkey.length ≠ 32) (str "invalid key in factotum")
    need (out.kr.secp256k1_sign privkey hash) (str "signing failed")
  | .sol =>
    let seed ← need (hexdecode password) (str "invalid key in factotum")
    check (seed.length ≠ 32) (str "invalid key in factotum")
    need (out.kr.ed25519_sign seed hash) (str "signing failed")
  | .stripe => .error (str "Stripe accounts don't sign hashes")

structure Authorized where
  amount : Bytes
  nonce : Bytes
  validafter : Int
  validbefore : Int
  domain : Bytes
  struct : Bytes
  sig : Bytes
deriving DecidableEq, Repr

/-- The steps of `executex402` up to the signature. -/
def signx402 (out : Outside) (net : NetworkConfig) (books : Books) (acct : Account)
    (req : AuthReq) : Except Str Authorized := do
  refuse (validateauth books net acct req) id
  let nonce ← need (out.randfill 32) (str "no entropy source for nonce generation")
  check (out.now ≤ 0) (str "no time source for validity window")
  let validafter := if out.now - 600 < 0 then 0 else out.now - 600
  let validbefore := out.now + req.timeout
  let (domain, struct, digest) ← mapError
    (authdigest out.kr req.network req.asset req.payto acct.address req.amount validafter
      validbefore nonce req.tokenname req.tokenver) (str "digest: " ++ ·)
  let sig ← mapError (signhash out acct digest) (str "sign: " ++ ·)
  check (sig.length ≠ 65) (str "sign: malformed signature")
  return ⟨(dectobe req.amount).getD [], nonce, validafter, validbefore, domain, struct, sig⟩

def executex402 (out : Outside) (net : NetworkConfig) (purse : Purse) (acct : Account)
    (req : AuthReq) : Except Str Str × Purse :=
  match signx402 out net purse.books acct req with
  | .error err => (.error err, purse)
  | .ok auth =>
    match reserveamt purse acct auth.amount with
    | .error err => (.error (str "budget: " ++ err), purse)
    | .ok purse =>
      let event := Event.authorization acct.name req.asset req.amount auth.domain auth.struct
        auth.sig
      (.ok (str "sig " ++ hexencode auth.sig ++ str " from " ++ acct.address ++
          str " nonce " ++ hexencode auth.nonce ++ str " validafter " ++
          decimal auth.validafter ++ str " validbefore " ++ decimal auth.validbefore),
        { purse with log := event :: purse.log })


/-! ### What they build -/

theorem gasprice_bounds (out : Outside) : 0 ≤ gasprice out ∧ gasprice out ≤ 100000000000 := by
  have natural : ∀ s n, strbig s = some n → 0 ≤ n := by
    intro s n read
    unfold strbig at read
    split at read
    · cases read
    split at read
    · cases read
      exact Int.natCast_nonneg _
    · cases read
  have read : ∀ s, 0 ≤ (strbig s).getD 1000000000 := by
    intro s
    rcases found : strbig s with _ | n
    · decide
    · exact natural s n found
  unfold gasprice
  rcases out.gasprice with err | gpstr
  · simp
  have price : 0 ≤ if gpstr ≠ [] ∧ gpstr ≠ str "0" then (strbig gpstr).getD 1000000000
      else 1000000000 := by
    split
    · exact read gpstr
    · decide
  simp only
  generalize (if gpstr ≠ [] ∧ gpstr ≠ str "0" then (strbig gpstr).getD 1000000000
    else 1000000000) = asked at price ⊢
  split
  · exact ⟨by decide, by decide⟩
  · rename_i low
    exact ⟨price, Int.not_lt.1 low⟩

private theorem overlay {front old back new : Bytes} {offset : Nat}
    (place : front.length = offset) (same : old.length = new.length) :
    (front ++ old ++ back).take offset ++ new ++ (front ++ old ++ back).drop (offset + new.length) =
      front ++ new ++ back := by
  have start : (front ++ old ++ back).take offset = front := by
    rw [append_assoc, ← place, take_left]
  have rest : (front ++ old ++ back).drop (offset + new.length) = back := by
    rw [← place, ← same, ← length_append, drop_left]
  rw [start, rest]

/-- The four bytes of the function, and its two words; of a shorter address the last bytes of
the first word are missing. -/
theorem calldata_eq {recipaddr amtbytes : Bytes} (short : recipaddr.length ≤ 20)
    (fits : amtbytes.length ≤ 32) : calldata recipaddr amtbytes =
      [0xa9, 0x05, 0x9c, 0xbb] ++ List.replicate 12 0 ++ recipaddr ++
        List.replicate (20 - recipaddr.length) 0 ++
        (List.replicate (32 - amtbytes.length) 0 ++ amtbytes) := by
  obtain ⟨missing, total⟩ : ∃ missing, missing + recipaddr.length = 20 :=
    ⟨_, Nat.sub_add_cancel short⟩
  obtain ⟨zeros, width⟩ : ∃ zeros, zeros + amtbytes.length = 32 := ⟨_, Nat.sub_add_cancel fits⟩
  have place : 68 - amtbytes.length = 36 + zeros := by omega
  have restOfWord : 20 - recipaddr.length = missing := by omega
  have padding : 32 - amtbytes.length = zeros := by omega
  rw [restOfWord, padding]
  have selector : (List.replicate 68 (0 : UInt8)).take 0 ++ [0xa9, 0x05, 0x9c, 0xbb] ++
      (List.replicate 68 (0 : UInt8)).drop (0 + [(0xa9 : UInt8), 0x05, 0x9c, 0xbb].length) =
      [0xa9, 0x05, 0x9c, 0xbb] ++ List.replicate 64 0 := rfl
  have word : [(0xa9 : UInt8), 0x05, 0x9c, 0xbb] ++ List.replicate 64 0 =
      ([0xa9, 0x05, 0x9c, 0xbb] ++ List.replicate 12 0) ++ List.replicate recipaddr.length 0 ++
        List.replicate (52 - recipaddr.length) 0 := by
    rw [append_assoc, append_assoc, replicate_append_replicate,
      replicate_append_replicate]
    congr 2
    omega
  have rest : [(0xa9 : UInt8), 0x05, 0x9c, 0xbb] ++ List.replicate 12 0 ++ recipaddr ++
      List.replicate (52 - recipaddr.length) 0 =
      ([0xa9, 0x05, 0x9c, 0xbb] ++ List.replicate 12 0 ++ recipaddr ++
        List.replicate (missing + zeros) 0) ++ List.replicate amtbytes.length 0 ++ [] := by
    rw [append_nil, append_assoc _ (List.replicate (missing + zeros) 0),
      replicate_append_replicate]
    congr 2
    omega
  unfold calldata
  simp only [place]
  have written : ([(0xa9 : UInt8), 0x05, 0x9c, 0xbb] ++ List.replicate 12 0 ++ recipaddr ++
      List.replicate (missing + zeros) 0).length = 36 + zeros := by
    simp only [length_append, length_replicate, length_cons, length_nil]
    omega
  have head : ([(0xa9 : UInt8), 0x05, 0x9c, 0xbb] ++ List.replicate 12 0).length = 16 := rfl
  rw [selector, word, overlay head (length_replicate ..), rest,
    overlay written (length_replicate ..)]
  simp [← replicate_append_replicate]

theorem length_calldata {recipaddr amtbytes : Bytes} (short : recipaddr.length ≤ 20)
    (fits : amtbytes.length ≤ 32) : (calldata recipaddr amtbytes).length = 68 := by
  rw [calldata_eq short fits]
  simp only [length_append, length_replicate, length_cons, length_nil]
  omega

end Infernode.Wallet9p
