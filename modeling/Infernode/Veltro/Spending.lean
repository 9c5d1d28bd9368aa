import Infernode.Veltro.Lifecycle

/-!
The budgets of `appl/veltro/wallet9p.b` and what leaves the server under them.

Owns: the ledger of a budget and of a fee budget in the log of a purse, that every payment keeps
them sound and makes its reservation first, and the same for every run.
-/

namespace Infernode.Wallet9p

open Text Strings Bigendian Ethcrypto Wallet Checks Authorize Ledger List Option

/-! ### The ledgers -/

def txfee (tx : EthTx) : Nat := (tx.gasprice * tx.gaslimit).toNat

/-- The second word of the call data of a token transfer. -/
def tokenamount (data : Bytes) : Nat := value (data.drop 36)

/-- The account of a message that cannot be taken back. -/
def Event.sender : Event → Option Str
  | .rawtx name _ _ _ => some name
  | .authorization name _ _ _ _ _ => some name
  | .charge name _ _ _ _ => some name
  | .budget _ _ => none
  | .feebudget _ _ => none
  | .reserved _ _ => none
  | .reservedfee _ _ => none

/-- The amount of such a message. An Ethereum transaction counts in ETH with its largest fee,
and by what it makes the token contract do in any other currency. -/
def Event.amount (currency : Str) : Event → Nat
  | .rawtx _ _ tx _ => if currency = ETH then value tx.value + txfee tx else tokenamount tx.data
  | .authorization _ _ amount _ _ _ => value ((dectobe amount).getD [])
  | .charge _ _ cents _ _ => cents.toNat
  | .budget _ _ => 0
  | .feebudget _ _ => 0
  | .reserved _ _ => 0
  | .reservedfee _ _ => 0

def entry (name currency : Str) (event : Event) : Option Entry :=
  match event with
  | .budget owner b =>
    if owner = name then some (.limits (value b.maxpertx) (value b.maxpersess)) else none
  | .reserved owner amount => if owner = name then some (.reserve (value amount)) else none
  | .feebudget _ _ => none
  | .reservedfee _ _ => none
  | sent => if sent.sender = some name then some (.spend (sent.amount currency)) else none

/-- What an event means for the fee budget of an account: the fee of an ETH payment counts for
its budget. -/
def feeentry (name : Str) (event : Event) : Option Entry :=
  match event with
  | .feebudget owner b =>
    if owner = name then some (.limits (value b.maxpertx) (value b.maxpersess)) else none
  | .reservedfee owner amount => if owner = name then some (.reserve (value amount)) else none
  | .rawtx owner _ tx _ =>
    if owner = name ∧ tx.data ≠ [] then some (.spend (txfee tx)) else none
  | _ => none

def ledger (name currency : Str) (log : List Event) : List Entry :=
  log.filterMap (entry name currency)

def feeledger (name : Str) (log : List Event) : List Entry := log.filterMap (feeentry name)

def meter (b : Budget) : Meter := ⟨value b.maxpertx, value b.maxpersess, value b.spent⟩

def feemeter (b : FeeBudget) : Meter := ⟨value b.maxpertx, value b.maxpersess, value b.spent⟩

def Event.setting (name : Str) : Event → Option Budget
  | .budget owner b => if owner = name then some b else none
  | _ => none

def lastbudget (name : Str) (log : List Event) : Option Budget :=
  log.findSome? (Event.setting name)

def Event.isfee : Event → Bool
  | .reservedfee _ _ => true
  | _ => false

/-- A message of an account with a budget comes after the reservation of its amount in the
currency of the budget, and a token transfer after that of its fee. -/
structure Preceded (event : Event) (earlier : List Event) : Prop where
  reserved : ∀ name b, event.sender = some name → lastbudget name earlier = some b →
    ∃ amount, (earlier.dropWhile Event.isfee).head? = some (.reserved name amount) ∧
      value amount = event.amount b.currency
  fee : ∀ name n, feeentry name event = some (.spend n) →
    ∃ amount, earlier.head? = some (.reservedfee name amount) ∧ value amount = n

/-- The budgets are those of the log, and the messages in it keep to them. -/
structure Kept (purse : Purse) : Prop where
  currencies : ∀ name, (getbudget purse.books name).map Budget.currency =
    (lastbudget name purse.log).map Budget.currency
  budgets : ∀ name b, getbudget purse.books name = some b →
    Sound (meter b) (ledger name b.currency purse.log)
  fees : ∀ name b, getfeebudget purse.books name = some b →
    Sound (feemeter b) (feeledger name purse.log)
  preceded : ∀ front event earlier, purse.log = front ++ event :: earlier →
    Preceded event earlier

/-! ### Events one by one -/

variable {event : Event} {name currency amount recipient : Str} {purse after : Purse}
    {acct : Account} {amt : Bytes} {maxfee : Option Bytes} {books : Books} {n tokens fees : Nat}
    {out : Outside} {net : NetworkConfig} {s : State}

theorem preceded_of_sender (quiet : event.sender = none) (earlier : List Event) :
    Preceded event earlier where
  reserved := fun name b sent => absurd sent (by simp [quiet])
  fee := by
    intro _ _ spent
    cases event with
    | rawtx => cases quiet
    | authorization => cases quiet
    | charge => cases quiet
    | budget => cases spent
    | reserved => cases spent
    | feebudget => simp [feeentry] at spent
    | reservedfee => simp [feeentry] at spent

theorem preceded_cons {log : List Event} (new : Preceded event log)
    (old : ∀ front event earlier, log = front ++ event :: earlier → Preceded event earlier) :
    ∀ front e earlier, event :: log = front ++ e :: earlier → Preceded e earlier := by
  intro front e earlier split
  cases front with
  | nil =>
    cases split
    exact new
  | cons _ rest =>
    rw [cons_append, List.cons.injEq] at split
    exact old rest e earlier split.2

theorem lastbudget_cons (quiet : event.setting name = none) (log : List Event) :
    lastbudget name (event :: log) = lastbudget name log := by
  unfold lastbudget
  rw [findSome?_cons, quiet]

theorem ledger_cons_none (quiet : entry name currency event = none) (log : List Event) :
    ledger name currency (event :: log) = ledger name currency log :=
  filterMap_cons_none quiet

variable {e : Entry} {owner : Str} {req : AuthReq}

theorem ledger_cons_some (read : entry name currency event = some e) (log : List Event) :
    ledger name currency (event :: log) = e :: ledger name currency log :=
  filterMap_cons_some read

theorem feeledger_cons_none (quiet : feeentry name event = none) (log : List Event) :
    feeledger name (event :: log) = feeledger name log :=
  filterMap_cons_none quiet

theorem feeledger_cons_some (read : feeentry name event = some e) (log : List Event) :
    feeledger name (event :: log) = e :: feeledger name log :=
  filterMap_cons_some read

theorem kept_start : Kept start.purse where
  currencies := fun _ => rfl
  budgets := fun _ _ found => absurd found (by simp [start, nobooks, getbudget])
  fees := fun _ _ found => absurd found (by simp [start, nobooks, getfeebudget])
  preceded := fun front _ _ split => absurd split (by simp [start])

/-! ### Settings -/

theorem Kept.setbudget (kept : Kept purse) (acct : Account) (b : Budget) (unspent : b.spent = []) :
    Kept { purse with
      books := Wallet.setbudget purse.books acct b
      log := .budget acct.name b :: purse.log } where
  currencies := by
    intro name
    by_cases own : acct.name = name
    · subst own
      simp [getbudget, Wallet.setbudget, lastbudget, Event.setting]
    · rw [lastbudget_cons (by simp [Event.setting, own]), ← kept.currencies name]
      simp [getbudget, Wallet.setbudget, Named.get_put_other _ _ (Ne.symm own)]
  budgets := by
    intro name found now
    by_cases own : acct.name = name
    · subst own
      simp only [getbudget, Wallet.setbudget, Named.get_put_self, Option.some.injEq] at now
      subst now
      rw [ledger_cons_some (e := .limits (value b.maxpertx) (value b.maxpersess))
        (by simp [entry])]
      rw [meter, unspent]
      exact sound_limits ..
    · rw [ledger_cons_none (by simp [entry, own])]
      apply kept.budgets name found
      simpa [getbudget, Wallet.setbudget, Named.get_put_other _ _ (Ne.symm own)] using now
  fees := by
    intro name found now
    rw [feeledger_cons_none rfl]
    exact kept.fees name found now
  preceded := preceded_cons (preceded_of_sender rfl _) kept.preceded

theorem Kept.setfeebudget (kept : Kept purse) (acct : Account) (b : FeeBudget)
    (unspent : b.spent = []) :
    Kept { purse with
      books := Wallet.setfeebudget purse.books acct b
      log := .feebudget acct.name b :: purse.log } where
  currencies := by
    intro name
    rw [lastbudget_cons rfl]
    exact kept.currencies name
  budgets := by
    intro name found now
    rw [ledger_cons_none rfl]
    exact kept.budgets name found now
  fees := by
    intro name found now
    by_cases own : acct.name = name
    · subst own
      simp only [getfeebudget, Wallet.setfeebudget, Named.get_put_self, Option.some.injEq] at now
      subst now
      rw [feeledger_cons_some (e := .limits (value b.maxpertx) (value b.maxpersess))
        (by simp [feeentry])]
      rw [feemeter, unspent]
      exact sound_limits ..
    · rw [feeledger_cons_none (by simp [feeentry, own])]
      apply kept.fees name found
      simpa [getfeebudget, Wallet.setfeebudget, Named.get_put_other _ _ (Ne.symm own)] using now
  preceded := preceded_cons (preceded_of_sender rfl _) kept.preceded

/-! ### Reservations -/

theorem reserveamt_eq_ok (reserved : reserveamt purse acct amt = .ok after) :
    getbudget purse.books acct.name = none ∧ after = purse ∨
      ∃ b total, getbudget purse.books acct.name = some b ∧
        Room (value b.maxpertx) (value b.maxpersess) (value b.spent) (value amt) ∧
        value total = value b.spent + value amt ∧ after = { purse with
          books := { purse.books with
            budgets := purse.books.budgets.change acct.name fun b => { b with spent := total } }
          log := .reserved acct.name amt :: purse.log } := by
  unfold reserveamt at reserved
  rw [bind_eq_ok] at reserved
  have ⟨_, taken, same⟩ := reserved
  cases same
  have ⟨checked, cases⟩ := reserve_eq_ok taken
  rcases cases with ⟨absent, rfl⟩ | ⟨n, b, total, same, found, sum, -, rfl⟩
  · left
    refine ⟨absent, ?_⟩
    rw [absent]
    rfl
  right
  cases same
  have ⟨_, same, room⟩ := (checkbudget_eq_none_iff _).1 checked
  cases same
  refine ⟨b, total, found, room b found, sum, ?_⟩
  rw [found]
  rfl

theorem reservefeeamt_eq_ok (reserved : reservefeeamt purse acct maxfee = .ok after) :
    ∃ n b total, maxfee = some n ∧ getfeebudget purse.books acct.name = some b ∧
      Room (value b.maxpertx) (value b.maxpersess) (value b.spent) (value n) ∧
      value total = value b.spent + value n ∧ value b.spent + value n < 2 ^ 256 ∧ after = { purse with
        books := { purse.books with
          feebudgets := purse.books.feebudgets.change acct.name fun b => { b with spent := total } }
        log := .reservedfee acct.name n :: purse.log } := by
  unfold reservefeeamt at reserved
  rw [bind_eq_ok] at reserved
  have ⟨_, taken, same⟩ := reserved
  cases same
  obtain ⟨checked, n, b, total, rfl, found, sum, small, rfl⟩ := reservefee_eq_ok taken
  have ⟨n, b, same, foundAgain, room⟩ := (checkfee_eq_none_iff _).1 checked
  cases same
  rw [found, Option.some.injEq] at foundAgain
  subst foundAgain
  exact ⟨n, b, total, rfl, found, room, sum, small, rfl⟩

def Ready (purse : Purse) (name currency : Str) (n : Nat) : Prop :=
  ∀ b, getbudget purse.books name = some b → b.currency = currency ∧
    Within (value b.maxpertx) n ∧
    (spends (ledger name currency purse.log)).sum + n ≤
      (reservations (ledger name currency purse.log)).sum ∧
    ∃ amount, (purse.log.dropWhile Event.isfee).head? = some (.reserved name amount) ∧
      value amount = n

def FeeReady (purse : Purse) (name : Str) (n : Nat) : Prop :=
  ∃ b, getfeebudget purse.books name = some b ∧ Within (value b.maxpertx) n ∧
    (spends (feeledger name purse.log)).sum + n ≤ (reservations (feeledger name purse.log)).sum ∧
    ∃ amount, purse.log.head? = some (.reservedfee name amount) ∧ value amount = n

theorem Kept.reserveamt (kept : Kept purse)
    (reserved : Wallet9p.reserveamt purse acct amt = .ok after) : Kept after := by
  rcases reserveamt_eq_ok reserved with ⟨absent, rfl⟩ | ⟨b, total, found, room, sum, rfl⟩
  · exact kept
  exact {
    currencies := by
      intro name
      rw [lastbudget_cons rfl, ← kept.currencies name]
      by_cases own : acct.name = name
      · subst own
        simp [getbudget, Named.get_change_self, Function.comp_def]
      · simp [getbudget, Named.get_change_other _ _ (Ne.symm own)]
    budgets := by
      intro name b' now
      by_cases own : acct.name = name
      · subst own
        simp only [getbudget, Named.get_change_self] at now found
        rw [found, map_some, Option.some.injEq] at now
        subst now
        rw [ledger_cons_some (e := .reserve (value amt)) (by simp [entry]), meter, sum]
        exact (kept.budgets acct.name b found).reserve room.session
      · rw [ledger_cons_none (by simp [entry, own])]
        apply kept.budgets name b'
        simpa [getbudget, Named.get_change_other _ _ (Ne.symm own)] using now
    fees := by
      intro name b' now
      rw [feeledger_cons_none rfl]
      exact kept.fees name b' now
    preceded := preceded_cons (preceded_of_sender rfl _) kept.preceded }

theorem Kept.reservefeeamt (kept : Kept purse)
    (reserved : Wallet9p.reservefeeamt purse acct maxfee = .ok after) : Kept after := by
  obtain ⟨n, b, _, rfl, found, room, sum, -, rfl⟩ := reservefeeamt_eq_ok reserved
  exact {
    currencies := by
      intro name
      rw [lastbudget_cons rfl]
      exact kept.currencies name
    budgets := by
      intro name b' now
      rw [ledger_cons_none rfl]
      exact kept.budgets name b' now
    fees := by
      intro name b' now
      by_cases own : acct.name = name
      · subst own
        simp only [getfeebudget, Named.get_change_self] at now found
        rw [found, map_some, Option.some.injEq] at now
        subst now
        rw [feeledger_cons_some (e := .reserve (value n)) (by simp [feeentry]), feemeter, sum]
        exact (kept.fees acct.name b found).reserve room.session
      · rw [feeledger_cons_none (by simp [feeentry, own])]
        apply kept.fees name b'
        simpa [getfeebudget, Named.get_change_other _ _ (Ne.symm own)] using now
    preceded := preceded_cons (preceded_of_sender rfl _) kept.preceded }

theorem budgeterr_currency {amt : Option Bytes} (checked : budgeterr books acct currency amt = none)
    {b : Budget} (found : getbudget books acct.name = some b) : b.currency = currency := by
  unfold budgeterr at checked
  rw [found] at checked
  by_contra different
  simp [different] at checked

theorem ready_reserveamt (kept : Kept purse) {claimed : Option Bytes}
    (checked : budgeterr purse.books acct currency claimed = none)
    (reserved : Wallet9p.reserveamt purse acct amt = .ok after) :
    Ready after acct.name currency (value amt) := by
  rcases reserveamt_eq_ok reserved with ⟨absent, rfl⟩ | ⟨b, total, found, room, sum, rfl⟩
  · intro b found
    rw [absent] at found
    cases found
  intro _ now
  have same := budgeterr_currency checked found
  simp only [getbudget, Named.get_change_self] at now found
  rw [found, map_some, Option.some.injEq] at now
  subst now
  refine ⟨same, room.1, ?_, amt, rfl, rfl⟩
  rw [ledger_cons_some (e := .reserve (value amt)) (by simp [entry]), ← same]
  exact (kept.budgets acct.name b found).left _

theorem Ready.reservefeeamt (ready : Ready purse acct.name currency n)
    (reserved : Wallet9p.reservefeeamt purse acct maxfee = .ok after) :
    Ready after acct.name currency n := by
  obtain ⟨_, _, _, rfl, _, _, _, -, rfl⟩ := reservefeeamt_eq_ok reserved
  intro b' now
  have ⟨same, within, left, amount, head, exact_⟩ := ready b' now
  refine ⟨same, within, ?_, amount, ?_, exact_⟩
  · rw [ledger_cons_none rfl]
    exact left
  · exact head

theorem feeReady_reservefeeamt (kept : Kept purse) {fee : Bytes}
    (reserved : Wallet9p.reservefeeamt purse acct (some fee) = .ok after) :
    FeeReady after acct.name (value fee) := by
  obtain ⟨_, b, total, same, found, room, _, -, rfl⟩ := reservefeeamt_eq_ok reserved
  cases same
  refine ⟨{ b with spent := total }, ?_, room.1, ?_, fee, rfl, rfl⟩
  · simp only [getfeebudget, Named.get_change_self] at found ⊢
    rw [found]
    rfl
  · rw [feeledger_cons_some (e := .reserve (value fee)) (by simp [feeentry])]
    exact (kept.fees acct.name b found).left _

/-! ### Messages -/

theorem entry_of_sender (sent : event.sender = some owner) (name currency : Str) :
    entry name currency event =
      if owner = name then some (.spend (event.amount currency)) else none := by
  cases event <;> cases sent <;> simp [entry, Event.sender]

theorem setting_of_sender (sent : event.sender = some owner) (name : Str) :
    event.setting name = none := by
  cases event <;> cases sent <;> rfl

theorem Kept.send (kept : Kept purse) (sent : event.sender = some name)
    (ready : Ready purse name currency n) (same : event.amount currency = n)
    (fee : ∀ owner f, feeentry owner event = some (.spend f) → FeeReady purse owner f)
    (plain : ∀ owner e, feeentry owner event = some e → ∃ f, e = .spend f) :
    Kept { purse with log := event :: purse.log } where
  currencies := by
    intro other
    rw [lastbudget_cons (setting_of_sender sent other)]
    exact kept.currencies other
  budgets := by
    intro other b found
    by_cases own : name = other
    · subst own
      obtain ⟨rfl, within, left, -⟩ := ready b found
      rw [ledger_cons_some (e := .spend n) (by rw [entry_of_sender sent, if_pos rfl, same])]
      exact (kept.budgets name b found).spend within left
    · rw [ledger_cons_none (by rw [entry_of_sender sent, if_neg own])]
      exact kept.budgets other b found
  fees := by
    intro other b found
    rcases read : feeentry other event with _ | e
    · rw [feeledger_cons_none read]
      exact kept.fees other b found
    obtain ⟨f, rfl⟩ := plain other e read
    obtain ⟨b', foundAgain, within, left, -⟩ := fee other f read
    have again : getfeebudget purse.books other = some b := found
    rw [again, Option.some.injEq] at foundAgain
    subst foundAgain
    rw [feeledger_cons_some read]
    exact (kept.fees other b found).spend within left
  preceded := by
    refine preceded_cons ⟨?_, ?_⟩ kept.preceded
    · intro owner _ sentBy set
      rw [sent, Option.some.injEq] at sentBy
      subst sentBy
      have current := kept.currencies name
      rw [set, map_some, map_eq_some_iff] at current
      have ⟨b', found, currencySame⟩ := current
      obtain ⟨currencyOf, -, -, amount, head, exact_⟩ := ready b' found
      exact ⟨amount, head, by rw [exact_, ← currencySame, currencyOf, same]⟩
    · intro owner f spent
      obtain ⟨-, -, -, -, amount, head, exact_⟩ := fee owner f spent
      exact ⟨amount, head, exact_⟩

/-! ### Executions -/

theorem tokenamount_calldata {recipaddr amtbytes : Bytes} (short : recipaddr.length ≤ 20)
    (fits : amtbytes.length ≤ 32) :
    tokenamount (calldata recipaddr amtbytes) = value amtbytes := by
  have place : ([0xa9, 0x05, 0x9c, 0xbb] ++ List.replicate 12 0 ++ recipaddr ++
      List.replicate (20 - recipaddr.length) 0 : Bytes).length = 36 := by
    simp only [length_append, length_replicate, length_cons, length_nil]
    omega
  unfold tokenamount
  rw [calldata_eq short fits, ← place, drop_left, value_replicate_append]

theorem signed_eq_ok {tx : EthTx} {amount : Bytes} {s : Signed}
    (done : signed out acct tx amount = .ok s) :
    s.tx = tx ∧ s.amount = amount ∧ s.maxfee = dectobe (decimal (tx.gasprice * tx.gaslimit)) := by
  unfold signed at done
  rw [bind_eq_ok] at done
  have ⟨_, _, done⟩ := done
  rw [bind_eq_ok] at done
  have ⟨_, _, done⟩ := done
  cases done
  exact ⟨rfl, rfl, rfl⟩

/-- The largest fee of a transaction can always be read. -/
theorem dectobe_fee (out : Outside) (limit : Int) (natural : 0 ≤ limit) (low : limit ≤ 100000) :
    ∃ fee, dectobe (decimal (gasprice out * limit)) = some fee ∧
      value fee = (gasprice out * limit).toNat := by
  have ⟨lower, upper⟩ := gasprice_bounds out
  have positive : 0 ≤ gasprice out * limit := mul_nonneg lower natural
  have small : gasprice out * limit ≤ 100000000000 * 100000 := by
    calc gasprice out * limit ≤ 100000000000 * limit := mul_le_mul_of_nonneg_right upper natural
      _ ≤ 100000000000 * 100000 := mul_le_mul_of_nonneg_left low (by decide)
  have ⟨n, same⟩ := Int.eq_ofNat_of_zero_le positive
  rw [same]
  exact dectobe_natDigits (n := n) (by omega)

theorem signpayment_eq_ok {s : Signed}
    (done : signpayment out net books acct amount recipient = .ok s) :
    dectobe amount = some s.amount ∧ s.tx.value = s.amount ∧ s.tx.data = [] ∧
      ∃ fee, s.maxfee = some fee ∧ value fee = txfee s.tx := by
  unfold signpayment at done
  simp only [bind_eq_ok] at done
  obtain ⟨_, -, _, -, _, read, _, -, _, -, _, -, _, -, done⟩ := done
  have ⟨tx, same, maxfee⟩ := signed_eq_ok done
  have ⟨fee, readFee, exact_⟩ := dectobe_fee out 21000 (by decide) (by decide)
  rw [need_eq_ok] at read
  rw [tx, same, maxfee]
  exact ⟨read, rfl, rfl, fee, readFee, exact_⟩

theorem signerc20_eq_ok {s : Signed}
    (done : signerc20 out net books acct amount recipient = .ok s) :
    dectobe amount = some s.amount ∧ budgeterr books acct USDC (some s.amount) = none ∧
      tokenamount s.tx.data = value s.amount ∧ s.tx.data ≠ [] ∧
      s.maxfee = dectobe (decimal (gasprice out * 100000)) ∧
      ∃ fee, s.maxfee = some fee ∧ value fee = txfee s.tx := by
  unfold signerc20 at done
  simp only [bind_eq_ok] at done
  obtain ⟨_, -, _, -, recipaddr, decoded, amt, read, _, checked, _, -, nonce, -, tokenaddr, -,
    done⟩ := done
  have ⟨tx, same, maxfee⟩ := signed_eq_ok done
  have ⟨fee, readFee, exact_⟩ := dectobe_fee out 100000 (by decide) (by decide)
  rw [need_eq_ok] at read decoded
  rw [refuse_eq_ok] at checked
  have short : recipaddr.length ≤ 20 := by
    rcases length_strtoaddr decoded with whole | cut <;> omega
  have fits := length_dectobe read
  rw [tx, same, maxfee]
  refine ⟨read, checked, tokenamount_calldata short fits, ?_, rfl, fee, readFee, exact_⟩
  intro empty
  have length := length_calldata short fits
  rw [show calldata recipaddr amt = [] from empty] at length
  cases length

theorem Kept.executepayment (kept : Kept purse) {s : Signed}
    (signed : signpayment out net purse.books acct amount recipient = .ok s)
    (reserved : reservepayment purse acct s = .ok after) (uncertain : Str) :
    Kept (submit out after acct s uncertain).2 := by
  obtain ⟨-, sent, plain, _, maxfee, exact_⟩ := signpayment_eq_ok signed
  unfold reservepayment at reserved
  simp only [bind_eq_ok, need_eq_ok, refuse_eq_ok, mapError_eq_ok] at reserved
  have ⟨charge, added, _, checked, reserved⟩ := reserved
  rw [maxfee] at added
  have total := (beadd_eq_some added).1
  apply (kept.reserveamt reserved).send rfl (ready_reserveamt kept checked reserved)
  · show (if ETH = ETH then value s.tx.value + txfee s.tx else tokenamount s.tx.data) = value charge
    rw [if_pos rfl, sent, total, ← exact_]
    rfl
  · intro owner _ spent
    simp [feeentry, plain] at spent
  · intro _ _ spent
    simp [feeentry, plain] at spent

theorem Kept.executeerc20 (kept : Kept purse) {s : Signed} {charged : Purse}
    (signed : signerc20 out net purse.books acct amount recipient = .ok s)
    (reserved : Wallet9p.reserveamt purse acct s.amount = .ok after)
    (reservedfee : Wallet9p.reservefeeamt after acct s.maxfee = .ok charged) (uncertain : Str) :
    Kept (submit out charged acct s uncertain).2 := by
  obtain ⟨-, checked, moved, data, -, fee, maxfee, exact_⟩ := signerc20_eq_ok signed
  rw [maxfee] at reservedfee
  have keptAfter := kept.reserveamt reserved
  have ready := (ready_reserveamt kept checked reserved).reservefeeamt reservedfee
  have feeReady := feeReady_reservefeeamt keptAfter reservedfee
  apply (keptAfter.reservefeeamt reservedfee).send rfl ready
  · show (if USDC = ETH then value s.tx.value + txfee s.tx else tokenamount s.tx.data) = _
    rw [if_neg (by decide), moved]
  · intro owner f spent
    simp only [feeentry, data, ne_eq, not_false_eq_true, and_true] at spent
    split at spent
    · rename_i own
      cases spent
      rwa [← own, ← exact_]
    · cases spent
  · intro owner e spent
    simp only [feeentry, data, ne_eq, not_false_eq_true, and_true] at spent
    split at spent
    · cases spent
      exact ⟨_, rfl⟩
    · cases spent

theorem validateauth_budgeterr (valid : validateauth books net acct req = none) :
    ∃ amt,
    dectobe req.amount = some amt ∧
      budgeterr books acct (assetcurrency net req.asset) (some amt) = none := by
  unfold validateauth at valid
  split_ifs at valid
  · rcases read : dectobe req.amount with _ | amt
    · rw [read] at valid
      cases valid
    · rw [read] at valid
      cases valid
  rcases read : dectobe req.amount with _ | amt
  · rw [read] at valid
    cases valid
  · rw [read] at valid
    exact ⟨amt, rfl, valid⟩

theorem signx402_eq_ok {auth : Authorized} (done : signx402 out net books acct req = .ok auth) :
    dectobe req.amount = some auth.amount ∧
      budgeterr books acct (assetcurrency net req.asset) (some auth.amount) = none := by
  unfold signx402 at done
  simp only [bind_eq_ok, refuse_eq_ok] at done
  obtain ⟨_, valid, _, -, _, -, _, -, _, -, _, -, done⟩ := done
  cases done
  have ⟨_, read, checked⟩ := validateauth_budgeterr valid
  rw [read]
  exact ⟨rfl, checked⟩

theorem Kept.executex402 (kept : Kept purse) (acct : Account) (req : AuthReq) :
    Kept (Wallet9p.executex402 out net purse acct req).2 := by
  unfold Wallet9p.executex402
  rcases signed : signx402 out net purse.books acct req with err | auth
  · exact kept
  simp only
  rcases reserved : Wallet9p.reserveamt purse acct auth.amount with err | after
  · exact kept
  have ⟨read, checked⟩ := signx402_eq_ok signed
  apply (kept.reserveamt reserved).send rfl (ready_reserveamt kept checked reserved)
  · show value ((dectobe req.amount).getD []) = _
    rw [read]
    rfl
  · intro owner _ spent
    cases spent
  · intro _ _ spent
    cases spent

theorem strint_eq_some {s : Str} {n : Int} (read : strint s = some n) : n = natOfDigits s := by
  unfold strint at read
  split at read
  · cases read
  split at read
  · cases read
    rfl
  · cases read

theorem preparestripe_eq_ok {cents : Int} {key : Str} {amt : Option Bytes}
    (done : preparestripe out books acct amount = .ok (cents, key, amt)) :
    strint amount = some cents ∧ budgeterr books acct USD amt = none ∧ amt = dectobe amount := by
  unfold preparestripe at done
  simp only [bind_eq_ok, need_eq_ok, refuse_eq_ok] at done
  obtain ⟨_, read, _, -, _, checked, _, -, done⟩ := done
  cases done
  exact ⟨read, checked, rfl⟩

theorem Kept.withstripe (kept : Kept purse) (stripe : Option Str) :
    Kept { purse with stripe := stripe } :=
  ⟨kept.currencies, kept.budgets, kept.fees, kept.preceded⟩

theorem Kept.executestripepayment (kept : Kept purse) (acct : Account) (amount description : Str) :
    Kept (Wallet9p.executestripepayment out purse acct amount description).2 := by
  unfold Wallet9p.executestripepayment
  rcases initstripe out purse.stripe acct.name with ⟨err, stripe⟩
  have keptInit := kept.withstripe stripe
  rcases err with _ | err
  · simp only
    rcases prepared : preparestripe out purse.books acct amount with err | ⟨cents, key, amt⟩
    · exact keptInit
    rcases amt with _ | amt
    · exact keptInit
    simp only
    rcases reserved : Wallet9p.reserveamt { purse with stripe := stripe } acct amt with err | after
    · exact keptInit
    have ⟨read, checked, decoded⟩ := preparestripe_eq_ok prepared
    have keptAfter := keptInit.reserveamt reserved
    unfold createpayment
    simp only
    split
    · exact keptAfter
    apply keptAfter.send rfl (ready_reserveamt keptInit checked reserved)
    · show cents.toNat = value amt
      rw [strint_eq_some read, (dectobe_eq_some decoded.symm).2.2.2.1]
      rfl
    · intro owner _ spent
      cases spent
    · intro _ _ spent
      cases spent
  · exact keptInit

theorem Kept.execute {env : Env} (kept : Kept s.purse) (acct : Account) (pp : PendingPay) :
    Kept (Wallet9p.execute env s acct pp).2 := by
  unfold Wallet9p.execute
  cases pp.kind with
  | x402 => exact kept.executex402 acct _
  | pay =>
    simp only
    split
    · unfold Wallet9p.executeerc20
      rcases signed : signerc20 env.out s.net s.purse.books acct pp.amount pp.recipient
        with err | signed'
      · exact kept
      simp only
      rcases checkerc20 s.purse.books acct signed' with err | _
      · exact kept
      simp only
      rcases reserved : Wallet9p.reserveamt s.purse acct signed'.amount with err | after
      · exact kept
      simp only
      rcases charged : Wallet9p.reservefeeamt after acct signed'.maxfee with err | charged'
      · exact kept.reserveamt reserved
      · exact kept.executeerc20 signed reserved charged _
    · unfold Wallet9p.executepayment
      split
      · exact kept.executestripepayment acct _ _
      rcases signed : signpayment env.out s.net s.purse.books acct pp.amount pp.recipient
        with err | signed'
      · exact kept
      simp only
      rcases reserved : reservepayment s.purse acct signed' with err | after
      · exact kept
      · exact kept.executepayment signed reserved _

/-! ### Every run -/

theorem Kept.booked {before : Purse} (kept : Kept before) (booked : Booked before after) :
    Kept after := by
  rcases booked with rfl | ⟨acct, b, unspent, rfl⟩ | ⟨acct, b, unspent, rfl⟩
  · exact kept
  · exact kept.setbudget acct b unspent
  · exact kept.setfeebudget acct b unspent

theorem kept_step (inv : Inv s) (kept : Kept s.purse) (request : Env × Action) :
    Kept (step s request).purse := by
  rcases step_effect inv.nodup request with effect | ⟨np, effect⟩ | ⟨e, pp, effect⟩
  · exact kept.booked effect.booked
  · rw [effect.purse]
    exact kept
  · obtain ⟨as, -, executed⟩ := effect.executed
    have after : Kept (execute request.1 s as.acct pp).2 := kept.execute as.acct pp
    rwa [executed] at after

theorem kept_run (requests : List (Env × Action)) : Kept (run requests).purse := by
  induction requests using List.reverseRecOn with
  | nil => exact kept_start
  | append_singleton front last ih =>
    rw [run_append]
    exact kept_step (inv_run front) ih last

def Spares (s : State) (request : Env × Action) : Prop :=
  ∀ e pp amount, (step s request).executions = e :: s.executions →
    s.heap[e.ref]? = some pp → pp.kind = .pay → pp.token = str "usdc" →
    (step s request).purse.log ≠ .reserved pp.acct amount :: s.purse.log

def tokenfee (out : Outside) : Nat := (gasprice out * 100000).toNat

/-- At the approval of a token transfer the fees reserved so far and the next one have a sum of
256 bits, if the limits of the fee budget leave room for it. -/
def FeeFits (s : State) (request : Env × Action) : Prop :=
  ∀ data pp b, request.2 = .ctl data → pendingid (words data) (str "approve") = .ok pp.id →
    pp ∈ s.heap → pp.kind = .pay → pp.token = str "usdc" →
    getfeebudget s.purse.books pp.acct = some b →
    Room (value b.maxpertx) (value b.maxpersess) (value b.spent) (tokenfee request.1.out) →
    value b.spent + tokenfee request.1.out < 2 ^ 256

theorem findacct_name {as : AcctState} (found : findacct s name = some as) :
    as.acct.name = name := by
  have named := find?_some found
  simpa using named

/-- Whether a fee is let through is not up to the other budget. -/
theorem checkfee_reserveamt (reserved : Wallet9p.reserveamt purse acct amt = .ok after) :
    getfeebudget after.books = getfeebudget purse.books ∧
      checkfee after.books = checkfee purse.books := by
  rcases reserveamt_eq_ok reserved with ⟨-, rfl⟩ | ⟨b, total, -, -, -, rfl⟩
  · exact ⟨rfl, rfl⟩
  · exact ⟨rfl, rfl⟩

theorem checkerc20_eq_ok {s : Signed} {u : Unit} (checked : checkerc20 books acct s = .ok u) :
    checkbudget books acct (some s.amount) = none ∧ checkfee books acct s.maxfee = none := by
  unfold checkerc20 at checked
  simp only [bind_eq_ok, refuse_eq_ok] at checked
  have ⟨_, amount, fee⟩ := checked
  exact ⟨amount, fee⟩

/-- A token transfer whose fee fits does not stop between its two reservations. -/
theorem executeerc20_spares (fits : ∀ b, getfeebudget purse.books acct.name = some b →
      Room (value b.maxpertx) (value b.maxpersess) (value b.spent) (tokenfee out) →
      value b.spent + tokenfee out < 2 ^ 256) (reservation : Bytes) :
    (executeerc20 out net purse acct amount recipient).2.log ≠
      .reserved acct.name reservation :: purse.log := by
  have unchanged : purse.log ≠ .reserved acct.name reservation :: purse.log :=
    fun same => cons_ne_self _ _ same.symm
  unfold executeerc20
  rcases signed : signerc20 out net purse.books acct amount recipient with err | s
  · exact unchanged
  simp only
  rcases checked : checkerc20 purse.books acct s with err | _
  · exact unchanged
  simp only
  rcases reserved : Wallet9p.reserveamt purse acct s.amount with err | after
  · exact unchanged
  simp only
  rcases charged : Wallet9p.reservefeeamt after acct s.maxfee with err | charged'
  · exfalso
    obtain ⟨-, -, -, -, feeText, fee, maxfee, -⟩ := signerc20_eq_ok signed
    have ⟨_, decoded, exact_⟩ := dectobe_fee out 100000 (by decide) (by decide)
    rw [maxfee, decoded, Option.some.injEq] at feeText
    subst feeText
    have checkedFee := (checkerc20_eq_ok checked).2
    rw [maxfee] at checkedFee charged
    have ⟨n, b, same, found, room⟩ := (checkfee_eq_none_iff _).1 checkedFee
    cases same
    have ⟨sameBudget, sameCheck⟩ := checkfee_reserveamt reserved
    have refused : ∃ err, reservefee after.books acct (some fee) = .error err := by
      rcases taken : reservefee after.books acct (some fee) with err | books
      · exact ⟨err, rfl⟩
      · rw [Wallet9p.reservefeeamt, taken] at charged
        cases charged
    rw [reservefee_eq_error_iff (by rw [sameCheck]; exact checkedFee)
      (by rw [sameBudget]; exact found)] at refused
    have small := fits b found (by rw [tokenfee, ← exact_]; exact room)
    rw [tokenfee, ← exact_] at small
    omega
  · intro same
    obtain ⟨_, _, _, -, -, -, -, -, rfl⟩ := reservefeeamt_eq_ok charged
    have first := congrArg List.head? same
    cases first

theorem spares_step (inv : Inv s) {request : Env × Action} (fits : FeeFits s request) :
    Spares s request := by
  intro _ _ _ executions found kind token
  rcases step_effect inv.nodup request with effect | ⟨np, effect⟩ | ⟨e', pp', effect⟩
  · rw [effect.executions] at executions
    exact absurd executions.symm (cons_ne_self _ _)
  · rw [effect.executions] at executions
    exact absurd executions.symm (cons_ne_self _ _)
  rw [effect.executions, List.cons.injEq] at executions
  obtain ⟨rfl, -⟩ := executions
  rw [effect.found, Option.some.injEq] at found
  subst found
  obtain ⟨data, command, -, named⟩ := effect.approve
  have ⟨_, owner, executed⟩ := effect.executed
  unfold execute at executed
  simp only [kind, token, if_pos] at executed
  have after := congrArg (fun done => done.2.log) executed
  simp only at after
  rw [← after, ← findacct_name owner]
  apply executeerc20_spares
  rw [findacct_name owner]
  exact fun b budget => fits data pp' b command named (mem_of_getElem? effect.found) kind
    token budget

/-- What is spent in the currency of each budget since it was set keeps to it, and each message
comes after its reservation. -/
structure Limits (purse : Purse) : Prop where
  currencies : ∀ name, (getbudget purse.books name).map Budget.currency =
    (lastbudget name purse.log).map Budget.currency
  budgets : ∀ name b, getbudget purse.books name = some b →
    Capped (meter b) (ledger name b.currency purse.log)
  fees : ∀ name b, getfeebudget purse.books name = some b →
    Capped (feemeter b) (feeledger name purse.log)
  preceded : ∀ front event earlier, purse.log = front ++ event :: earlier →
    Preceded event earlier

theorem Kept.limits (kept : Kept purse) : Limits purse where
  currencies := kept.currencies
  budgets := fun name b found => (kept.budgets name b found).capped
  fees := fun name b found => (kept.fees name b found).capped
  preceded := kept.preceded

/-- The limits hold in every state of a run, and no step only reserves a token transfer. -/
def SpendingLimits (requests : List (Env × Action)) : Prop :=
  (∀ front back, requests = front ++ back → Limits (run front).purse) ∧
    ∀ front request back, requests = front ++ request :: back → Spares (run front) request

theorem spending_limits (requests : List (Env × Action))
    (fits : ∀ front request back, requests = front ++ request :: back →
      FeeFits (run front) request) : SpendingLimits requests :=
  ⟨fun front _ _ => (kept_run front).limits,
    fun front request back split => spares_step (inv_run front) (fits front request back split)⟩

/-! ### A fee budget that overflows -/

def payer : Account :=
  ⟨str "payer", .eth, str "0x1111111111111111111111111111111111111111"⟩

def keyring : Keyring where
  keccak256 := fun _ => List.replicate 32 0
  length_keccak256 := fun _ => length_replicate
  secp256k1_sign := fun _ _ => some (List.replicate 65 0)
  ed25519_sign := fun _ _ => some (List.replicate 64 0)

/-- An outside where every call answers, but the price of gas is not known. -/
def answers : Outside where
  kr := keyring
  chainid := .ok 11155111
  getnonce := fun _ => .ok 0
  gasprice := .error []
  sendrawtx := fun _ => .ok (str "0x1")
  getuserpasswd := fun _ => List.replicate 64 49
  randfill := fun n => some (List.replicate n 0)
  now := 1
  loadstripe := none
  initstripe := none
  apipost := fun _ _ _ => .ok (str "ok")

def payee : Str := str "0x2222222222222222222222222222222222222222"

/-- A submission when the clock fails for the proposals before it. -/
def payrequest : Env × Action := (⟨1, fun _ => 0, answers⟩, .pay 0 (str "usdc 1 " ++ payee))

def approverequest : Env × Action := (⟨1, fun _ => 1, answers⟩, .ctl (str "approve 1"))

def setup : List (Env × Action) :=
  [(⟨1, fun _ => 1, answers⟩, .create payer),
    (⟨1, fun _ => 1, answers⟩, .acctctl 0 (str "budget 0 0 USDC")),
    (⟨1, fun _ => 1, answers⟩, .acctctl 0 (str "gasbudget 0 0"))]

/-- One transfer, and submissions until the ids of proposals start again. -/
def block : List (Env × Action) :=
  payrequest :: approverequest :: List.replicate 4294967295 payrequest

/-- Budgets without limits, and transfers of one token each. -/
def transfers (n : Nat) : List (Env × Action) := setup ++ (List.replicate n block).flatten

/-- The account and its budgets between two requests, and what was reserved under them. -/
structure Spent (s : State) (tokens fees : Nat) : Prop where
  accounts : s.accounts = [⟨0, payer⟩]
  network : s.activenetwork = 0
  budget : ∃ spent, getbudget s.purse.books payer.name = some ⟨[], [], spent, USDC⟩ ∧
    value spent = tokens
  feebudget : ∃ spent, getfeebudget s.purse.books payer.name = some ⟨[], [], spent⟩ ∧
    value spent = fees

theorem checklimits_unlimited (spent amount : Bytes) (pertx overflow persess : Str) :
    checklimits [] [] spent amount pertx overflow persess = none := by
  rw [checklimits_eq_none_iff]
  exact ⟨Or.inl rfl, Or.inl rfl⟩

theorem Spent.budgeterr (spent : Spent s tokens fees) (amt : Bytes) :
    budgeterr s.purse.books payer USDC (some amt) = none := by
  obtain ⟨_, found, -⟩ := spent.budget
  unfold Wallet9p.budgeterr checkbudget
  simp only [found, bind_some, checklimits_unlimited, ne_eq, not_true_eq_false, if_false]

theorem countP_foldl_stale {clock : Nat → Int} (late : ∀ ref pp, stale (clock ref) pp = true)
    (refs : List Nat) (heap : List PendingPay) (places : ∀ ref ∈ refs, ref < heap.length) :
    refs.countP (unresolved (refs.foldl (checkpendingexpiry clock) heap)) = 0 := by
  rw [countP_eq_zero]
  intro ref member open_
  obtain ⟨front, back, rfl⟩ := append_of_mem member
  rw [foldl_append, foldl_cons] at open_
  have settled := settled_foldl clock front heap
  have inside : ref < (front.foldl (checkpendingexpiry clock) heap).length := by
    rw [settled.1]
    exact places ref member
  have found := getElem?_eq_getElem inside
  have resolved : unresolved (checkpendingexpiry clock
      (front.foldl (checkpendingexpiry clock) heap) ref) ref = false := by
    by_contra still
    rw [Bool.not_eq_false] at still
    have before := (settled_checkpendingexpiry clock _ ref).unresolved inside still
    rw [unresolved, getElem?_checkpendingexpiry found ((unresolved_iff found).1 before),
      if_pos (late ref _)] at still
    cases still
  have insideAfter : ref < (checkpendingexpiry clock
      (front.foldl (checkpendingexpiry clock) heap) ref).length := by
    rwa [(settled_checkpendingexpiry clock _ ref).1]
  rw [(settled_foldl clock back _).resolved insideAfter resolved] at open_
  cases open_

/-- Every submission is taken, since the proposals before it expire. -/
theorem step_payrequest (inv : Inv s) (spent : Spent s tokens fees) :
    ∃ heap refs, heap.length = s.heap.length ∧ step s payrequest = { s with
      heap := heap ++ [{ record payrequest.1 s .pay payer.name (str "1") payee (str "usdc") with
        network := caip2 s.net }]
      pendingpays := s.heap.length :: refs
      nextpendingid := wrap (s.nextpendingid + 1)
      quoted := s.quoted ++ [s.activenetwork] } := by
  have expired : s.pendingpays.countP (unresolved
      (s.pendingpays.foldl (checkpendingexpiry payrequest.1.clock) s.heap)) = 0 :=
    countP_foldl_stale (fun _ _ => rfl) s.pendingpays s.heap inv.places
  have taken : newpending payrequest.1 s .pay payer.name (str "1") payee (str "usdc") = _ :=
    newpending_taken (by decide) inv.nodup (by rw [expired]; decide)
  have found : findacctbyid s 0 = some ⟨0, payer⟩ := by
    rw [findacctbyid, spent.accounts]
    rfl
  have parsed : parsepay payer (str "usdc 1 " ++ payee) = .ok (str "1", payee, str "usdc") := by
    decide +kernel
  have amount : dectobe (str "1") = some [1] := by decide +kernel
  have valid : validatepay s.purse.books payer (str "usdc") (str "1") payee = none := by
    have form : validamount (str "1") = true := by decide +kernel
    have address : strtoaddr payee ≠ none := by decide +kernel
    unfold validatepay
    rw [form, Bool.not_true, if_neg Bool.false_ne_true,
      if_neg (show ¬payer.accttype = .stripe by decide),
      if_neg (show ¬payer.accttype ≠ .eth by decide), amount]
    simp only [if_neg address]
    exact spent.budgeterr [1]
  refine ⟨_, keeploop (s.pendingpays.foldl (checkpendingexpiry payrequest.1.clock) s.heap)
    s.pendingpays 0, (settled_foldl payrequest.1.clock s.pendingpays s.heap).1, ?_⟩
  show onaccount s 0 _ = _
  unfold onaccount
  rw [found]
  show (writepay payrequest.1 s ⟨0, payer⟩ (str "usdc 1 " ++ payee)).2 = _
  unfold writepay
  simp only [parsed, valid, taken]
  rw [← (settled_foldl payrequest.1.clock s.pendingpays s.heap).1, modify_last]
  rfl

theorem signerc20_payee (spent : Spent s tokens fees) :
    ∃ done, signerc20 answers (getnetwork 0) s.purse.books payer (str "1") payee = .ok done := by
  have address : (strtoaddr payee).isSome = true := by decide +kernel
  have ⟨recipaddr, decoded⟩ := isSome_iff_exists.1 address
  have token : (strtoaddr (getnetwork 0).usdc).isSome = true := by decide +kernel
  have ⟨tokenaddr, decodedToken⟩ := isSome_iff_exists.1 token
  have width : tokenaddr.length = 20 := by
    have known : ((strtoaddr (getnetwork 0).usdc).map List.length) = some 20 := by decide +kernel
    rw [decodedToken] at known
    exact Option.some.inj known
  have amount : dectobe (str "1") = some [1] := by decide +kernel
  have chain : confirmchainid answers (getnetwork 0) = none := by decide +kernel
  have key : hexdecode (List.replicate 64 49) = some (List.replicate 32 0x11) := by decide +kernel
  obtain ⟨raw, signedRaw⟩ : ∃ raw, signtx keyring ⟨0, gasprice answers, 100000, tokenaddr, [],
      calldata recipaddr [1], (getnetwork 0).chainid⟩ (List.replicate 32 0x11) = some raw := by
    unfold signtx
    rw [if_neg (by decide), if_neg (show ¬(getnetwork 0).chainid ≤ 0 by decide),
      if_neg (show ¬((0 : Int) < 0 ∨ gasprice answers < 0 ∨ (100000 : Int) ≤ 0) by decide),
      if_neg (by rintro ⟨-, other⟩; exact other width),
      if_neg (show ¬32 < (minimal []).length by decide)]
    exact ⟨_, rfl⟩
  refine ⟨⟨⟨0, gasprice answers, 100000, tokenaddr, [], calldata recipaddr [1],
    (getnetwork 0).chainid⟩, List.replicate 32 0x11, raw, [1],
    dectobe (decimal (gasprice answers * 100000))⟩, ?_⟩
  unfold signerc20 signed factotumkey
  simp only [bind_eq_ok, check_eq_ok, need_eq_ok, refuse_eq_ok, mapError_eq_ok]
  refine ⟨⟨⟩, by decide, ⟨⟩, by decide, recipaddr, decoded, [1], amount, ⟨⟩, spent.budgeterr [1],
    ⟨⟩, chain, 0, rfl, tokenaddr, decodedToken, List.replicate 32 0x11, ?_, raw, signedRaw, rfl⟩
  exact ⟨⟨⟩, by decide, _, key, ⟨⟩, by decide, rfl⟩

theorem reserveamt_unlimited (spent : Spent s tokens fees) (small : tokens + 1 < 2 ^ 256) :
    ∃ after, Wallet9p.reserveamt s.purse payer [1] = .ok after ∧
      after.log = .reserved payer.name [1] :: s.purse.log ∧
      (∃ total, getbudget after.books payer.name = some ⟨[], [], total, USDC⟩ ∧
        value total = tokens + 1) ∧ getfeebudget after.books = getfeebudget s.purse.books := by
  have ⟨before, found, counted⟩ := spent.budget
  have checked : checkbudget s.purse.books payer (some [1]) = none := by
    unfold checkbudget
    simp only [found, bind_some, checklimits_unlimited]
  rcases added : beadd before [1] with _ | total
  · have overflow := (beadd_eq_none_iff before [1]).1 added
    rw [counted] at overflow
    exact absurd overflow (Nat.not_le.2 small)
  have sum := (beadd_eq_some added).1
  rw [counted] at sum
  refine ⟨{ s.purse with
    books := { s.purse.books with
      budgets := s.purse.books.budgets.change payer.name fun b => { b with spent := total } }
    log := .reserved payer.name [1] :: s.purse.log }, ?_, rfl, ⟨total, ?_, sum⟩, rfl⟩
  · unfold Wallet9p.reserveamt reserve
    simp only [checked, found, getD_some, added]
    rfl
  · show (Named.change _ _ _).get _ = _
    rw [Named.get_change_self, show s.purse.books.budgets.get payer.name = _ from found]
    rfl

/-- A transfer under budgets without limits stops between its reservations when the sum of the
fees does not fit, and is sent otherwise. -/
theorem executeerc20_unlimited (spent : Spent s tokens fees) (small : tokens + 1 < 2 ^ 256) :
    let done := (executeerc20 answers (getnetwork 0) s.purse payer (str "1") payee).2
    done.log = .reserved payer.name [1] :: s.purse.log ∨
      fees + 100000000000000 < 2 ^ 256 ∧
      (∃ total, getbudget done.books payer.name = some ⟨[], [], total, USDC⟩ ∧
        value total = tokens + 1) ∧
      ∃ total, getfeebudget done.books payer.name = some ⟨[], [], total⟩ ∧
        value total = fees + 100000000000000 := by
  have ⟨done, signed⟩ := signerc20_payee spent
  obtain ⟨read, -, -, -, feeText, _, maxfee, -⟩ := signerc20_eq_ok signed
  have one : dectobe (str "1") = some [1] := by decide +kernel
  rw [one, Option.some.injEq] at read
  have ⟨readFee, decodedFee, exact_⟩ := dectobe_fee answers 100000 (by decide) (by decide)
  rw [feeText, decodedFee, Option.some.injEq] at maxfee
  subst maxfee
  have price : (gasprice answers * 100000).toNat = 100000000000000 := by decide
  rw [price] at exact_
  have ⟨_, found, counted⟩ := spent.feebudget
  have checkedFee : checkfee s.purse.books payer (some readFee) = none := by
    unfold checkfee
    simp only [found, checklimits_unlimited]
  have checked : checkerc20 s.purse.books payer done = .ok ⟨⟩ := by
    have amount : checkbudget s.purse.books payer (some [1]) = none := by
      obtain ⟨_, foundTokens, -⟩ := spent.budget
      unfold checkbudget
      simp only [foundTokens, bind_some, checklimits_unlimited]
    unfold checkerc20
    simp only [bind_eq_ok, refuse_eq_ok]
    exact ⟨⟨⟩, by rw [← read]; exact amount, by rw [feeText, decodedFee]; exact checkedFee⟩
  have ⟨after, reserved, log, budget, sameFee⟩ := reserveamt_unlimited spent small
  unfold executeerc20
  simp only [signed, checked, ← read, reserved, feeText, decodedFee]
  rcases charged : Wallet9p.reservefeeamt after payer (some readFee) with err | charged'
  · exact Or.inl log
  right
  obtain ⟨_, _, total, same, foundFee, -, sum, fits, rfl⟩ := reservefeeamt_eq_ok charged
  cases same
  rw [sameFee, found, Option.some.injEq] at foundFee
  subst foundFee
  refine ⟨?_, budget, total, ?_, ?_⟩
  · rwa [counted, exact_] at fits
  · show (Named.change _ _ _).get _ = _
    rw [Named.get_change_self,
      show after.books.feebudgets.get payer.name = _ from (congrFun sameFee _).trans found]
    rfl
  · rw [sum, counted, exact_]

theorem step_approverequest (inv : Inv s) (spent : Spent s tokens fees) (id : s.nextpendingid = 1)
    (small : tokens + 1 < 2 ^ 256) :
    ¬Spares (step s payrequest) approverequest ∨
      fees + 100000000000000 < 2 ^ 256 ∧
      Spent (step (step s payrequest) approverequest) (tokens + 1) (fees + 100000000000000) ∧
      (step (step s payrequest) approverequest).nextpendingid = wrap 2 := by
  have ⟨heap, _, length, submitted⟩ := step_payrequest inv spent
  generalize added : ({ record payrequest.1 s .pay payer.name (str "1") payee (str "usdc") with
    network := caip2 s.net } : PendingPay) = np at submitted
  have named : np.id = 1 := by rw [← added]; exact id
  have unset : np.result = none := by rw [← added]; rfl
  have owner : np.acct = payer.name := by rw [← added]; rfl
  have onNetwork : np.network = caip2 s.net := by rw [← added]
  have intime : stale (approverequest.1.clock s.heap.length) np = false := by rw [← added]; rfl
  have place : (heap ++ [np])[s.heap.length]? = some np := by
    rw [← length, getElem?_concat_length]
  have found : (step s payrequest).heap[s.heap.length]? = some np := by
    rw [submitted]
    exact place
  have called : findpending (step s payrequest) 1 = some s.heap.length := by
    rw [submitted, findpending]
    apply find?_cons_of_pos
    simp only [place, map_some, named, beq_self_eq_true]
  have account : findacct (step s payrequest) np.acct = some ⟨0, payer⟩ := by
    rw [submitted, findacct, owner]
    show s.accounts.find? _ = _
    rw [spent.accounts]
    rfl
  have kept : Spent (step s payrequest) tokens fees := by
    rw [submitted]
    exact ⟨spent.accounts, spent.network, spent.budget, spent.feebudget⟩
  have executed : execute approverequest.1 (step s payrequest) payer np =
      executeerc20 answers (getnetwork 0) (step s payrequest).purse payer (str "1") payee := by
    have same : (step s payrequest).net = getnetwork 0 := by rw [State.net, kept.network]
    rw [← added]
    unfold execute
    rw [same]
    rfl
  have transfer := executeerc20_unlimited kept small
  rcases done : executeerc20 answers (getnetwork 0) (step s payrequest).purse payer (str "1") payee
    with ⟨outcome, purse⟩
  rw [done] at transfer executed
  have approved := approvepending_executes called found unset intime account
    (Or.inr (by rw [onNetwork, submitted]; rfl)) executed
  have ran : step (step s payrequest) approverequest =
      (approvepending approverequest.1 (step s payrequest) 1).2 := by
    have read : words (str "approve 1") = [str "approve", str "1"] := by decide +kernel
    have parsed : pendingid [str "approve", str "1"] (str "approve") = .ok 1 := by decide +kernel
    show (writectl approverequest.1 (step s payrequest) (str "approve 1")).2 = _
    unfold writectl
    simp only [read]
    rw [if_neg (by decide), if_neg (by decide), if_neg (by decide), if_pos trivial,
      parsed]
  rw [approved] at ran
  rcases transfer with stopped | ⟨fits, budget, fee⟩
  · left
    intro spares
    refine spares _ np [1] (by rw [ran]) found (by rw [← added]; rfl) (by rw [← added]; rfl) ?_
    rw [ran, owner]
    exact stopped
  right
  rw [ran]
  refine ⟨fits, ⟨kept.accounts, kept.network, budget, fee⟩, ?_⟩
  rw [submitted]
  show wrap (s.nextpendingid + 1) = wrap 2
  rw [id]
  rfl

theorem wrap_wrap_add (n k : Int) : wrap (wrap n + k) = wrap (n + k) := Int.bmod_add_bmod

theorem spent_replicate (n : Nat) : ∀ {s : State} {tokens fees : Nat} {first : Int}, Inv s →
    Spent s tokens fees → s.nextpendingid = wrap first →
    Inv ((List.replicate n payrequest).foldl step s) ∧
      Spent ((List.replicate n payrequest).foldl step s) tokens fees ∧
      ((List.replicate n payrequest).foldl step s).nextpendingid = wrap (first + n) := by
  induction n with
  | zero =>
    intro s tokens fees first inv spent id
    refine ⟨inv, spent, ?_⟩
    show s.nextpendingid = _
    rw [id]
    simp
  | succ n ih =>
    intro s tokens fees first inv spent id
    obtain ⟨_, _, -, submitted⟩ := step_payrequest inv spent
    have kept : Spent (step s payrequest) tokens fees := by
      rw [submitted]
      exact ⟨spent.accounts, spent.network, spent.budget, spent.feebudget⟩
    have next : (step s payrequest).nextpendingid = wrap (first + 1) := by
      rw [submitted]
      show wrap (s.nextpendingid + 1) = _
      rw [id, wrap_wrap_add]
    have ⟨invAfter, spentAfter, idAfter⟩ := ih (inv_step inv _) kept next
    refine ⟨invAfter, spentAfter, ?_⟩
    show ((List.replicate n payrequest).foldl step (step s payrequest)).nextpendingid = _
    rw [idAfter]
    congr 1
    push_cast
    ring

theorem spent_block (inv : Inv s) (spent : Spent s tokens fees) (id : s.nextpendingid = 1)
    (small : tokens + 1 < 2 ^ 256) (spares : Spares (step s payrequest) approverequest) :
    fees + 100000000000000 < 2 ^ 256 ∧
      Spent (block.foldl step s) (tokens + 1) (fees + 100000000000000) ∧
      (block.foldl step s).nextpendingid = 1 := by
  rcases step_approverequest inv spent id small with stopped | ⟨fits, spentAfter, idAfter⟩
  · exact absurd spares stopped
  have rest : block.foldl step s = (List.replicate 4294967295 payrequest).foldl step
      (step (step s payrequest) approverequest) := by
    rw [block, foldl_cons, foldl_cons]
  obtain ⟨-, spentLast, idLast⟩ := spent_replicate 4294967295
    (inv_step (inv_step inv payrequest) approverequest) spentAfter idAfter
  rw [rest]
  exact ⟨fits, spentLast, by rw [idLast]; decide⟩

theorem transfers_succ (n : Nat) : transfers (n + 1) = transfers n ++ block := by
  unfold transfers
  rw [replicate_succ', flatten_append, flatten_singleton, append_assoc]

theorem transfers_split {j : Nat} (inside : j < n) :
    ∃ back, transfers n = (transfers j ++ [payrequest]) ++ approverequest :: back := by
  obtain ⟨k, rfl⟩ := Nat.exists_eq_add_of_lt inside
  refine ⟨List.replicate 4294967295 payrequest ++ (List.replicate k block).flatten, ?_⟩
  unfold transfers
  rw [Nat.add_assoc, replicate_add, flatten_append, replicate_succ,
    flatten_cons]
  simp only [block, append_assoc, cons_append, nil_append]

theorem spent_transfers : ∀ n : Nat,
    (∀ j < n, Spares (run (transfers j ++ [payrequest])) approverequest) →
    Spent (run (transfers n)) n (n * 100000000000000) ∧ (run (transfers n)).nextpendingid = 1 ∧
      n * 100000000000000 < 2 ^ 256 := by
  intro n
  induction n with
  | zero =>
    intro _
    have budget : getbudget (run setup).purse.books payer.name = some ⟨[], [], [], USDC⟩ := by
      decide +kernel
    have fee : getfeebudget (run setup).purse.books payer.name = some ⟨[], [], []⟩ := by
      decide +kernel
    have accounts : (run setup).accounts = [⟨0, payer⟩] := by decide +kernel
    have empty : transfers 0 = setup := append_nil _
    rw [empty]
    exact ⟨⟨accounts, rfl, ⟨[], budget, rfl⟩, ⟨[], fee, rfl⟩⟩, rfl, by decide⟩
  | succ n ih =>
    intro spares
    have ⟨spent, id, _⟩ := ih fun j inside => spares j (by omega)
    have last := spares n (Nat.lt_succ_self n)
    rw [run_append] at last
    have ⟨fits, spentAfter, idAfter⟩ :=
      spent_block (inv_run _) spent id (by omega) last
    rw [transfers_succ, run_append, Nat.succ_mul]
    exact ⟨spentAfter, idAfter, fits⟩

/-- Without a session limit on fees their sum overflows at last, and the transfer that makes it
overflow stops with its amount reserved. -/
theorem not_spendingLimits_transfers : ¬SpendingLimits (transfers (2 ^ 211)) := by
  rintro ⟨-, spares⟩
  have every : ∀ j < 2 ^ 211, Spares (run (transfers j ++ [payrequest])) approverequest := by
    intro _ inside
    have ⟨back, split⟩ := transfers_split inside
    exact spares _ _ back split
  have overflow := (spent_transfers (2 ^ 211) every).2.2
  norm_num at overflow

theorem feeFits_approverequest : FeeFits (run (setup ++ [payrequest])) approverequest := by
  intro _ _ _ _ _ _ _ _ budget _
  have unspent : ∀ entry ∈ (run (setup ++ [payrequest])).purse.books.feebudgets.entries,
      value entry.2.spent = 0 := by decide +kernel
  rw [unspent _ (Named.get_eq_some_iff.1 budget), Nat.zero_add]
  decide +kernel

theorem spending_limits_setup : SpendingLimits (setup ++ [payrequest, approverequest]) := by
  apply spending_limits
  have quiet : ∀ (s : State) (request : Env × Action), (∀ data, request.2 ≠ .ctl data) →
      FeeFits s request := fun s request other data _ _ command => absurd command (other data)
  intro front _ _ split
  rcases front with _ | ⟨first, _ | ⟨second, _ | ⟨third, _ | ⟨fourth, _ | ⟨fifth, rest⟩⟩⟩⟩⟩
  · cases split
    exact quiet _ _ fun data command => by cases command
  · cases split
    exact quiet _ _ fun data command => by cases command
  · cases split
    exact quiet _ _ fun data command => by cases command
  · cases split
    exact quiet _ _ fun data command => by cases command
  · cases split
    exact feeFits_approverequest
  · have lengths := congrArg List.length split
    simp [setup] at lengths

end Infernode.Wallet9p
