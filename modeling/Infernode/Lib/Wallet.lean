import Infernode.Lib.Ethcrypto
import Infernode.Table.Ledger
import Infernode.Table.Named

/-!
The accounts and budgets of `appl/lib/wallet.b`.

Owns: `Account`, the budgets by account name, `setbudget`, `checkbudget`, `reserve`, and the
same for the fee budgets, with the numbers that a check lets through.
-/

namespace Infernode.Wallet

open Text Bigendian Ethcrypto Ledger

inductive Accttype where
  | eth
  | sol
  | stripe
deriving DecidableEq, Repr

structure Account where
  name : Str
  accttype : Accttype
  address : Str
deriving DecidableEq, Repr

structure Budget where
  maxpertx : Bytes
  maxpersess : Bytes
  spent : Bytes
  currency : Str
deriving DecidableEq, Repr

structure FeeBudget where
  maxpertx : Bytes
  maxpersess : Bytes
  spent : Bytes
deriving DecidableEq, Repr

structure Books where
  budgets : Named Str Budget
  feebudgets : Named Str FeeBudget

def nobooks : Books := ⟨Named.empty, Named.empty⟩

variable (books : Books)

def setbudget (acct : Account) (b : Budget) : Books :=
  { books with budgets := books.budgets.put acct.name b }

def getbudget (name : Str) : Option Budget := books.budgets.get name

def setfeebudget (acct : Account) (b : FeeBudget) : Books :=
  { books with feebudgets := books.feebudgets.put acct.name b }

def getfeebudget (name : Str) : Option FeeBudget := books.feebudgets.get name

/-- The checks of an amount against two limits and the amount spent so far; a limit of zero
is no limit. The last three arguments are the errors. -/
def checklimits (maxpertx maxpersess spent amount : Bytes) (pertx overflow persess : Str) :
    Option Str :=
  if 0 < becmp maxpertx [] ∧ 0 < becmp amount maxpertx then some pertx
  else if 0 < becmp maxpersess [] then
    match beadd spent amount with
    | none => some overflow
    | some total => if 0 < becmp total maxpersess then some persess else none
  else none

def checkbudget (acct : Account) (amount : Option Bytes) : Option Str :=
  match amount with
  | none => some (str "nil amount")
  | some amount =>
    (getbudget books acct.name).bind fun b =>
      checklimits b.maxpertx b.maxpersess b.spent amount
        (str "amount " ++ betodec amount ++ str " exceeds per-tx limit " ++
          betodec b.maxpertx ++ 32 :: b.currency)
        (str "session total would overflow uint256")
        (str "amount " ++ betodec amount ++ str " would exceed session limit " ++
          betodec b.maxpersess ++ 32 :: b.currency ++ str " (spent: " ++ betodec b.spent ++
          str ")")

def reserve (acct : Account) (amount : Option Bytes) : Except Str Books :=
  match checkbudget books acct amount with
  | some err => .error err
  | none =>
    match getbudget books acct.name with
    | none => .ok books
    | some b =>
      match beadd b.spent (amount.getD []) with
      | none => .error (str "session total would overflow uint256")
      | some total =>
        .ok { books with
          budgets := books.budgets.change acct.name fun b => { b with spent := total } }

def checkfee (acct : Account) (amount : Option Bytes) : Option Str :=
  match amount with
  | none => some (str "nil fee")
  | some amount =>
    match getfeebudget books acct.name with
    | none => some (str "no ETH fee budget configured")
    | some b =>
      checklimits b.maxpertx b.maxpersess b.spent amount
        (str "fee " ++ betodec amount ++ str " exceeds per-tx fee limit " ++
          betodec b.maxpertx ++ str " ETH wei")
        (str "fee session total would overflow uint256")
        (str "fee " ++ betodec amount ++ str " would exceed session fee limit " ++
          betodec b.maxpersess ++ str " ETH wei (spent: " ++ betodec b.spent ++ str ")")

def reservefee (acct : Account) (amount : Option Bytes) : Except Str Books :=
  match checkfee books acct amount with
  | some err => .error err
  | none =>
    match getfeebudget books acct.name with
    | none => .ok books
    | some b =>
      match beadd b.spent (amount.getD []) with
      | none => .error (str "fee session total would overflow uint256")
      | some total =>
        .ok { books with
          feebudgets := books.feebudgets.change acct.name fun b => { b with spent := total } }

/-! ### What a check lets through -/

/-- What the two limits and the amount spent so far leave room for. -/
def Room (maxpertx maxpersess spent n : Nat) : Prop :=
  Within maxpertx n ∧ (maxpersess = 0 ∨ spent + n < 2 ^ 256 ∧ spent + n ≤ maxpersess)

theorem Room.session {maxpertx maxpersess spent n : Nat}
    (room : Room maxpertx maxpersess spent n) : Within maxpersess (spent + n) :=
  room.2.imp_right And.right

theorem limit_iff (limit amount : Bytes) :
    ¬(0 < becmp limit [] ∧ 0 < becmp amount limit) ↔ Within (value limit) (value amount) := by
  unfold Within
  rw [becmp_pos_iff, becmp_pos_iff, value_nil]
  omega

theorem checklimits_eq_none_iff {maxpertx maxpersess spent amount : Bytes}
    {pertx overflow persess : Str} :
    checklimits maxpertx maxpersess spent amount pertx overflow persess = none ↔
      Room (value maxpertx) (value maxpersess) (value spent) (value amount) := by
  unfold checklimits Room
  by_cases beyondLimit : 0 < becmp maxpertx [] ∧ 0 < becmp amount maxpertx
  · rw [if_pos beyondLimit]
    have beyond : ¬Within (value maxpertx) (value amount) := fun within =>
      (limit_iff _ _).2 within beyondLimit
    simp [beyond]
  have within := (limit_iff maxpertx amount).1 beyondLimit
  rw [if_neg beyondLimit]
  by_cases limited : 0 < becmp maxpersess []
  · rw [if_pos limited]
    rw [becmp_pos_iff, value_nil] at limited
    rcases added : beadd spent amount with _ | total
    · have overflow := (beadd_eq_none_iff spent amount).1 added
      simp only [reduceCtorEq, false_iff]
      omega
    have sum := beadd_eq_some added
    simp only [becmp_pos_iff, sum.1]
    split
    · simp only [reduceCtorEq, false_iff]
      omega
    · simp only [true_iff]
      exact ⟨within, by omega⟩
  · rw [if_neg limited]
    rw [becmp_pos_iff, value_nil] at limited
    simp only [true_iff]
    exact ⟨within, by omega⟩

variable {acct : Account} {amount : Option Bytes}

theorem checkbudget_eq_none_iff :
    checkbudget books acct amount = none ↔ ∃ n, amount = some n ∧
      ∀ b, getbudget books acct.name = some b →
        Room (value b.maxpertx) (value b.maxpersess) (value b.spent) (value n) := by
  rcases amount with _ | n
  · simp [checkbudget]
  unfold checkbudget
  rcases getbudget books acct.name with _ | b
  · simp
  · simp [checklimits_eq_none_iff]

theorem checkfee_eq_none_iff :
    checkfee books acct amount = none ↔ ∃ n b, amount = some n ∧
      getfeebudget books acct.name = some b ∧
        Room (value b.maxpertx) (value b.maxpersess) (value b.spent) (value n) := by
  rcases amount with _ | n
  · simp [checkfee]
  unfold checkfee
  rcases getfeebudget books acct.name with _ | b
  · simp
  · simp [checklimits_eq_none_iff]

variable {books}

theorem reserve_eq_ok {after : Books} (reserved : reserve books acct amount = .ok after) :
    checkbudget books acct amount = none ∧
    (getbudget books acct.name = none ∧ after = books ∨
      ∃ n b total, amount = some n ∧ getbudget books acct.name = some b ∧
        value total = value b.spent + value n ∧ value b.spent + value n < 2 ^ 256 ∧
        after = { books with
          budgets := books.budgets.change acct.name fun b => { b with spent := total } }) := by
  unfold reserve at reserved
  rcases checked : checkbudget books acct amount with _ | err
  · refine ⟨rfl, ?_⟩
    rw [checked] at reserved
    obtain ⟨n, rfl, _⟩ := (checkbudget_eq_none_iff books).1 checked
    rcases found : getbudget books acct.name with _ | b
    · rw [found] at reserved
      cases reserved
      exact Or.inl ⟨rfl, rfl⟩
    rw [found] at reserved
    simp only [Option.getD_some] at reserved
    rcases added : beadd b.spent n with _ | total
    · rw [added] at reserved
      cases reserved
    rw [added] at reserved
    cases reserved
    have sum := beadd_eq_some added
    exact Or.inr ⟨n, b, total, rfl, rfl, sum.1, sum.2, rfl⟩
  · rw [checked] at reserved
    cases reserved

theorem reservefee_eq_ok {after : Books} (reserved : reservefee books acct amount = .ok after) :
    checkfee books acct amount = none ∧
    ∃ n b total, amount = some n ∧ getfeebudget books acct.name = some b ∧
      value total = value b.spent + value n ∧ value b.spent + value n < 2 ^ 256 ∧
      after = { books with
        feebudgets := books.feebudgets.change acct.name fun b => { b with spent := total } } := by
  unfold reservefee at reserved
  rcases checked : checkfee books acct amount with _ | err
  · refine ⟨rfl, ?_⟩
    rw [checked] at reserved
    obtain ⟨n, b, rfl, found, _⟩ := (checkfee_eq_none_iff books).1 checked
    rw [found] at reserved
    simp only [Option.getD_some] at reserved
    rcases added : beadd b.spent n with _ | total
    · rw [added] at reserved
      cases reserved
    rw [added] at reserved
    cases reserved
    have sum := beadd_eq_some added
    exact ⟨n, b, total, rfl, found, sum.1, sum.2, rfl⟩
  · rw [checked] at reserved
    cases reserved

/-- After a check that let the fee through only a sum of more than 256 bits is refused. -/
theorem reservefee_eq_error_iff {n : Bytes} {b : FeeBudget}
    (checked : checkfee books acct (some n) = none)
    (found : getfeebudget books acct.name = some b) :
    (∃ err, reservefee books acct (some n) = .error err) ↔
      2 ^ 256 ≤ value b.spent + value n := by
  unfold reservefee
  rw [checked, found, ← beadd_eq_none_iff]
  simp only [Option.getD_some]
  rcases beadd b.spent n with _ | total <;> simp

end Infernode.Wallet
