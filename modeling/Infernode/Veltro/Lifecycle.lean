import Infernode.Veltro.Pending

/-!
The life of a proposal in `appl/veltro/wallet9p.b`.

Owns: the requests as steps, what one step does to the records, the invariant of the list,
and that over every run a proposal is executed at most once, in time and on its network, keeps
its result, and is not lost while it is unresolved.
-/

namespace Infernode.Wallet9p

open Text Strings Ethcrypto Wallet Checks Authorize List

/-! ### Requests -/

inductive Action where
  | pay (aid : Nat) (data : Str)
  | authorize (aid : Nat) (data : Str)
  | ctl (data : Str)
  | acctctl (aid : Nat) (data : Str)
  | create (acct : Account)
  | list
  | resolve (result : Str)
deriving DecidableEq, Repr

/-- A request on an account that is not there changes nothing. -/
def onaccount (s : State) (aid : Nat) (change : AcctState → State) : State :=
  match findacctbyid s aid with
  | none => s
  | some as => change as

def step (s : State) (request : Env × Action) : State :=
  match request.2 with
  | .pay aid data => onaccount s aid fun as => (writepay request.1 s as data).2
  | .authorize aid data => onaccount s aid fun as => (writeauthorize request.1 s as data).2
  | .ctl data => (writectl request.1 s data).2
  | .acctctl aid data => onaccount s aid fun as => (writeacctctl s as data).2
  | .create acct => (addaccount s acct).2
  | .list => (readpending request.1.clock s).2
  | .resolve result => (resolvefidresult request.1.clock s result).2

def run (requests : List (Env × Action)) : State := requests.foldl step start

/-! ### Records that only get their results -/

def Settled (before after : List PendingPay) : Prop :=
  after.length = before.length ∧ ∀ (ref : Nat) (pp : PendingPay), before[ref]? = some pp →
    ∃ result, after[ref]? = some { pp with result := result } ∧
      (pp.result ≠ none → result = pp.result)

theorem Settled.refl (heap : List PendingPay) : Settled heap heap :=
  ⟨rfl, fun _ pp found => ⟨pp.result, found, fun _ => rfl⟩⟩

theorem Settled.trans {first second third : List PendingPay} (left : Settled first second)
    (right : Settled second third) : Settled first third := by
  refine ⟨right.1.trans left.1, fun ref pp found => ?_⟩
  have ⟨_, foundMiddle, keptMiddle⟩ := left.2 ref pp found
  have ⟨last, foundLast, keptLast⟩ := right.2 ref _ foundMiddle
  refine ⟨last, foundLast, fun resolved => ?_⟩
  have same := keptMiddle resolved
  rw [← same]
  exact keptLast (by rw [same]; exact resolved)

variable {env : Env} {kind : Kind} {acct amount recipient token data : Str} {as : AcctState}
    {id : Int}

variable {heap after : List PendingPay} {ref : Nat} {pp : PendingPay} {s s' : State} {req : AuthReq}
    {clock : Nat → Int} {e : Execution}

theorem settled_modify {f : PendingPay → PendingPay}
    (settles : ∀ pp, heap[ref]? = some pp → ∃ result, f pp = { pp with result := result } ∧
      (pp.result ≠ none → result = pp.result)) : Settled heap (heap.modify ref f) := by
  refine ⟨length_modify .., fun other pp found => ?_⟩
  rw [getElem?_modify, found]
  by_cases same : ref = other
  · subst same
    have ⟨result, shape, kept⟩ := settles pp found
    exact ⟨result, by simp [shape], kept⟩
  · exact ⟨pp.result, by simp [same], fun _ => rfl⟩

theorem settled_checkpendingexpiry (clock : Nat → Int) (heap : List PendingPay) (ref : Nat) :
    Settled heap (checkpendingexpiry clock heap ref) := by
  refine settled_modify fun pp _ => ?_
  by_cases expires : pp.result.isNone && stale (clock ref) pp
  · refine ⟨some (str "expired"), if_pos expires, fun resolved => ?_⟩
    rw [Bool.and_eq_true, Option.isNone_iff_eq_none] at expires
    exact absurd expires.1 resolved
  · exact ⟨pp.result, if_neg expires, fun _ => rfl⟩

theorem unresolved_iff (found : heap[ref]? = some pp) :
    unresolved heap ref = true ↔ pp.result = none := by
  simp [unresolved, found]

theorem settled_setresult (open_ : unresolved heap ref = true) (result : Str) :
    Settled heap (setresult heap ref result) := by
  refine settled_modify fun pp found => ⟨some result, rfl, fun resolved => ?_⟩
  exact absurd ((unresolved_iff found).1 open_) resolved

theorem settled_foldl (clock : Nat → Int) (refs : List Nat) : ∀ heap : List PendingPay,
    Settled heap (refs.foldl (checkpendingexpiry clock) heap) := by
  induction refs with
  | nil => exact fun heap => Settled.refl heap
  | cons ref _ ih =>
    intro heap
    exact (settled_checkpendingexpiry clock heap ref).trans (ih _)

theorem Settled.unresolved {before : List PendingPay} (settled : Settled before after)
    (inside : ref < before.length) (open_ : unresolved after ref = true) :
    unresolved before ref = true := by
  have found := getElem?_eq_getElem inside
  have ⟨_, foundAfter, kept⟩ := settled.2 ref _ found
  rw [unresolved_iff foundAfter] at open_
  rw [unresolved_iff found]
  by_contra resolved
  exact resolved ((kept resolved).symm.trans open_)

/-! ### The two loops of a submission -/

theorem expireloop_fst (clock : Nat → Int) : ∀ (refs : List Nat) (heap : List PendingPay)
    (live : Nat),
    (expireloop clock refs heap live).1 = refs.foldl (checkpendingexpiry clock) heap := by
  intro refs
  induction refs with
  | nil => exact fun _ _ => rfl
  | cons _ _ ih => exact fun _ _ => ih _ _

theorem getElem?_foldl (clock : Nat → Int) : ∀ (refs : List Nat)
    (heap : List PendingPay), ref ∉ refs →
    (refs.foldl (checkpendingexpiry clock) heap)[ref]? = heap[ref]? := by
  intro refs
  induction refs with
  | nil => exact fun _ _ => rfl
  | cons other _ ih =>
    intro _ absent
    have different : other ≠ ref := fun same => absent (same ▸ mem_cons_self)
    rw [foldl_cons,
      ih _ fun inRest => absent (mem_cons_of_mem _ inRest)]
    simp [checkpendingexpiry, different]

/-- The count is that of the records as they are after the loop. -/
theorem expireloop_snd (clock : Nat → Int) : ∀ (refs : List Nat) (heap : List PendingPay)
    (live : Nat), refs.Nodup → (expireloop clock refs heap live).2 =
      live + refs.countP (unresolved (refs.foldl (checkpendingexpiry clock) heap)) := by
  intro refs
  induction refs with
  | nil => exact fun _ _ _ => rfl
  | cons ref rest ih =>
    intro heap _ nodup
    have ⟨fresh, nodup⟩ := nodup_cons.1 nodup
    have same : unresolved (rest.foldl (checkpendingexpiry clock)
        (checkpendingexpiry clock heap ref)) ref =
        unresolved (checkpendingexpiry clock heap ref) ref := by
      unfold unresolved
      rw [getElem?_foldl clock rest _ fresh]
    rw [expireloop, ih _ _ nodup, foldl_cons, countP_cons, same]
    split <;> omega

theorem keeploop_sublist (heap : List PendingPay) : ∀ (refs : List Nat) (kept : Nat),
    (keeploop heap refs kept).Sublist refs := by
  intro refs
  induction refs with
  | nil => exact fun _ => List.Sublist.slnil
  | cons ref _ ih =>
    intro _
    unfold keeploop
    split
    · exact (ih _).cons_cons ref
    · exact (ih _).cons ref

theorem mem_keeploop (open_ : unresolved heap ref = true) :
    ∀ {refs : List Nat} (kept : Nat), ref ∈ refs → ref ∈ keeploop heap refs kept := by
  intro refs
  induction refs with
  | nil => exact fun _ member => absurd member not_mem_nil
  | cons _ _ ih =>
    intro _ member
    unfold keeploop
    rcases mem_cons.1 member with rfl | inRest
    · rw [open_]
      exact mem_cons_self
    · split
      · exact mem_cons_of_mem _ (ih _ inRest)
      · exact ih _ inRest

theorem countP_keeploop (heap : List PendingPay) : ∀ (refs : List Nat) (kept : Nat),
    (keeploop heap refs kept).countP (unresolved heap) = refs.countP (unresolved heap) := by
  intro refs
  induction refs with
  | nil => exact fun _ => rfl
  | cons ref rest ih =>
    intro kept
    unfold keeploop
    rw [countP_cons]
    split
    · rw [countP_cons, ih]
    rename_i dropped
    rw [ih]
    simp only [Bool.or_eq_true, not_or] at dropped
    simp [dropped.1]

theorem newpending_error {err : Str}
    (refused : newpending env s kind acct amount recipient token = (.error err, s')) :
    ∃ heap, Settled s.heap heap ∧ s' = { s with heap := heap } := by
  unfold newpending at refused
  split at refused
  · cases refused
    exact ⟨s.heap, Settled.refl _, rfl⟩
  simp only [expireloop_fst] at refused
  split at refused
  · cases refused
    exact ⟨_, settled_foldl env.clock _ _, rfl⟩
  · cases refused

theorem newpending_ok (nodup : s.pendingpays.Nodup)
    (taken : newpending env s kind acct amount recipient token = (.ok ref, s')) :
    ∃ heap, Settled s.heap heap ∧ s.pendingpays.countP (unresolved heap) < MAXPENDING ∧
      ref = heap.length ∧ s' = { s with
        heap := heap ++ [record env s kind acct amount recipient token]
        pendingpays := heap.length :: keeploop heap s.pendingpays 0
        nextpendingid := wrap (s.nextpendingid + 1)
        quoted := s.quoted ++ [s.activenetwork] } := by
  unfold newpending at taken
  split at taken
  · cases taken
  simp only [expireloop_fst, expireloop_snd env.clock _ _ _ nodup, Nat.zero_add] at taken
  split at taken
  · cases taken
  · rename_i room
    cases taken
    exact ⟨_, settled_foldl env.clock _ _, Nat.not_le.1 room, rfl, rfl⟩

/-! ### What one step does -/

/-- The proposal that a step adds is unresolved, and names no network but the active one. -/
structure Submission (s s' : State) (np : PendingPay) : Prop where
  fresh : np.result = none
  network : np.network ≠ []
  quote : ∀ n, np.network = caip2 (getnetwork n) → n = s.activenetwork
  records : ∃ heap, Settled s.heap heap ∧ s.pendingpays.countP (unresolved heap) < MAXPENDING ∧
    s'.heap = heap ++ [np] ∧ s'.pendingpays = heap.length :: keeploop heap s.pendingpays 0
  quoted : s'.quoted = s.quoted ++ [s.activenetwork]
  executions : s'.executions = s.executions
  purse : s'.purse = s.purse

/-- The proposal that a step executes is approved by it, unresolved, in time and on its
network. -/
structure Approval (s : State) (request : Env × Action) (s' : State) (e : Execution)
    (pp : PendingPay) : Prop where
  approve : ∃ data, request.2 = .ctl data ∧ (words data).head? = some (str "approve") ∧
    pendingid (words data) (str "approve") = .ok pp.id
  found : s.heap[e.ref]? = some pp
  unresolved : pp.result = none
  time : e.time = request.1.clock e.ref
  inTime : stale e.time pp = false
  active : e.net = s.activenetwork
  network : pp.network = [] ∨ pp.network = caip2 (getnetwork e.net)
  settled : Settled s.heap s'.heap
  resolved : Wallet9p.unresolved s'.heap e.ref = false
  list : s'.pendingpays = s.pendingpays
  quoted : s'.quoted = s.quoted
  executions : s'.executions = e :: s.executions
  executed : ∃ as, findacct s pp.acct = some as ∧
    execute request.1 s as.acct pp = (e.outcome, s'.purse)

def Booked (before after : Purse) : Prop :=
  after = before ∨
    (∃ acct b, b.spent = [] ∧ after = { before with
      books := setbudget before.books acct b
      log := .budget acct.name b :: before.log }) ∨
    ∃ acct b, b.spent = [] ∧ after = { before with
      books := setfeebudget before.books acct b
      log := .feebudget acct.name b :: before.log }

/-- No record is added and none is executed. -/
structure Settling (s s' : State) : Prop where
  settled : Settled s.heap s'.heap
  list : s'.pendingpays = s.pendingpays
  quoted : s'.quoted = s.quoted
  executions : s'.executions = s.executions
  booked : Booked s.purse s'.purse

def Effect (s : State) (request : Env × Action) (s' : State) : Prop :=
  Settling s s' ∨ (∃ np, Submission s s' np) ∨ ∃ e pp, Approval s request s' e pp

theorem Settling.of_heap (settled : Settled s.heap heap) :
    Settling s { s with heap := heap } := ⟨settled, rfl, rfl, rfl, Or.inl rfl⟩

theorem Settling.refl (s : State) : Settling s s := .of_heap (Settled.refl _)

/-- The chain ids of the networks tell them apart. -/
theorem caip2_inj : ∀ n m : Fin 4, caip2 (getnetwork n) = caip2 (getnetwork m) → n = m := by
  decide

theorem networktochainid_caip2 :
    ∀ n : Fin 4, networktochainid (caip2 (getnetwork n)) = (getnetwork n).chainid := by
  decide

theorem chainid_inj :
    ∀ n m : Fin 4, (getnetwork n).chainid = (getnetwork m).chainid → n = m := by
  decide

theorem modify_last {α : Type} (front : List α) (last : α) (f : α → α) :
    (front ++ [last]).modify front.length f = front ++ [f last] := by
  induction front with
  | nil => rfl
  | cons _ _ ih =>
    rw [cons_append, length_cons, modify_succ_cons, ih,
      cons_append]

theorem writepay_effect (nodup : s.pendingpays.Nodup) :
    Settling s (writepay env s as data).2 ∨ ∃ np, Submission s (writepay env s as data).2 np := by
  unfold writepay
  rcases parsepay as.acct data with err | ⟨amount, recipient, token⟩
  · exact Or.inl (Settling.refl s)
  simp only
  rcases validatepay s.purse.books as.acct token amount recipient with _ | err
  · rcases submitted : newpending env s .pay as.acct.name amount recipient token with ⟨result, s'⟩
    simp only
    rcases result with err | ref
    · obtain ⟨heap, settled, rfl⟩ := newpending_error submitted
      exact Or.inl (.of_heap settled)
    obtain ⟨heap, settled, room, rfl, rfl⟩ := newpending_ok nodup submitted
    refine Or.inr ⟨_, ⟨?_, ?_, ?_, ⟨heap, settled, room, modify_last _ _ _, rfl⟩, rfl, rfl, rfl⟩⟩
    · rfl
    · intro empty
      exact absurd empty (by simp [caip2, str])
    · exact fun n same => (caip2_inj s.activenetwork n same).symm
  · exact Or.inl (Settling.refl s)

/-- A request that is taken names the network that is active then, in its own notation. -/
theorem validateauth_network {books : Books} {n : Fin 4} {acct : Account}
    (valid : validateauth books (getnetwork n) acct req = none) :
    networktochainid req.network = (getnetwork n).chainid := by
  unfold validateauth at valid
  split_ifs at valid with _ _ network
  all_goals exact not_not.1 network

theorem parseauthreq_network (parsed : parseauthreq data = .ok req) : req.network ≠ [] := by
  unfold parseauthreq at parsed
  split at parsed
  · cases parsed
  · have ⟨required, same⟩ := passed parsed
    cases same
    exact fun empty => required (Or.inl empty)

theorem writeauthorize_effect (nodup : s.pendingpays.Nodup) :
    Settling s (writeauthorize env s as data).2 ∨
      ∃ np, Submission s (writeauthorize env s as data).2 np := by
  unfold writeauthorize
  rcases parsed : parseauthreq data with err | areq
  · exact Or.inl (Settling.refl s)
  simp only
  rcases valid : validateauth s.purse.books s.net as.acct areq with _ | err
  · rcases submitted : newpending env s .x402 as.acct.name areq.amount areq.payto areq.asset with
      ⟨result, s'⟩
    simp only
    rcases result with err | ref
    · obtain ⟨heap, settled, rfl⟩ := newpending_error submitted
      exact Or.inl (.of_heap settled)
    obtain ⟨heap, settled, room, rfl, rfl⟩ := newpending_ok nodup submitted
    refine Or.inr ⟨_, ⟨?_, ?_, ?_, ⟨heap, settled, room, modify_last _ _ _, rfl⟩, rfl, rfl, rfl⟩⟩
    · rfl
    · exact parseauthreq_network parsed
    intro n same
    have named : networktochainid areq.network = (getnetwork s.activenetwork).chainid :=
      validateauth_network valid
    have quoted : areq.network = caip2 (getnetwork n) := same
    rw [quoted, networktochainid_caip2] at named
    exact chainid_inj _ _ named
  · exact Or.inl (Settling.refl s)

/-- A look at the clock leaves an unresolved record as it is or lets it expire. -/
theorem getElem?_checkpendingexpiry (found : heap[ref]? = some pp) (open_ : pp.result = none) :
    (checkpendingexpiry clock heap ref)[ref]? =
      some (if stale (clock ref) pp then { pp with result := some (str "expired") } else pp) := by
  simp [checkpendingexpiry, found, open_]

theorem resolved_setresult (heap : List PendingPay) (found : heap[ref]? = some pp) (result : Str) :
    unresolved (setresult heap ref result) ref = false := by
  simp [unresolved, setresult, found]

theorem findpending_id (found : findpending s id = some ref) (there : s.heap[ref]? = some pp) :
    pp.id = id := by
  have named := find?_some found
  simpa [there] using named

theorem approvepending_effect (approve : (words data).head? = some (str "approve"))
    (parsed : pendingid (words data) (str "approve") = .ok id) :
    Settling s (approvepending env s id).2 ∨
      ∃ e pp, Approval s (env, .ctl data) (approvepending env s id).2 e pp := by
  unfold approvepending
  rcases called : findpending s id with _ | ref
  · exact Or.inl (Settling.refl s)
  simp only
  by_cases open_ : unresolved s.heap ref
  · rw [open_]
    simp only [Bool.not_true, Bool.false_eq_true, if_false]
    have looked := settled_checkpendingexpiry env.clock s.heap ref
    rcases found : (checkpendingexpiry env.clock s.heap ref)[ref]? with _ | pp
    · exact Or.inl (.of_heap looked)
    simp only
    by_cases expired : pp.result.isSome
    · rw [if_pos expired]
      exact Or.inl (.of_heap looked)
    rw [if_neg expired]
    have still : unresolved (checkpendingexpiry env.clock s.heap ref) ref = true := by
      rw [unresolved_iff found]
      simpa using expired
    rcases owner : findacct { s with heap := checkpendingexpiry env.clock s.heap ref } pp.acct
      with _ | as
    · exact Or.inl (.of_heap looked)
    simp only
    split
    · exact Or.inl (.of_heap (looked.trans (settled_setresult still _)))
    rename_i network
    rw [not_and_or, not_not, not_not] at network
    obtain ⟨before, foundBefore⟩ : ∃ before, s.heap[ref]? = some before := by
      rcases missing : s.heap[ref]? with _ | before
      · simp [checkpendingexpiry, missing] at found
      · exact ⟨before, rfl⟩
    have named : pendingid (words data) (str "approve") = .ok before.id := by
      rw [findpending_id called foundBefore, parsed]
    have unset := (unresolved_iff foundBefore).1 open_
    rw [getElem?_checkpendingexpiry foundBefore unset] at found
    have fresh : stale (env.clock ref) before = false := by
      by_contra late
      rw [Bool.not_eq_false] at late
      rw [if_pos late] at found
      cases found
      exact expired rfl
    rw [if_neg (by simp [fresh]), Option.some.injEq] at found
    subst found
    rcases executed : execute env { s with heap := checkpendingexpiry env.clock s.heap ref }
      as.acct before with ⟨outcome, purse⟩
    refine Or.inr ⟨⟨ref, env.clock ref, s.activenetwork, outcome⟩, before, ?_⟩
    have settled := looked.trans (settled_setresult still (resulttext outcome))
    have resolved : unresolved (setresult (checkpendingexpiry env.clock s.heap ref) ref
        (resulttext outcome)) ref = false := by
      have still : (checkpendingexpiry env.clock s.heap ref)[ref]? = some before := by
        rw [getElem?_checkpendingexpiry foundBefore unset, if_neg (by simp [fresh])]
      exact resolved_setresult _ still _
    rcases outcome with err | res
    · exact ⟨⟨data, rfl, approve, named⟩, foundBefore, unset, rfl, fresh, rfl, network, settled,
        resolved, rfl, rfl, rfl, as, owner, executed⟩
    · exact ⟨⟨data, rfl, approve, named⟩, foundBefore, unset, rfl, fresh, rfl, network, settled,
        resolved, rfl, rfl, rfl, as, owner, executed⟩
  · rw [Bool.not_eq_true] at open_
    rw [open_]
    exact Or.inl (Settling.refl s)


theorem denypending_effect (s : State) (id : Int) : Settling s (denypending s id).2 := by
  unfold denypending
  rcases findpending s id with _ | ref
  · exact Settling.refl s
  simp only
  by_cases open_ : unresolved s.heap ref
  · rw [open_]
    exact .of_heap (settled_setresult open_ _)
  · rw [Bool.not_eq_true] at open_
    rw [open_]
    exact Settling.refl s

/-- The command `approve` is the one that executes. -/
theorem writectl_effect (env : Env) (s : State) (data : Str) :
    Settling s (writectl env s data).2 ∨
      ∃ e pp, Approval s (env, .ctl data) (writectl env s data).2 e pp := by
  unfold writectl
  rcases read : words data with _ | ⟨cmd, args⟩
  · exact Or.inl (Settling.refl s)
  simp only
  split
  · split
    · exact Or.inl (Settling.refl s)
    · exact Or.inl (Settling.refl s)
  split
  · exact Or.inl (Settling.refl s)
  split
  · exact Or.inl ⟨Settled.refl _, rfl, rfl, rfl, Or.inl rfl⟩
  split
  · rename_i approve
    rcases parsed : pendingid (cmd :: args) (str "approve") with err | id
    · exact Or.inl (Settling.refl s)
    · exact approvepending_effect (by rw [read, approve]; rfl) (by rw [read, parsed])
  split
  · rcases pendingid (cmd :: args) (str "deny") with err | id
    · exact Or.inl (Settling.refl s)
    · exact Or.inl (denypending_effect s id)
  · exact Or.inl (Settling.refl s)

theorem writeacctctl_effect (s : State) (as : AcctState) (data : Str) :
    Settling s (writeacctctl s as data).2 := by
  have booked : ∀ purse, Booked s.purse purse → Settling s { s with purse := purse } :=
    fun _ booked => ⟨Settled.refl _, rfl, rfl, rfl, booked⟩
  unfold writeacctctl
  rcases words data with _ | ⟨cmd, args⟩
  · exact Settling.refl s
  simp only
  split
  · rcases dectobe (args.getD 0 []) with _ | maxpertx
    · exact Settling.refl s
    rcases dectobe (args.getD 1 []) with _ | maxpersess
    · exact Settling.refl s
    simp only
    split
    · exact booked _ (Or.inr (Or.inl ⟨as.acct, _, rfl, rfl⟩))
    · exact Settling.refl s
  split
  · rcases dectobe (args.getD 0 []) with _ | maxpertx
    · exact Settling.refl s
    rcases dectobe (args.getD 1 []) with _ | maxpersess
    · exact Settling.refl s
    simp only
    split
    · exact booked _ (Or.inr (Or.inr ⟨as.acct, _, rfl, rfl⟩))
    · exact Settling.refl s
  split
  · split
    · exact Settling.refl s
    · exact Settling.refl s
  · exact Settling.refl s

theorem addaccount_effect (s : State) (acct : Account) : Settling s (addaccount s acct).2 := by
  unfold addaccount
  split
  · exact Settling.refl s
  split
  · exact Settling.refl s
  · exact ⟨Settled.refl _, rfl, rfl, rfl, Or.inl rfl⟩

theorem resolvefidresult_effect (clock : Nat → Int) (s : State) (result : Str) :
    Settling s (resolvefidresult clock s result).2 := by
  unfold resolvefidresult
  split
  · exact Settling.refl s
  split
  · exact Settling.refl s
  split
  · exact Settling.refl s
  split
  · exact Settling.refl s
  simp only
  split
  · exact .of_heap (settled_checkpendingexpiry ..)
  · exact .of_heap (settled_checkpendingexpiry ..)

theorem step_effect (nodup : s.pendingpays.Nodup) (request : Env × Action) :
    Effect s request (step s request) := by
  have ⟨env, action⟩ := request
  cases action with
  | pay aid _ =>
    show Effect s _ (onaccount s aid _)
    unfold onaccount
    rcases findacctbyid s aid with _ | as
    · exact Or.inl (Settling.refl s)
    · exact (writepay_effect nodup).imp_right Or.inl
  | authorize aid _ =>
    show Effect s _ (onaccount s aid _)
    unfold onaccount
    rcases findacctbyid s aid with _ | as
    · exact Or.inl (Settling.refl s)
    · exact (writeauthorize_effect nodup).imp_right Or.inl
  | ctl data => exact (writectl_effect env s data).imp_right Or.inr
  | acctctl aid data =>
    show Effect s _ (onaccount s aid _)
    unfold onaccount
    rcases findacctbyid s aid with _ | as
    · exact Or.inl (Settling.refl s)
    · exact Or.inl (writeacctctl_effect s as data)
  | create acct => exact Or.inl (addaccount_effect s acct)
  | list => exact Or.inl (.of_heap (settled_foldl ..))
  | resolve result => exact Or.inl (resolvefidresult_effect env.clock s result)

/-! ### Requests that go through -/

theorem checkpendingexpiry_fresh (found : heap[ref]? = some pp)
    (fresh : stale (clock ref) pp = false) : checkpendingexpiry clock heap ref = heap := by
  apply ext_getElem?
  intro other
  rw [checkpendingexpiry, getElem?_modify]
  by_cases same : ref = other
  · subst same
    simp [found, fresh]
  · simp [same]

theorem approvepending_executes {outcome : Except Str Str} {purse : Purse}
    (called : findpending s id = some ref) (found : s.heap[ref]? = some pp)
    (open_ : pp.result = none) (fresh : stale (env.clock ref) pp = false)
    (owner : findacct s pp.acct = some as) (network : pp.network = [] ∨ pp.network = caip2 s.net)
    (executed : execute env s as.acct pp = (outcome, purse)) :
    (approvepending env s id).2 = { s with
      purse := purse
      heap := setresult s.heap ref (resulttext outcome)
      executions := ⟨ref, env.clock ref, s.activenetwork, outcome⟩ :: s.executions } := by
  have unset : unresolved s.heap ref = true := (unresolved_iff found).2 open_
  have active : ¬(pp.network ≠ [] ∧ pp.network ≠ caip2 s.net) := by
    rintro ⟨named, other⟩
    exact network.elim named other
  unfold approvepending
  simp only [called, unset, Bool.not_true, Bool.false_eq_true, if_false,
    checkpendingexpiry_fresh found fresh, found, open_, Option.isSome_none, owner, if_neg active,
    executed]
  rcases outcome with err | res
  · rfl
  · rfl

theorem newpending_taken (time : 0 < env.time) (nodup : s.pendingpays.Nodup)
    (room : s.pendingpays.countP
      (unresolved (s.pendingpays.foldl (checkpendingexpiry env.clock) s.heap)) < MAXPENDING) :
    newpending env s kind acct amount recipient token =
      (.ok s.heap.length, { s with
        heap := s.pendingpays.foldl (checkpendingexpiry env.clock) s.heap ++
          [record env s kind acct amount recipient token]
        pendingpays := s.heap.length ::
          keeploop (s.pendingpays.foldl (checkpendingexpiry env.clock) s.heap) s.pendingpays 0
        nextpendingid := wrap (s.nextpendingid + 1)
        quoted := s.quoted ++ [s.activenetwork] }) := by
  unfold newpending
  simp only [expireloop_fst, expireloop_snd env.clock _ _ _ nodup, Nat.zero_add,
    if_neg (Int.not_le.2 time), if_neg (Nat.not_le.2 room),
    (settled_foldl env.clock s.pendingpays s.heap).1]

/-! ### The invariant of the list -/

/-- What every state between requests keeps: the list holds places of records, each once, and
every unresolved record is on it. -/
structure Inv (s : State) : Prop where
  places : ∀ ref ∈ s.pendingpays, ref < s.heap.length
  nodup : s.pendingpays.Nodup
  listed : ∀ ref < s.heap.length, unresolved s.heap ref = true → ref ∈ s.pendingpays
  bound : s.pendingpays.countP (unresolved s.heap) ≤ MAXPENDING
  quotes : s.quoted.length = s.heap.length
  network : ∀ (ref : Nat) (pp : PendingPay), s.heap[ref]? = some pp → pp.network ≠ [] ∧
    ∀ n, pp.network = caip2 (getnetwork n) → s.quoted[ref]? = some n
  executed : ∀ e ∈ s.executions, e.ref < s.heap.length ∧ unresolved s.heap e.ref = false
  once : (s.executions.map Execution.ref).Nodup

theorem inv_start : Inv start where
  places := fun _ member => absurd member not_mem_nil
  nodup := nodup_nil
  listed := fun _ inside => absurd inside (Nat.not_lt_zero _)
  bound := Nat.zero_le _
  quotes := rfl
  network := fun _ _ found => absurd found (by simp [start])
  executed := fun _ member => absurd member not_mem_nil
  once := nodup_nil

theorem Settled.resolved {before : List PendingPay} (settled : Settled before after)
    (inside : ref < before.length) (closed : Wallet9p.unresolved before ref = false) :
    Wallet9p.unresolved after ref = false := by
  by_contra open_
  rw [Bool.not_eq_false] at open_
  rw [settled.unresolved inside open_] at closed
  cases closed

/-- Records that get a result are unresolved no longer, so there are no more of these. -/
theorem Settled.countP_le {before : List PendingPay} (settled : Settled before after)
    {refs : List Nat} (places : ∀ ref ∈ refs, ref < before.length) :
    refs.countP (Wallet9p.unresolved after) ≤ refs.countP (Wallet9p.unresolved before) :=
  countP_mono_left fun ref member open_ => settled.unresolved (places ref member) open_

theorem Settled.before {before : List PendingPay} (settled : Settled before after)
    (found : after[ref]? = some pp) :
    ∃ earlier, before[ref]? = some earlier ∧ pp.network = earlier.network := by
  have inside : ref < before.length := by
    rw [← settled.1]
    exact (List.getElem?_eq_some_iff.1 found).1
  have there := getElem?_eq_getElem inside
  obtain ⟨_, now, -⟩ := settled.2 ref _ there
  rw [found, Option.some.injEq] at now
  exact ⟨_, there, by rw [now]⟩

theorem Inv.of_settled (inv : Inv s) (settled : Settled s.heap s'.heap)
    (list : s'.pendingpays = s.pendingpays) (quoted : s'.quoted = s.quoted)
    (executed : ∀ e ∈ s'.executions, e.ref < s'.heap.length ∧ unresolved s'.heap e.ref = false)
    (once : (s'.executions.map Execution.ref).Nodup) : Inv s' where
  places := by
    rw [list, settled.1]
    exact inv.places
  nodup := by
    rw [list]
    exact inv.nodup
  listed := by
    rw [list, settled.1]
    exact fun ref inside open_ => inv.listed ref inside (settled.unresolved inside open_)
  bound := by
    rw [list]
    exact (settled.countP_le inv.places).trans inv.bound
  quotes := by
    rw [quoted, settled.1]
    exact inv.quotes
  network := by
    intro ref _ found
    have ⟨earlier, there, same⟩ := settled.before found
    rw [quoted, same]
    exact inv.network ref earlier there
  executed := executed
  once := once

theorem Inv.settling (inv : Inv s) (effect : Settling s s') : Inv s' := by
  apply inv.of_settled effect.settled effect.list effect.quoted
  · rw [effect.executions]
    intro e member
    have ⟨inside, closed⟩ := inv.executed e member
    exact ⟨by rwa [effect.settled.1], effect.settled.resolved inside closed⟩
  · rw [effect.executions]
    exact inv.once

variable {request : Env × Action}

theorem Inv.approval (inv : Inv s) (effect : Approval s request s' e pp) : Inv s' := by
  have inside : e.ref < s.heap.length := (List.getElem?_eq_some_iff.1 effect.found).1
  have open_ := (unresolved_iff effect.found).2 effect.unresolved
  apply inv.of_settled effect.settled effect.list effect.quoted
  · rw [effect.executions]
    intro other member
    rcases mem_cons.1 member with rfl | earlier
    · exact ⟨by rwa [effect.settled.1], effect.resolved⟩
    · have ⟨inside, closed⟩ := inv.executed other earlier
      exact ⟨by rwa [effect.settled.1], effect.settled.resolved inside closed⟩
  · rw [effect.executions, map_cons, nodup_cons]
    refine ⟨fun again => ?_, inv.once⟩
    have ⟨other, member, same⟩ := mem_map.1 again
    have closed := (inv.executed other member).2
    rw [same, open_] at closed
    cases closed

/-- The records before a new one are unresolved as they were. -/
theorem unresolved_append (np : PendingPay) (inside : ref < heap.length) :
    unresolved (heap ++ [np]) ref = unresolved heap ref := by
  unfold unresolved
  rw [getElem?_append_left inside]

theorem Inv.submission {np : PendingPay} (inv : Inv s) (effect : Submission s s' np) : Inv s' := by
  have ⟨heap, settled, room, records, list⟩ := effect.records
  have kept := keeploop_sublist heap s.pendingpays 0
  have earlier : ∀ ref ∈ keeploop heap s.pendingpays 0, ref < heap.length := by
    intro ref member
    rw [settled.1]
    exact inv.places ref (kept.subset member)
  have counted : (keeploop heap s.pendingpays 0).countP (unresolved (heap ++ [np])) =
      s.pendingpays.countP (unresolved heap) := by
    rw [← countP_keeploop heap s.pendingpays 0]
    apply countP_congr
    intro ref member
    rw [unresolved_append np (earlier ref member)]
  exact {
    places := by
      rw [list, records]
      intro ref member
      rw [length_append, length_singleton]
      rcases mem_cons.1 member with rfl | old
      · exact Nat.lt_succ_self _
      · exact (earlier ref old).trans (Nat.lt_succ_self _)
    nodup := by
      rw [list, nodup_cons]
      exact ⟨fun member => absurd (earlier _ member) (Nat.lt_irrefl _), inv.nodup.sublist kept⟩
    listed := by
      rw [list, records]
      intro ref inside open_
      rw [length_append, length_singleton] at inside
      rcases Nat.lt_succ_iff_lt_or_eq.1 inside with old | rfl
      · rw [unresolved_append np old] at open_
        apply mem_cons_of_mem
        apply mem_keeploop open_
        rw [settled.1] at old
        exact inv.listed ref old (settled.unresolved old open_)
      · exact mem_cons_self
    bound := by
      rw [list, records, countP_cons, counted]
      split
      · exact room
      · exact room.le
    quotes := by
      rw [effect.quoted, records, length_append, length_append, inv.quotes, settled.1]
      rfl
    network := by
      rw [effect.quoted, records]
      intro ref pp found
      rcases Nat.lt_or_ge ref heap.length with old | new
      · rw [getElem?_append_left old] at found
        have ⟨earlier, there, same⟩ := settled.before found
        rw [same, getElem?_append_left (by rw [inv.quotes, ← settled.1]; exact old)]
        exact inv.network ref earlier there
      rw [getElem?_append_right new, getElem?_singleton] at found
      split at found
      · rename_i last
        cases found
        have place : ref = s.quoted.length := by
          rw [inv.quotes, ← settled.1]
          omega
        refine ⟨effect.network, fun n named => ?_⟩
        rw [effect.quote n named, place, getElem?_concat_length]
      · cases found
    executed := by
      rw [effect.executions, records]
      intro e member
      have ⟨inside, closed⟩ := inv.executed e member
      have old : e.ref < heap.length := by rwa [settled.1]
      refine ⟨?_, ?_⟩
      · rw [length_append, length_singleton]
        exact old.trans (Nat.lt_succ_self _)
      · rw [unresolved_append np old]
        exact settled.resolved inside closed
    once := by
      rw [effect.executions]
      exact inv.once }

theorem inv_step (inv : Inv s) (request : Env × Action) : Inv (step s request) := by
  rcases step_effect inv.nodup request with effect | ⟨np, effect⟩ | ⟨e, pp, effect⟩
  · exact inv.settling effect
  · exact inv.submission effect
  · exact inv.approval effect

theorem inv_run (requests : List (Env × Action)) : Inv (run requests) := by
  induction requests using List.reverseRecOn with
  | nil => exact inv_start
  | append_singleton _ last ih =>
    rw [run, foldl_append]
    exact inv_step ih last

/-! ### Every run -/

/-- What a proposal resulted in, once it did. -/
def State.result (s : State) (ref : Nat) : Option Str := s.heap[ref]?.bind PendingPay.result

def State.unresolvedcount (s : State) : Nat :=
  (List.range s.heap.length).countP (unresolved s.heap)

/-- The request is an approval of the proposal, which is unresolved and not expired, and the
network is the one that it was quoted on. -/
structure Approves (s : State) (request : Env × Action) (e : Execution) (pp : PendingPay) :
    Prop where
  command : ∃ data, request.2 = .ctl data ∧ (words data).head? = some (str "approve") ∧
    pendingid (words data) (str "approve") = .ok pp.id
  found : s.heap[e.ref]? = some pp
  unresolved : pp.result = none
  unexpired : 0 < request.1.clock e.ref ∧ 0 < pp.created ∧
    request.1.clock e.ref ≤ pp.created + PENDTTL
  quoted : s.quoted[e.ref]? = some s.activenetwork
  net : e.net = s.activenetwork

theorem stale_eq_false {t : Int} (fresh : stale t pp = false) :
    0 < t ∧ 0 < pp.created ∧ t ≤ pp.created + PENDTTL := by
  simp only [stale, Bool.or_eq_false_iff, decide_eq_false_iff_not, not_le, not_lt] at fresh
  exact ⟨fresh.1.1, fresh.1.2, fresh.2⟩

theorem Approval.approves (inv : Inv s) (effect : Approval s request s' e pp) :
    Approves s request e pp where
  command := effect.approve
  found := effect.found
  unresolved := effect.unresolved
  unexpired := by
    have fresh := stale_eq_false effect.inTime
    rwa [effect.time] at fresh
  quoted := by
    have ⟨named, quotedOn⟩ := inv.network e.ref pp effect.found
    rcases effect.network with missing | active
    · exact absurd missing named
    · rw [quotedOn e.net active, effect.active]
  net := effect.active

theorem Settled.result (settled : Settled s.heap s'.heap) {result : Str}
    (resolved : s.result ref = some result) : s'.result ref = some result := by
  have ⟨pp, found, held⟩ := Option.bind_eq_some_iff.1 resolved
  have ⟨later, now, kept⟩ := settled.2 ref pp found
  rw [State.result, now]
  show later = some result
  rw [kept (by rw [held]; exact Option.some_ne_none _), held]

theorem result_step (inv : Inv s) (request : Env × Action) {result : Str}
    (resolved : s.result ref = some result) : (step s request).result ref = some result := by
  rcases step_effect inv.nodup request with effect | ⟨np, effect⟩ | ⟨e, pp, effect⟩
  · exact effect.settled.result resolved
  · obtain ⟨heap, settled, -, records, -⟩ := effect.records
    have kept : State.result { s with heap := heap } ref = some result := settled.result resolved
    have ⟨_, found, _⟩ := Option.bind_eq_some_iff.1 kept
    rw [State.result, records, getElem?_append_left (List.getElem?_eq_some_iff.1 found).1]
    exact kept
  · exact effect.settled.result resolved

theorem run_append (front later : List (Env × Action)) :
    run (front ++ later) = later.foldl step (run front) := foldl_append

theorem result_run {front : List (Env × Action)} {result : Str}
    (resolved : (run front).result ref = some result) (later : List (Env × Action)) :
    (run (front ++ later)).result ref = some result := by
  induction later using List.reverseRecOn with
  | nil => rwa [append_nil]
  | append_singleton _ last ih =>
    rw [← append_assoc, run_append]
    exact result_step (inv_run _) last ih

theorem Inv.unresolvedcount_le (inv : Inv s) : s.unresolvedcount ≤ MAXPENDING := by
  calc s.unresolvedcount = ((List.range s.heap.length).filter (unresolved s.heap)).length := by
        rw [State.unresolvedcount, countP_eq_length_filter]
    _ ≤ (s.pendingpays.filter (unresolved s.heap)).length := by
        apply List.Subperm.length_le
        apply subperm_of_subset (nodup_range.filter _)
        intro ref member
        rw [mem_filter, mem_range] at member
        exact mem_filter.2 ⟨inv.listed ref member.1 member.2, member.2⟩
    _ ≤ MAXPENDING := by
        rw [← countP_eq_length_filter]
        exact inv.bound

/-- In every run each proposal is executed at most once, by an approval of it while it is
unresolved and in time and while the network is the one of its quote; results stay; unresolved
proposals stay on the list, and there are at most `MAXPENDING` of them. -/
theorem pending_lifecycle (requests : List (Env × Action)) :
    ((run requests).executions.map Execution.ref).Nodup ∧
      (∀ ref < (run requests).heap.length,
        unresolved (run requests).heap ref = true → ref ∈ (run requests).pendingpays) ∧
      (run requests).unresolvedcount ≤ MAXPENDING ∧
      (∀ ref result later, (run requests).result ref = some result →
        (run (requests ++ later)).result ref = some result) ∧
      ∀ request, (run (requests ++ [request])).executions = (run requests).executions ∨
        ∃ e pp, (run (requests ++ [request])).executions = e :: (run requests).executions ∧
          Approves (run requests) request e pp := by
  have inv := inv_run requests
  refine ⟨inv.once, inv.listed, inv.unresolvedcount_le,
    fun _ _ later resolved => result_run resolved later, fun request => ?_⟩
  rw [run_append]
  show (step (run requests) request).executions = _ ∨ _
  rcases step_effect inv.nodup request with effect | ⟨np, effect⟩ | ⟨e, pp, effect⟩
  · exact Or.inl effect.executions
  · exact Or.inl effect.executions
  · exact Or.inr ⟨e, pp, effect.executions, effect.approves inv⟩
end Infernode.Wallet9p
