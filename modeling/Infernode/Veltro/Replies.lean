import Infernode.Veltro.Draft

/-!
Which replies are sent.

Owns: the runs of the drafts, the step that each entry of the history comes from, what the
`pending` file shows, and for which runs every reply is caused by an approval of its draft.
-/

namespace Infernode.Msg9p

open Text Strings List

/-! ### Runs -/

def after (actions : List Act) : State := actions.foldl step State.initial

@[simp] theorem after_nil : after [] = State.initial := rfl

theorem after_concat (actions : List Act) (action : Act) :
    after (actions ++ [action]) = step (after actions) action := by
  unfold after
  rw [foldl_append, foldl_cons, foldl_nil]

def consume : Bool → List Nat → Act
  | true => .approve
  | false => .deny

def verbof : Bool → Str
  | true => str "approve"
  | false => str "deny"

/-- A write of the run, by which the draft is taken. -/
def Consumed (actions : List Act) (approved : Bool) (ticket : Nat) (ps : PendingSend) : Prop :=
  ∃ front data back, actions = front ++ consume approved data :: back ∧ front.length = ticket ∧
    ps ∈ (after front).pendingSends ∧ approvalid (written data) (verbof approved) = .ok ps.id

def Named (actions : List Act) (approved : Bool) (ticket : Nat) (ps : PendingSend) : Prop :=
  ∃ front data back, actions = front ++ consume approved data :: back ∧ front.length = ticket ∧
    ps ∈ (after front).pendingSends ∧ approvalid (written data) (verbof approved) = .ok ps.id ∧
    named (written data) (verbof approved) = ps.id

/-- A write of the run, by which the draft got its identifier. -/
def Accepted (actions : List Act) (ps : PendingSend) : Prop :=
  ∃ front data back, actions = front ++ .draft data :: back ∧ written data = ps.data ∧
    (act (after front) (.draft data)).2 = none ∧ (after front).nextSendID = ps.id

section Runs

variable {actions : List Act} {action : Act} {approved : Bool} {ticket : Nat} {ps : PendingSend}
  {data : List Nat} {s : State}

theorem Consumed.concat (consumed : Consumed actions approved ticket ps) (action : Act) :
    Consumed (actions ++ [action]) approved ticket ps := by
  obtain ⟨front, data, back, rfl, length, pending, read⟩ := consumed
  exact ⟨front, data, back ++ [action], by simp, length, pending, read⟩

theorem consumed_last (pending : ps ∈ (after actions).pendingSends)
    (read : approvalid (written data) (verbof approved) = .ok ps.id) :
    Consumed (actions ++ [consume approved data]) approved actions.length ps :=
  ⟨actions, data, [], rfl, rfl, pending, read⟩

theorem Consumed.lt (consumed : Consumed actions approved ticket ps) : ticket < actions.length := by
  obtain ⟨_, _, _, rfl, rfl, -, -⟩ := consumed
  rw [length_append, length_cons]
  omega

/-- The last write takes the draft, or an earlier one. -/
theorem Consumed.cases_concat (consumed : Consumed (actions ++ [action]) approved ticket ps) :
    Consumed actions approved ticket ps ∨ (ticket = actions.length ∧
      ps ∈ (after actions).pendingSends ∧ ∃ data, action = consume approved data ∧
        approvalid (written data) (verbof approved) = .ok ps.id) := by
  have ⟨front, data, back, split, length, pending, read⟩ := consumed
  rcases eq_nil_or_concat back with rfl | ⟨back, last, rfl⟩
  · have ⟨same, is⟩ := append_inj' split rfl
    subst same
    exact Or.inr ⟨length.symm, pending, data, singleton_inj.1 is, read⟩
  · rw [concat_eq_append, ← cons_append, ← append_assoc] at split
    exact Or.inl ⟨front, data, back, (append_inj' split rfl).1, length, pending, read⟩

theorem Accepted.concat (accepted : Accepted actions ps) (action : Act) :
    Accepted (actions ++ [action]) ps := by
  obtain ⟨front, data, back, rfl, text, answer, id⟩ := accepted
  exact ⟨front, data, back ++ [action], by simp, text, answer, id⟩

/-! ### The history -/

/-- Each entry of the history comes from a step of the run. -/
structure Recorded (actions : List Act) : Prop where
  lawful : Lawful (after actions)
  clock : (after actions).clock = actions.length
  accepted : ∀ ps ∈ (after actions).drafts, Accepted actions ps
  taken : ∀ x ∈ (after actions).taken, Consumed actions x.approved x.ticket x.ps
  spawned : ∀ proc ∈ (after actions).spawned, Consumed actions true proc.ticket proc.ps
  called : ∀ call ∈ (after actions).calls, ∃ ps,
    parsed ps.data = (call.src.name, call.origid, call.body) ∧
      Consumed actions true call.ticket ps
  tickets : ((after actions).spawned.map Spawned.ticket ++
    (after actions).calls.map Call.ticket).Nodup

theorem recorded_nil : Recorded [] where
  lawful := lawful_initial
  clock := rfl
  accepted := nofun
  taken := nofun
  spawned := nofun
  called := nofun
  tickets := nodup_nil

structure Adds (actions : List Act) (action : Act) (s t : State) : Prop where
  lawful : Lawful t
  accepted : ∀ ps ∈ t.drafts, ps ∈ s.drafts ∨ Accepted (actions ++ [action]) ps
  taken : ∀ x ∈ t.taken, x ∈ s.taken ∨ Consumed (actions ++ [action]) x.approved x.ticket x.ps
  spawned : ∀ proc ∈ t.spawned, proc ∈ s.spawned ∨
    Consumed (actions ++ [action]) true proc.ticket proc.ps
  called : ∀ call ∈ t.calls, call ∈ s.calls ∨ ∃ proc ∈ s.spawned, Calls proc call
  tickets : (t.spawned.map Spawned.ticket ++ t.calls.map Call.ticket).Nodup

theorem Recorded.adds (recorded : Recorded actions)
    (adds : Adds actions action (after actions) (act (after actions) action).1) :
    Recorded (actions ++ [action]) where
  lawful := by
    rw [after_concat]
    exact adds.lawful.same rfl rfl (List.Perm.refl _) rfl
  clock := by
    rw [after_concat, length_append, length_singleton, ← recorded.clock]
    rfl
  accepted := by
    intro ps member
    rw [after_concat] at member
    rcases adds.accepted ps member with old | new
    · exact (recorded.accepted ps old).concat action
    · exact new
  taken := by
    intro x member
    rw [after_concat] at member
    rcases adds.taken x member with old | new
    · exact (recorded.taken x old).concat action
    · exact new
  spawned := by
    intro proc member
    rw [after_concat] at member
    rcases adds.spawned proc member with old | new
    · exact (recorded.spawned proc old).concat action
    · exact new
  called := by
    intro call member
    rw [after_concat] at member
    rcases adds.called call member with old | ⟨proc, spawned, calls⟩
    · have ⟨ps, carries, consumed⟩ := recorded.called call old
      exact ⟨ps, carries, consumed.concat action⟩
    · refine ⟨proc.ps, calls.carries, ?_⟩
      rw [calls.ticket]
      exact (recorded.spawned proc spawned).concat action
  tickets := by
    rw [after_concat]
    exact adds.tickets

theorem Recorded.ticket_lt (recorded : Recorded actions) {n : Nat}
    (member : n ∈ (after actions).spawned.map Spawned.ticket ++
      (after actions).calls.map Call.ticket) : n < actions.length := by
  rcases mem_append.1 member with spawned | called
  · obtain ⟨proc, inSpawned, rfl⟩ := mem_map.1 spawned
    exact (recorded.spawned proc inSpawned).lt
  · obtain ⟨call, inCalls, rfl⟩ := mem_map.1 called
    obtain ⟨_, -, consumed⟩ := recorded.called call inCalls
    exact consumed.lt

variable {spawned : List Spawned} {calls : List Call} {proc : Spawned} {k : Nat}

theorem tickets_spawn (tickets : (spawned.map Spawned.ticket ++ calls.map Call.ticket).Nodup)
    (new : proc.ticket ∉ spawned.map Spawned.ticket ++ calls.map Call.ticket) :
    ((spawned ++ [proc]).map Spawned.ticket ++ calls.map Call.ticket).Nodup := by
  rw [map_append, map_singleton]
  have order : (spawned.map Spawned.ticket ++ [proc.ticket] ++ calls.map Call.ticket).Perm
      (proc.ticket :: (spawned.map Spawned.ticket ++ calls.map Call.ticket)) :=
    (perm_append_singleton _ _).append_right _
  exact order.nodup_iff.2 (nodup_cons.2 ⟨new, tickets⟩)

theorem perm_eraseIdx {α : Type} {l : List α} {a : α} (is : l[k]? = some a) :
    l.Perm (a :: l.eraseIdx k) := by
  obtain ⟨inside, rfl⟩ := List.getElem?_eq_some_iff.1 is
  exact (getElem_cons_eraseIdx_perm inside).symm

theorem tickets_call {call : Call}
    (tickets : (spawned.map Spawned.ticket ++ calls.map Call.ticket).Nodup)
    (is : spawned[k]? = some proc) (ticket : call.ticket = proc.ticket) :
    ((spawned.eraseIdx k).map Spawned.ticket ++ (calls ++ [call]).map Call.ticket).Nodup := by
  have order := ((perm_eraseIdx is).map Spawned.ticket).append_right (calls.map Call.ticket)
  have kept := order.nodup_iff.1 tickets
  rw [map_append, map_singleton, ticket, ← append_assoc]
  exact (perm_append_singleton _ _).nodup_iff.2 kept

theorem Recorded.adds_of_kind (recorded : Recorded actions)
    (kind : Kind (after actions) action (act (after actions) action).1) :
    Adds actions action (after actions) (act (after actions) action).1 := by
  have lawful := recorded.lawful
  cases kind with
  | idle idle =>
    have ⟨_, kept, after, perm⟩ := idle
    rw [after]
    exact ⟨lawful.same rfl rfl perm rfl, fun _ => Or.inl, fun _ => Or.inl, fun _ => Or.inl,
      fun _ => Or.inl, recorded.tickets⟩
  | accepts data _ is text queued accepts =>
    subst is
    have answer : (act (Msg9p.after actions) (.draft data)).2 = none := by
      show (answered _ (queuedraft _ (written data))).2 = none
      rw [queued]
      rfl
    rw [accepts.after]
    refine ⟨lawful.adds accepts.id accepts.room accepts.wellformed rfl rfl rfl rfl, ?_,
      fun _ => Or.inl, fun _ => Or.inl, fun _ => Or.inl, recorded.tickets⟩
    intro other member
    rcases mem_append.1 member with old | new
    · exact Or.inl old
    · rw [mem_singleton.1 new]
      exact Or.inr ⟨actions, data, [], rfl, text, answer, accepts.id.symm⟩
  | approves data x _ is takes after =>
    subst is
    have consumed : Consumed (actions ++ [consume true data]) true actions.length x.ps :=
      consumed_last (takes.pending.mem_iff.2 (mem_cons_self ..)) takes.read
    rw [after]
    refine ⟨lawful.takes takes.pending (stuck_of_approvalid takes.read) rfl rfl rfl rfl,
      fun _ => Or.inl, ?_, ?_, fun _ => Or.inl, ?_⟩
    · intro y member
      rcases mem_append.1 member with old | new
      · exact Or.inl old
      · rw [mem_singleton.1 new, takes.ticket, takes.verdict, recorded.clock]
        exact Or.inr consumed
    · intro proc member
      rcases mem_append.1 member with old | new
      · exact Or.inl old
      · rw [mem_singleton.1 new, recorded.clock]
        exact Or.inr consumed
    apply tickets_spawn recorded.tickets
    intro member
    have earlier := recorded.ticket_lt member
    rw [recorded.clock] at earlier
    exact absurd earlier (Nat.lt_irrefl _)
  | denies data x _ is takes after =>
    subst is
    have consumed : Consumed (actions ++ [consume false data]) false actions.length x.ps :=
      consumed_last (takes.pending.mem_iff.2 (mem_cons_self ..)) takes.read
    rw [after]
    refine ⟨lawful.takes takes.pending (stuck_of_approvalid takes.read) rfl rfl rfl rfl,
      fun _ => Or.inl, ?_, fun _ => Or.inl, fun _ => Or.inl, recorded.tickets⟩
    intro _ member
    rcases mem_append.1 member with old | new
    · exact Or.inl old
    · rw [mem_singleton.1 new, takes.ticket, takes.verdict, recorded.clock]
      exact Or.inr consumed
  | sends _ proc _ is calls after =>
    rw [after]
    refine ⟨lawful.same rfl rfl (List.Perm.refl _) rfl, fun _ => Or.inl, fun _ => Or.inl,
      fun _ member => Or.inl (mem_of_mem_eraseIdx member), ?_,
      tickets_call recorded.tickets is calls.ticket⟩
    intro _ member
    rcases mem_append.1 member with old | new
    · exact Or.inl old
    · rw [mem_singleton.1 new]
      exact Or.inr ⟨proc, mem_of_getElem? is, calls⟩
  | fails k after =>
    rw [after]
    refine ⟨lawful.same rfl rfl (List.Perm.refl _) rfl, fun _ => Or.inl, fun _ => Or.inl,
      fun _ member => Or.inl (mem_of_mem_eraseIdx member), fun _ => Or.inl, ?_⟩
    exact recorded.tickets.sublist
      (((eraseIdx_sublist _ k).map Spawned.ticket).append_right _)

theorem recorded (actions : List Act) : Recorded actions := by
  induction actions using List.reverseRecOn with
  | nil => exact recorded_nil
  | append_singleton _ _ ih =>
    exact ih.adds (ih.adds_of_kind (kind_act _ _))

/-! ### The drafts that were taken -/

theorem Lawful.eq_of_id {other : PendingSend} (lawful : Lawful s)
    (member : ps ∈ s.drafts) (member' : other ∈ s.drafts) (same : other.id = ps.id) :
    other = ps :=
  inj_on_of_nodup_map lawful.nodup member' member same

theorem Lawful.find (lawful : Lawful s) (pending : ps ∈ s.pendingSends) :
    (s.pendingSends.find? fun other => decide (other.id = ps.id)) = some ps := by
  cases found : s.pendingSends.find? fun other => decide (other.id = ps.id) with
  | none => exact absurd (decide_eq_true rfl) (find?_eq_none.1 found ps pending)
  | some _ =>
    have same := find?_some found
    rw [lawful.eq_of_id (lawful.mem_drafts pending)
      (lawful.mem_drafts (mem_of_find?_eq_some found)) (of_decide_eq_true same)]

theorem Lawful.nodup_placed (lawful : Lawful s) :
    (s.pendingSends ++ s.taken.map Taken.ps).Nodup :=
  lawful.placed.nodup_iff.1 lawful.nodup.of_map

/-- A write that takes a draft takes the one that it reads. -/
theorem taken_of_read (lawful : Lawful s) (pending : ps ∈ s.pendingSends)
    (read : approvalid (written data) (verbof approved) = .ok ps.id) :
    ∃ n, (act s (consume approved data)).1.taken = s.taken ++ [⟨s.clock, ps, n, approved⟩] := by
  have took : ∃ n t, takedraft s (written data) (verbof approved) approved = (t, .ok ps) ∧
      t.taken = s.taken ++ [⟨s.clock, ps, n, approved⟩] := by
    unfold takedraft takepending
    rw [read]
    simp only [lawful.find pending]
    exact ⟨_, _, rfl, rfl⟩
  have ⟨n, _, took, taken⟩ := took
  refine ⟨n, ?_⟩
  cases approved with
  | true =>
    show (approve s (written data)).1.taken = _
    unfold approve
    rw [show takedraft s (written data) (str "approve") true = _ from took]
    exact taken
  | false =>
    show (deny s (written data)).1.taken = _
    unfold deny
    rw [show takedraft s (written data) (str "deny") false = _ from took]
    exact taken

theorem taken_concat (actions : List Act) (action : Act) :
    (after actions).taken ⊆ (after (actions ++ [action])).taken := by
  rw [after_concat]
  show _ ⊆ (act (after actions) action).1.taken
  cases kind_act (after actions) action with
  | idle idle =>
    obtain ⟨_, kept, after, -⟩ := idle
    rw [after]
    exact fun _ => id
  | accepts _ _ _ _ _ accepts =>
    rw [accepts.after]
    exact fun _ => id
  | approves _ _ _ _ _ after =>
    rw [after]
    exact subset_append_left ..
  | denies _ _ _ _ _ after =>
    rw [after]
    exact subset_append_left ..
  | sends _ _ _ _ _ after =>
    rw [after]
    exact fun _ => id
  | fails _ after =>
    rw [after]
    exact fun _ => id

theorem Consumed.taken (consumed : Consumed actions approved ticket ps) :
    ∃ n, ⟨ticket, ps, n, approved⟩ ∈ (after actions).taken := by
  induction actions using List.reverseRecOn with
  | nil => exact absurd consumed.lt (Nat.not_lt_zero _)
  | append_singleton actions action ih =>
    rcases consumed.cases_concat with old | ⟨rfl, pending, data, rfl, read⟩
    · have ⟨n, member⟩ := ih old
      exact ⟨n, taken_concat actions action member⟩
    have ⟨n, taken⟩ := taken_of_read (recorded actions).lawful pending read
    refine ⟨n, ?_⟩
    rw [after_concat]
    show _ ∈ (act _ _).1.taken
    rw [taken, (recorded actions).clock]
    exact mem_append_right _ (mem_singleton_self _)

theorem Consumed.mem_taken (consumed : Consumed actions approved ticket ps) :
    ps ∈ (after actions).taken.map Taken.ps := by
  have ⟨_, member⟩ := consumed.taken
  exact mem_map.2 ⟨_, member, rfl⟩

theorem Consumed.mem_drafts (consumed : Consumed actions approved ticket ps) :
    ps ∈ (after actions).drafts :=
  (recorded actions).lawful.placed.mem_iff.2 (mem_append_right _ consumed.mem_taken)

theorem Consumed.not_pending (consumed : Consumed actions approved ticket ps) :
    ps ∉ (after actions).pendingSends := fun pending =>
  (disjoint_of_nodup_append (recorded actions).lawful.nodup_placed) pending
    consumed.mem_taken

/-- A draft is taken by one write of the run. -/
theorem Consumed.unique {approved' : Bool} {ticket' : Nat}
    (consumed : Consumed actions approved ticket ps)
    (consumed' : Consumed actions approved' ticket' ps) :
    approved' = approved ∧ ticket' = ticket := by
  have ⟨_, member⟩ := consumed.taken
  have ⟨_, member'⟩ := consumed'.taken
  have one := (nodup_append.1 (recorded actions).lawful.nodup_placed).2.1
  have same := inj_on_of_nodup_map one member' member rfl
  exact ⟨congrArg Taken.approved same, congrArg Taken.ticket same⟩

/-! ### The number of a write -/

theorem Named.consumed (is : Named actions approved ticket ps) :
    Consumed actions approved ticket ps := by
  obtain ⟨front, data, back, split, length, pending, read, -⟩ := is
  exact ⟨front, data, back, split, length, pending, read⟩

theorem wrap_named {text verb : Str} {id : Int} (read : approvalid text verb = .ok id) :
    wrap (named text verb) = id := by
  unfold approvalid at read
  unfold named
  cases is : approvalword text verb with
  | error e =>
    rw [is] at read
    cases read
  | ok word =>
    rw [is] at read
    have rest : (if (toint word).1 ≤ 0 ∨ (toint word).2 ≠ [] then
      (.error (verb ++ str ": invalid id") : Except Str Int) else pure (toint word).1) =
        .ok id := read
    split at rest
    · cases rest
    rename_i positive
    cases rest
    have some : (toint word).1 ≠ 0 := fun none => (not_or.1 positive).1 (none ▸ Int.le_refl _)
    exact (toint_wrap some).symm

def Fits (s : State) (text verb : Str) : Prop :=
  InWord (named text verb) ∨ ∀ ps ∈ s.pendingSends, ps.id ≠ wrap (named text verb)

/-- Every write of a run that takes a draft names it. -/
theorem Consumed.named (consumed : Consumed actions approved ticket ps)
    (fits : ∀ front data back, actions = front ++ consume approved data :: back →
      Fits (after front) (written data) (verbof approved)) :
    Named actions approved ticket ps := by
  have ⟨front, data, back, split, length, pending, read⟩ := consumed
  refine ⟨front, data, back, split, length, pending, read, ?_⟩
  have wrapped := wrap_named read
  rcases fits front data back split with inWord | none
  · rw [← wrapped, wrap_of_inWord inWord]
  · exact absurd wrapped.symm (none ps pending)

/-! ### What the pending file shows -/

/-- The characters that end a word of a line. -/
def isBreak (c : Nat) : Bool := c == 32 || c == 10

def shown (ps : PendingSend) : List Str :=
  [decimal ps.id, (parsed ps.data).1, (parsed ps.data).2.1, decimal (parsed ps.data).2.2.length]

theorem isBreak_decimal (n : Int) : ∀ c ∈ decimal n, isBreak c = false := by
  intro c member
  have bounds : 45 ≤ c := by
    rcases mem_decimal member with digit | rfl
    · exact Nat.le_trans (by decide) (isDigit_bounds digit).1
    · exact Nat.le_refl _
  simp only [isBreak, Bool.or_eq_false_iff, beq_eq_false_iff_ne]
  omega

/-- A text without control characters and blanks is one word, which a print copies whole. -/
theorem word_of_clean {s : Str} (some : s ≠ []) (clean : ∀ c ∈ s, 32 < c) :
    tokens isBreak s = [s] ∧ Lib9.cstr s = s := by
  constructor
  · apply tokens_eq_singleton some
    intro c member
    have above := clean c member
    simp only [isBreak, Bool.or_eq_false_iff, beq_eq_false_iff_ne]
    omega
  · apply Lib9.cstr_of_no_nul
    intro member
    exact absurd (clean 0 member) (by decide)

theorem clean_safesrcname {s : Str} (safe : safesrcname s = true) :
    s ≠ [] ∧ ∀ c ∈ s, 32 < c := by
  unfold safesrcname at safe
  simp only [Bool.and_eq_true, all_eq_true, bne_iff_ne] at safe
  refine ⟨safe.1.1.1, ?_⟩
  intro c member
  have inside := safe.2 c member
  simp only [isSafe, Bool.or_eq_true, Bool.and_eq_true, decide_eq_true_eq, beq_iff_eq] at inside
  omega

theorem clean_hascontrol {s : Str} (clean : hascontrol s = false) : ∀ c ∈ s, 32 < c := by
  intro c member
  have none := any_eq_false.1 clean c member
  simp only [Bool.or_eq_true, decide_eq_true_eq, not_or] at none
  omega

def lineof (ps : PendingSend) : Str :=
  decimal ps.id ++ 32 :: (Lib9.cstr (parsed ps.data).1 ++ 32 :: (Lib9.cstr (parsed ps.data).2.1 ++
    32 :: decimal (parsed ps.data).2.2.length))

theorem pendingline_lineof (ps : PendingSend) : pendingline ps = lineof ps ++ [10] := by
  unfold pendingline lineof
  simp [str]

theorem tokens_lineof (wellformed : Wellformed ps.data) :
    tokens isBreak (lineof ps) = shown ps := by
  have ⟨someSrc, cleanSrc⟩ := clean_safesrcname wellformed.src
  have src := word_of_clean someSrc cleanSrc
  have origid := word_of_clean wellformed.origid (clean_hascontrol wellformed.clean)
  have blank : isBreak 32 = true := rfl
  have number (n : Int) : tokens isBreak (decimal n) = [decimal n] :=
    tokens_eq_singleton (decimal_ne_nil n) (isBreak_decimal n)
  unfold lineof shown
  rw [tokens_append_delim blank, tokens_append_delim blank, tokens_append_delim blank, src.2,
    origid.2, src.1, origid.1, number, number]
  rfl

theorem words_genpending {s : State} (lawful : Lawful s) :
    tokens isBreak (genpending s) = s.pendingSends.flatMap shown := by
  have lines : genpending s = (s.pendingSends.map lineof).flatMap (· ++ [10]) := by
    unfold genpending
    rw [flatMap_map]
    exact flatMap_congr fun ps _ => pendingline_lineof ps
  rw [lines, tokens_flatMap_concat rfl, flatMap_map]
  apply flatMap_congr
  intro ps pending
  exact tokens_lineof (lawful.wellformed ps (lawful.mem_drafts pending))

/-! ### Every run -/

/-- What a run of writes and of processes has done. -/
structure Sound (actions : List Act) : Prop where
  /-- A reply carries a draft that one approval named. -/
  caused : ∀ call ∈ (after actions).calls, ∃ ps ∈ (after actions).drafts,
    parsed ps.data = (call.src.name, call.origid, call.body) ∧
      Named actions true call.ticket ps ∧
      ∀ ticket, Named actions true ticket ps → ticket = call.ticket
  /-- An approval causes one reply. -/
  once : ((after actions).calls.map Call.ticket).Nodup
  accepted : ∀ ps ∈ (after actions).drafts, Accepted actions ps
  shown : tokens isBreak (genpending (after actions)) = (after actions).pendingSends.flatMap shown
  ids : ((after actions).drafts.map PendingSend.id).Nodup
  consumed : ∀ approved ticket ps, Named actions approved ticket ps →
    ps ∉ (after actions).pendingSends
  denied : ∀ ticket ticket' ps, Named actions false ticket ps → ¬ Named actions true ticket' ps
  /-- A draft is pending, or a write named it. -/
  kept : ∀ ps ∈ (after actions).drafts, ps ∈ (after actions).pendingSends ∨
    ∃ approved ticket, Named actions approved ticket ps
  queued : ∀ data, (act (after actions) (.draft data)).2 = none →
    ∃ ps ∈ (after (actions ++ [.draft data])).pendingSends, ps.data = written data
  few : (after actions).pendingSends.length ≤ MAXPENDING

/-- The number of a write that takes a draft is one that it can name. -/
def Fitting (s : State) : Act → Prop
  | .approve data => Fits s (written data) (str "approve")
  | .deny data => Fits s (written data) (str "deny")
  | _ => True

/-- A draft is sent only as it was approved, and once, in every run whose writes name drafts by
numbers of 32 bits. -/
theorem only_approved_sent (actions : List Act)
    (fitting : ∀ front action back, actions = front ++ action :: back →
      Fitting (after front) action) : Sound actions := by
  have record := recorded actions
  have lawful := record.lawful
  have fits : ∀ approved front data back, actions = front ++ consume approved data :: back →
      Fits (after front) (written data) (verbof approved) := by
    intro approved front data back split
    cases approved with
    | true => exact fitting front (.approve data) back split
    | false => exact fitting front (.deny data) back split
  exact {
    caused := by
      intro call member
      have ⟨ps, carries, consumed⟩ := record.called call member
      refine ⟨ps, consumed.mem_drafts, carries, consumed.named (fits true), ?_⟩
      intro _ named
      exact (consumed.unique named.consumed).2
    once := (List.nodup_append.1 record.tickets).2.1
    accepted := record.accepted
    shown := words_genpending lawful
    ids := lawful.nodup
    consumed := fun _ _ _ named => named.consumed.not_pending
    denied := fun _ _ _ denied approved => nomatch (denied.consumed.unique approved.consumed).1
    kept := by
      intro ps member
      rcases List.mem_append.1 (lawful.placed.mem_iff.1 member) with pending | taken
      · exact Or.inl pending
      · obtain ⟨x, inTaken, rfl⟩ := List.mem_map.1 taken
        exact Or.inr ⟨x.approved, x.ticket, (record.taken x inTaken).named (fits x.approved)⟩
    queued := by
      intro data answer
      have answer : (answered (after actions) (queuedraft (after actions) (written data))).2 =
        none := answer
      rw [after_concat]
      show ∃ ps ∈ (answered _ (queuedraft (after actions) (written data))).1.pendingSends, _
      cases queued : queuedraft (after actions) (written data) with
      | error _ =>
        rw [queued] at answer
        cases answer
      | ok _ => exact queuedraft_pending queued
    few := lawful.few }

end Runs

def approving (number : Str) : List Act :=
  [.ctl ⟨some 1, [], none, none⟩ (str "register email /dis/veltro/sources/email.dis"),
    .draft (str "email\nm1\nhello"), .approve (str "approve " ++ number), .sends 0 none]

theorem only_approved_sent_one : (after (approving (str "1"))).calls.length = 1 ∧
    Sound (approving (str "1")) := by
  constructor
  · decide +kernel
  apply only_approved_sent
  intro _ action _ split
  have member : action ∈ approving (str "1") := by
    rw [split]
    exact List.mem_append_right _ (List.mem_cons_self ..)
  simp only [approving, List.mem_cons, List.not_mem_nil, or_false] at member
  rcases member with rfl | rfl | rfl | rfl
  · trivial
  · trivial
  · have number : named (written (str "approve " ++ str "1")) (str "approve") = 1 := by
      decide +kernel
    apply Or.inl
    rw [number]
    exact ⟨by decide, by decide⟩
  · trivial

/-- The first draft is sent for an approval of 4294967297. -/
theorem not_sound_wrapped : ¬ ∀ actions, Sound actions := by
  intro sound
  have caused := (sound (approving (str "4294967297"))).caused
  have sent : (after (approving (str "4294967297"))).calls.length = 1 := by decide +kernel
  have ⟨call, called⟩ := List.length_eq_one_iff.1 sent
  obtain ⟨ps, -, -, named, -⟩ := caused call (by rw [called]; exact List.mem_singleton_self _)
  obtain ⟨_, data, _, split, -, -, read, number⟩ := named
  have member : Act.approve data ∈ approving (str "4294967297") := by
    rw [split]
    exact List.mem_append_right _ (List.mem_cons_self ..)
  simp only [approving, List.mem_cons, List.not_mem_nil, or_false, reduceCtorEq, false_or,
    Act.approve.injEq] at member
  subst member
  have one : (approvalid (written (str "approve " ++ str "4294967297")) (str "approve")).toOption =
      some 1 := by decide +kernel
  have large : Msg9p.named (written (str "approve " ++ str "4294967297")) (str "approve") =
      4294967297 := by decide +kernel
  have id : ps.id = 1 := by
    have same := congrArg Except.toOption read
    rw [show verbof true = str "approve" from rfl, one] at same
    exact (Option.some.inj same).symm
  rw [show verbof true = str "approve" from rfl, large, id] at number
  cases number

end Infernode.Msg9p
