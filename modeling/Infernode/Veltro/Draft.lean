import Infernode.Veltro.Msg9p
import Mathlib.Data.List.Nodup
import Mathlib.Data.List.Perm.Basic
import Mathlib.Data.List.Count
import Mathlib.Data.List.Range

/-!
What is sent for a draft.

Owns: the invariant of the drafts, the step that each entry of the history comes from, and for
which runs every reply is caused by an approval of its draft.
-/

namespace Infernode.Msg9p

open Text Strings List

/-! ### Identifiers -/

theorem wrap_high {n : Int} (low : 2147483648 ≤ n) (high : n < 4294967296) :
    wrap n = n - 4294967296 := by
  unfold wrap
  rw [Int.bmod_def]
  split
  · omega
  · omega

/-- The identifier of a draft that is preceded by so many. -/
def idof (i : Nat) : Int := wrap ((i : Int) + 1)

variable {i : Nat}

theorem idof_low (low : i < 2147483647) : idof i = i + 1 := by
  unfold idof
  apply wrap_of_inWord
  unfold InWord
  omega

theorem idof_high (low : 2147483647 ≤ i) (high : i < 4294967295) :
    idof i = (i : Int) + 1 - 4294967296 := wrap_high (by omega) (by omega)

theorem idof_injective {j : Nat} (small : i < 4294967295) (small' : j < 4294967295)
    (same : idof i = idof j) : i = j := by
  rcases Nat.lt_or_ge i 2147483647 with low | high
  · rcases Nat.lt_or_ge j 2147483647 with low' | high'
    · rw [idof_low low, idof_low low'] at same
      omega
    · rw [idof_low low, idof_high high' small'] at same
      omega
  rcases Nat.lt_or_ge j 2147483647 with low' | high'
  · rw [idof_high high small, idof_low low'] at same
    omega
  · rw [idof_high high small, idof_high high' small'] at same
    omega

/-- A draft whose identifier cannot be written in an approval stays. -/
def stuck (id : Int) : Bool := decide (id ≤ 0)

theorem stuck_idof (low : 2147483647 ≤ i) (high : i < 4294967295) : stuck (idof i) = true := by
  unfold stuck
  rw [idof_high low high]
  exact decide_eq_true (by omega)

theorem range_part {a m n : Nat} (inside : a + m ≤ n) :
    (List.range' a m).Sublist (List.range n) := by
  have whole : List.range n = List.range' 0 a ++ (List.range' a m ++
      List.range' (a + m) (n - (a + m))) := by
    have first := @List.range'_append_1 a m (n - (a + m))
    have second := @List.range'_append_1 0 a (m + (n - (a + m)))
    rw [Nat.zero_add] at second
    rw [range_eq_range', first, second]
    congr 1
    omega
  rw [whole]
  exact (sublist_append_left ..).trans (sublist_append_right ..)

theorem few_of_stuck {n : Nat} (few : ((List.range n).map idof).countP stuck ≤ MAXPENDING) :
    n ≤ 2147483663 := by
  by_contra many
  have part : (List.range' 2147483647 17).Sublist (List.range n) := range_part (by omega)
  have counted := (part.map idof).countP_le (p := stuck)
  have every : ∀ id ∈ (List.range' 2147483647 17).map idof, stuck id = true := by
    intro _ member
    obtain ⟨_, inside, rfl⟩ := mem_map.1 member
    have bounds := mem_range'_1.1 inside
    exact stuck_idof bounds.1 (by omega)
  rw [countP_eq_length.2 every, length_map, length_range'] at counted
  unfold MAXPENDING at few
  omega

theorem idof_succ (i : Nat) : wrap (idof i + 1) = idof (i + 1) := by
  unfold idof wrap
  rw [Int.bmod_add_bmod]
  congr 1

/-! ### The drafts -/

/-- The source and the message id of a draft are words. -/
structure Wellformed (data : Str) : Prop where
  src : safesrcname (parsed data).1 = true
  origid : (parsed data).2.1 ≠ []
  clean : hascontrol (parsed data).2.1 = false

/-- Each draft has an identifier of its own and is pending or was taken once. -/
structure Lawful (s : State) : Prop where
  ids : s.drafts.map PendingSend.id = (List.range s.drafts.length).map idof
  next : s.nextSendID = idof s.drafts.length
  placed : s.drafts.Perm (s.pendingSends ++ s.taken.map Taken.ps)
  free : ∀ x ∈ s.taken, stuck x.ps.id = false
  few : s.pendingSends.length ≤ MAXPENDING
  wellformed : ∀ ps ∈ s.drafts, Wellformed ps.data

theorem lawful_initial : Lawful State.initial where
  ids := rfl
  next := by decide
  placed := List.Perm.refl _
  free := nofun
  few := Nat.zero_le _
  wellformed := nofun

theorem perm_eraseP {α : Type} {p : α → Bool} {l : List α} {a : α} (found : l.find? p = some a) :
    l.Perm (a :: l.eraseP p) := by
  induction l with
  | nil => cases found
  | cons head _ ih =>
    cases is : p head with
    | true =>
      rw [find?_cons_of_pos is] at found
      cases found
      rw [eraseP_cons_of_pos is]
    | false =>
      rw [find?_cons_of_neg (by simp [is])] at found
      rw [eraseP_cons_of_neg (by simp [is])]
      exact ((ih found).cons head).trans (List.Perm.swap ..)

section Steps

variable {s t : State} {data verb : Str} {ps : PendingSend}

theorem Lawful.length_le (lawful : Lawful s) : s.drafts.length ≤ 2147483663 := by
  apply few_of_stuck
  rw [← lawful.ids, countP_map, lawful.placed.countP_eq, countP_append]
  have none : List.countP (stuck ∘ PendingSend.id) (s.taken.map Taken.ps) = 0 := by
    rw [countP_eq_zero]
    intro _ member
    obtain ⟨x, inTaken, rfl⟩ := mem_map.1 member
    rw [Function.comp_apply, lawful.free x inTaken]
    decide
  rw [none, Nat.add_zero]
  exact Nat.le_trans countP_le_length lawful.few

theorem Lawful.nodup (lawful : Lawful s) : (s.drafts.map PendingSend.id).Nodup := by
  have few := lawful.length_le
  rw [lawful.ids]
  apply List.Nodup.map_on
  · intro _ inside _ inside' same
    rw [mem_range] at inside inside'
    exact idof_injective (by omega) (by omega) same
  · exact nodup_range

theorem Lawful.mem_drafts (lawful : Lawful s) (pending : ps ∈ s.pendingSends) : ps ∈ s.drafts :=
  lawful.placed.mem_iff.2 (mem_append_left _ pending)

/-! ### One step of the drafts -/

/-- A draft that is accepted is pending already, or there is room for it. -/
theorem queuedraft_cases (queued : queuedraft s data = .ok t) :
    Wellformed data ∧
      ((t = s ∧ ∃ ps ∈ s.pendingSends, ps.data = data) ∨
        (s.pendingSends.length < MAXPENDING ∧ t = { s with
          nextSendID := wrap (s.nextSendID + 1)
          pendingSends := ⟨s.nextSendID, data⟩ :: s.pendingSends
          drafts := s.drafts ++ [⟨s.nextSendID, data⟩] })) := by
  unfold queuedraft at queued
  cases valid : validreply s data with
  | error e =>
    rw [valid] at queued
    cases queued
  | ok u =>
    rw [valid] at queued
    have rest : (if s.pendingSends.any fun ps => decide (ps.data = data) then
        (pure s : Except Str State)
      else if MAXPENDING ≤ s.pendingSends.length then
        .error (str "draft: approval queue full")
      else pure { s with
        nextSendID := wrap (s.nextSendID + 1)
        pendingSends := ⟨s.nextSendID, data⟩ :: s.pendingSends
        drafts := s.drafts ++ [⟨s.nextSendID, data⟩] }) = .ok t := queued
    constructor
    · unfold validreply checkreply at valid
      simp only at valid
      split at valid
      · cases valid
      rename_i some
      split at valid
      · cases valid
      rename_i safe
      split at valid
      · cases valid
      · rename_i clean
        exact ⟨Bool.not_eq_false _ ▸ safe, (not_or.1 some).2, Bool.not_eq_true _ ▸ clean⟩
    · by_cases found : (s.pendingSends.any fun ps => decide (ps.data = data)) = true
      · rw [if_pos found] at rest
        have ⟨ps, member, same⟩ := any_eq_true.1 found
        exact Or.inl ⟨(Except.ok.inj rest).symm, ps, member, of_decide_eq_true same⟩
      rw [if_neg found] at rest
      by_cases full : MAXPENDING ≤ s.pendingSends.length
      · rw [if_pos full] at rest
        exact absurd rest nofun
      · rw [if_neg full] at rest
        exact Or.inr ⟨Nat.not_le.1 full, (Except.ok.inj rest).symm⟩

theorem queuedraft_pending (queued : queuedraft s data = .ok t) :
    ∃ ps ∈ t.pendingSends, ps.data = data := by
  rcases (queuedraft_cases queued).2 with ⟨rfl, found⟩ | ⟨-, rfl⟩
  · exact found
  · exact ⟨_, mem_cons_self .., rfl⟩

theorem Lawful.adds (lawful : Lawful s) (id : ps.id = s.nextSendID)
    (room : s.pendingSends.length < MAXPENDING) (wellformed : Wellformed ps.data)
    (drafts : t.drafts = s.drafts ++ [ps]) (next : t.nextSendID = wrap (s.nextSendID + 1))
    (pending : t.pendingSends = ps :: s.pendingSends) (taken : t.taken = s.taken) :
    Lawful t where
  ids := by
    rw [drafts, map_append, length_append, length_singleton, range_succ,
      map_append, lawful.ids, map_singleton, map_singleton, id, lawful.next]
  next := by
    rw [next, lawful.next, idof_succ, drafts, length_append, length_singleton]
  placed := by
    rw [drafts, pending, taken]
    exact (perm_append_singleton _ _).trans (lawful.placed.cons _)
  free := by
    rw [taken]
    exact lawful.free
  few := by
    rw [pending]
    exact room
  wellformed := by
    intro other member
    rw [drafts] at member
    rcases mem_append.1 member with old | new
    · exact lawful.wellformed other old
    · rw [mem_singleton.1 new]
      exact wellformed

/-- The drafts after a write that takes one. -/
theorem takedraft_cases (s : State) (data verb : Str) (approved : Bool) :
    (∃ e kept, takedraft s data verb approved = ({ s with pendingSends := kept }, .error e) ∧
        kept.Perm s.pendingSends) ∨
      ∃ ps kept, takedraft s data verb approved = ({ s with
          pendingSends := kept
          taken := s.taken ++ [⟨s.clock, ps, named data verb, approved⟩] }, .ok ps) ∧
        approvalid data verb = .ok ps.id ∧ s.pendingSends.Perm (ps :: kept) := by
  cases read : approvalid data verb with
  | error e =>
    refine Or.inl ⟨e, s.pendingSends, ?_, List.Perm.refl _⟩
    unfold takedraft
    rw [read]
  | ok id =>
    cases found : s.pendingSends.find? fun ps => decide (ps.id = id) with
    | none =>
      refine Or.inl ⟨verb ++ str ": unknown or consumed request",
        (s.pendingSends.eraseP fun ps => decide (ps.id = id)).reverse, ?_,
        (reverse_perm _).trans ?_⟩
      · unfold takedraft takepending
        rw [read]
        simp only [found]
      · rw [eraseP_of_forall_not]
        exact fun ps member => find?_eq_none.1 found ps member
    | some ps =>
      have same := find?_some found
      have same : ps.id = id := of_decide_eq_true same
      subst same
      refine Or.inr ⟨ps, (s.pendingSends.eraseP fun other => decide (other.id = ps.id)).reverse,
        ?_, rfl, (perm_eraseP found).trans ((reverse_perm _).symm.cons ps)⟩
      unfold takedraft takepending
      rw [read]
      simp only [found]

theorem stuck_of_approvalid {id : Int} (read : approvalid data verb = .ok id) :
    stuck id = false := by
  unfold approvalid at read
  cases word : approvalword data verb with
  | error e =>
    rw [word] at read
    cases read
  | ok w =>
    rw [word] at read
    have rest : (if (toint w).1 ≤ 0 ∨ (toint w).2 ≠ [] then
      (.error (verb ++ str ": invalid id") : Except Str Int) else pure (toint w).1) = .ok id :=
      read
    split at rest
    · cases rest
    · rename_i positive
      cases rest
      exact decide_eq_false (not_or.1 positive).1

/-- What a write that takes a draft leaves, whatever else it changes. -/
theorem Lawful.takes (lawful : Lawful s) {kept : List PendingSend} {x : Taken}
    (pending : s.pendingSends.Perm (x.ps :: kept)) (free : stuck x.ps.id = false)
    (drafts : t.drafts = s.drafts) (next : t.nextSendID = s.nextSendID)
    (left : t.pendingSends = kept) (taken : t.taken = s.taken ++ [x]) : Lawful t where
  ids := by
    rw [drafts]
    exact lawful.ids
  next := by
    rw [next, drafts]
    exact lawful.next
  placed := by
    rw [drafts, left, taken, map_append]
    refine lawful.placed.trans ((pending.append_right _).trans ?_)
    show (x.ps :: (kept ++ s.taken.map Taken.ps)).Perm (kept ++ (s.taken.map Taken.ps ++ [x.ps]))
    rw [← append_assoc]
    exact (perm_append_singleton _ _).symm
  free := by
    intro y member
    rw [taken] at member
    rcases mem_append.1 member with old | new
    · exact lawful.free y old
    · rw [mem_singleton.1 new]
      exact free
  few := by
    have fewer := pending.length_eq
    have few := lawful.few
    rw [length_cons] at fewer
    rw [left]
    omega
  wellformed := by
    rw [drafts]
    exact lawful.wellformed

/-- What changes neither the drafts nor those taken, and only the order of those pending. -/
theorem Lawful.same (lawful : Lawful s) (drafts : t.drafts = s.drafts)
    (next : t.nextSendID = s.nextSendID) (pending : t.pendingSends.Perm s.pendingSends)
    (taken : t.taken = s.taken) : Lawful t where
  ids := by
    rw [drafts]
    exact lawful.ids
  next := by
    rw [next, drafts]
    exact lawful.next
  placed := by
    rw [drafts, taken]
    exact lawful.placed.trans (pending.symm.append_right _)
  free := by
    rw [taken]
    exact lawful.free
  few := by
    rw [pending.length_eq]
    exact lawful.few
  wellformed := by
    rw [drafts]
    exact lawful.wellformed

/-! ### What a step can do -/

/-- The sources may change, and nothing else. -/
def Resourced (s t : State) : Prop := ∃ sources, t = { s with sources := sources }

variable {answers : Answers}

theorem resourced_called (done : answers.called.elim (Except.ok s) Except.error = Except.ok t) :
    Resourced s t := by
  cases returned : answers.called with
  | none =>
    rw [returned] at done
    cases done
    exact ⟨s.sources, rfl⟩
  | some _ =>
    rw [returned] at done
    cases done

theorem doregister_resourced {args : List Str} (done : doregister s answers args = .ok t) :
    Resourced s t := by
  unfold doregister at done
  split at done
  · split at done
    · cases done
    split at done
    · cases done
    split at done
    · cases done
    split at done
    · cases done
    split at done
    · cases done
    · cases done
      exact ⟨_, rfl⟩
  · cases done

theorem dounregister_resourced {name : Str} (done : dounregister s name = .ok t) :
    Resourced s t := by
  unfold dounregister at done
  split at done
  · cases done
    exact ⟨_, rfl⟩
  · cases done

theorem dosend_resourced {name : Str} (done : dosend s answers name = .ok t) : Resourced s t := by
  unfold dosend at done
  split at done
  · exact resourced_called done
  · cases done

theorem doflag_resourced {args : List Str} (done : doflag s answers args = .ok t) :
    Resourced s t := by
  unfold doflag at done
  split at done
  · split at done
    · cases done
    split at done
    · cases done
    split at done
    · cases done
    · split at done
      · exact resourced_called done
      · cases done
  · cases done

theorem handlectl_resourced (done : handlectl s answers data = .ok t) : Resourced s t := by
  unfold handlectl at done
  cases words : tokens isBlank (splitfirst data 10).1 with
  | nil =>
    rw [words] at done
    cases done
  | cons cmd toks =>
    rw [words] at done
    simp only at done
    by_cases register : tolower cmd = str "register"
    · rw [if_pos register] at done
      exact doregister_resourced done
    rw [if_neg register] at done
    by_cases unregister : tolower cmd = str "unregister"
    · rw [if_pos unregister] at done
      cases toks with
      | nil => cases done
      | cons _ _ => exact dounregister_resourced done
    rw [if_neg unregister] at done
    by_cases send : tolower cmd = str "send"
    · rw [if_pos send] at done
      cases toks with
      | nil => cases done
      | cons _ rest =>
        cases rest with
        | nil => cases done
        | cons _ _ => exact dosend_resourced done
    · rw [if_neg send] at done
      by_cases flag : tolower cmd = str "flag"
      · rw [if_pos flag] at done
        exact doflag_resourced done
      · rw [if_neg flag] at done
        cases done

def Idle (s t : State) : Prop :=
  ∃ sources kept, t = { s with sources := sources, pendingSends := kept } ∧
    kept.Perm s.pendingSends

theorem idle_self (s : State) : Idle s s := ⟨s.sources, s.pendingSends, rfl, List.Perm.refl _⟩

theorem idle_answered {result : Except Str State}
    (resourced : ∀ t, result = .ok t → Resourced s t) : Idle s (answered s result).1 := by
  cases done : result with
  | ok t =>
    obtain ⟨sources, rfl⟩ := resourced t done
    exact ⟨sources, s.pendingSends, rfl, List.Perm.refl _⟩
  | error _ => exact idle_self s

structure Accepts (s : State) (ps : PendingSend) (t : State) : Prop where
  room : s.pendingSends.length < MAXPENDING
  wellformed : Wellformed ps.data
  id : ps.id = s.nextSendID
  after : t = { s with
    nextSendID := wrap (s.nextSendID + 1)
    pendingSends := ps :: s.pendingSends
    drafts := s.drafts ++ [ps] }

/-- A draft is taken by a write that names it. -/
structure Takes (s : State) (text verb : Str) (approved : Bool) (x : Taken)
    (kept : List PendingSend) : Prop where
  ticket : x.ticket = s.clock
  read : approvalid text verb = .ok x.ps.id
  number : x.number = named text verb
  verdict : x.approved = approved
  pending : s.pendingSends.Perm (x.ps :: kept)

/-- What the call of a process that was spawned is. -/
structure Calls (proc : Spawned) (call : Call) : Prop where
  ticket : call.ticket = proc.ticket
  carries : parsed proc.ps.data = (call.src.name, call.origid, call.body)

theorem checkreply_name {source : SrcInfo} (found : checkreply verb s data = .ok source) :
    source.name = (parsed data).1 := by
  unfold checkreply at found
  simp only at found
  split at found
  · cases found
  split at found
  · cases found
  split at found
  · cases found
  split at found
  · rename_i source' is
    cases found
    have same := find?_some is
    exact of_decide_eq_true same
  · cases found

inductive Kind (s : State) (action : Act) (t : State) : Prop where
  | idle (idle : Idle s t)
  | accepts (data : List Nat) (ps : PendingSend) (is : action = .draft data)
      (text : written data = ps.data) (queued : queuedraft s (written data) = .ok t)
      (accepts : Accepts s ps t)
  | approves (data : List Nat) (x : Taken) (kept : List PendingSend) (is : action = .approve data)
      (takes : Takes s (written data) (str "approve") true x kept)
      (after : t = { s with
        pendingSends := kept
        taken := s.taken ++ [x]
        spawned := s.spawned ++ [⟨s.clock, x.ps⟩] })
  | denies (data : List Nat) (x : Taken) (kept : List PendingSend) (is : action = .deny data)
      (takes : Takes s (written data) (str "deny") false x kept)
      (after : t = { s with pendingSends := kept, taken := s.taken ++ [x] })
  | sends (k : Nat) (proc : Spawned) (call : Call) (is : s.spawned[k]? = some proc)
      (calls : Calls proc call)
      (after : t = { s with spawned := s.spawned.eraseIdx k, calls := s.calls ++ [call] })
  | fails (k : Nat) (after : t = { s with spawned := s.spawned.eraseIdx k })

theorem kind_act (s : State) (action : Act) : Kind s action (act s action).1 := by
  cases action with
  | ctl _ _ => exact .idle (idle_answered fun t done => handlectl_resourced done)
  | flag _ _ => exact .idle (idle_answered fun t done => doflag_resourced done)
  | draft data =>
    show Kind s _ (answered s (queuedraft s (written data))).1
    cases queued : queuedraft s (written data) with
    | error _ => exact .idle (idle_self s)
    | ok t =>
      obtain ⟨wellformed, ⟨rfl, -⟩ | ⟨room, after⟩⟩ := queuedraft_cases queued
      · exact .idle (idle_self t)
      · exact .accepts data ⟨s.nextSendID, written data⟩ rfl rfl queued
          ⟨room, wellformed, rfl, after⟩
  | approve data =>
    show Kind s _ (approve s (written data)).1
    unfold approve
    rcases takedraft_cases s (written data) (str "approve") true with
      ⟨e, kept, took, perm⟩ | ⟨ps, kept, took, read, perm⟩
    · rw [took]
      exact .idle ⟨s.sources, kept, rfl, perm⟩
    · rw [took]
      exact .approves data ⟨s.clock, ps, named (written data) (str "approve"), true⟩ kept rfl
        ⟨rfl, read, rfl, rfl, perm⟩ rfl
  | deny data =>
    show Kind s _ (deny s (written data)).1
    unfold deny
    rcases takedraft_cases s (written data) (str "deny") false with
      ⟨e, kept, took, perm⟩ | ⟨ps, kept, took, read, perm⟩
    · rw [took]
      exact .idle ⟨s.sources, kept, rfl, perm⟩
    · rw [took]
      exact .denies data ⟨s.clock, ps, named (written data) (str "deny"), false⟩ kept rfl
        ⟨rfl, read, rfl, rfl, perm⟩ rfl
  | sends k returns =>
    cases is : s.spawned[k]? with
    | none =>
      have none : act s (.sends k returns) = (s, none) := by
        unfold act
        simp only [is]
      rw [none]
      exact .idle (idle_self s)
    | some proc =>
      have some : act s (.sends k returns) =
          handlereply { s with spawned := s.spawned.eraseIdx k } proc returns := by
        unfold act
        simp only [is]
      rw [some]
      unfold handlereply
      cases checked : checkreply (str "reply") { s with spawned := s.spawned.eraseIdx k }
        proc.ps.data with
      | error _ => exact .fails k rfl
      | ok source =>
        refine .sends k proc ⟨proc.ticket, source, (parsed proc.ps.data).2.1,
          (parsed proc.ps.data).2.2⟩ is ⟨rfl, ?_⟩ rfl
        rw [checkreply_name checked]

end Steps

end Infernode.Msg9p
