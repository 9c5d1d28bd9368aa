import Infernode.Emu.Exqplaces

/-!
The work in progress of each export.

Owns: that a work list holds the started requests of its export, the later received ones
first, and what a shutdown leaves behind.
-/

namespace Infernode.Exportq

open Links Runs List Function

/-- What the work lists and the shutdown see of a request. -/
structure View where
  request : Request
  queued : Bool
  shut : Bool

def Exq.view (c : Exq) : View := ⟨c.request, decide (c.stage = .queued), c.shut⟩

def State.view (s : State) (a : Addr) : Option View := (s.core a).map Exq.view

structure Worked (view : Addr → Option View) (work : Nat → List Addr) (held : Nat → List Request)
    (log : List Event) : Prop where
  mem_iff : ∀ e a, a ∈ work e ↔
    ∃ v, view a = some v ∧ v.request.export = e ∧ v.queued = false ∧ v.shut = false
  sorted : ∀ e, (work e).Pairwise fun a b =>
    ∀ v w, view a = some v → view b = some w → w.request.id < v.request.id
  queued_later : ∀ a b v w, view a = some v → view b = some w → v.queued = true →
    w.queued = false → v.request.export = w.request.export → w.request.id < v.request.id
  queued_unshut : ∀ a v, view a = some v → v.queued = true → v.shut = false
  newest : ∀ e q w, q ∈ held e → .received w ∈ log → w.export = e → w.id ≤ q.id
  waiting_order : (waiting log).Pairwise fun q w => q.export = w.export → q.id < w.id

variable {a : Addr} {s t : State} {c : Exq}

variable {e : Nat} {q : Request} {v : View} {d : Exq}

namespace Worked

variable {view view' : Addr → Option View} {work work' : Nat → List Addr}
  {held held' : Nat → List Request} {log log' : List Event}

theorem nodup (worked : Worked view work held log) (e : Nat) : (work e).Nodup := by
  refine (worked.sorted e).imp_of_mem ?_
  intro a _ first _ earlier same
  have ⟨v, seen, _⟩ := (worked.mem_iff e a).1 first
  exact Nat.lt_irrefl _ (earlier v v seen (same ▸ seen))

/-- Requests that are gone are gone from the work. -/
theorem remove (worked : Worked view work held log)
    (views : ∀ a, view' a = view a ∨ view' a = none)
    (works : ∀ e, (work' e).Sublist (work e))
    (kept : ∀ e a, a ∈ work e → (a ∈ work' e ↔ view' a ≠ none))
    (helds : ∀ e q, q ∈ held' e → q ∈ held e)
    (receipts : ∀ q, .received q ∈ log' → .received q ∈ log)
    (waits : (waiting log').Sublist (waiting log)) : Worked view' work' held' log' := by
  have old : ∀ a v, view' a = some v → view a = some v := by
    intro a v seen
    rcases views a with same | gone
    · rw [← same]
      exact seen
    · rw [gone] at seen
      cases seen
  constructor
  · intro e a
    constructor
    · intro member
      have before := (works e).subset member
      have ⟨v, seen, rest⟩ := (worked.mem_iff e a).1 before
      rcases views a with same | gone
      · exact ⟨v, same.trans seen, rest⟩
      · exact absurd gone ((kept e a before).1 member)
    · rintro ⟨v, seen, rest⟩
      refine (kept e a ((worked.mem_iff e a).2 ⟨v, old a v seen, rest⟩)).2 ?_
      rw [seen]
      simp
  · intro e
    refine ((worked.sorted e).sublist (works e)).imp ?_
    intro a b earlier v w seen seen'
    exact earlier v w (old a v seen) (old b w seen')
  · intro a b v w seen seen'
    exact worked.queued_later a b v w (old a v seen) (old b w seen')
  · intro a v seen
    exact worked.queued_unshut a v (old a v seen)
  · intro e q w member known
    exact worked.newest e q w (helds e q member) (receipts w known)
  · exact worked.waiting_order.sublist waits

theorem same (worked : Worked view work held log) (views : ∀ a, view' a = view a)
    (helds : ∀ e q, q ∈ held' e → q ∈ held e)
    (receipts : ∀ q, .received q ∈ log' → .received q ∈ log)
    (waits : waiting log' = waiting log) : Worked view' work held' log' := by
  refine worked.remove (fun a => Or.inl (views a)) (fun e => List.Sublist.refl _) ?_ helds receipts
    (waits ▸ List.Sublist.refl _)
  intro e a member
  have ⟨_, seen, _⟩ := (worked.mem_iff e a).1 member
  simp [member, views a, seen]

theorem receive (worked : Worked view work held log) (q : Request)
    (below : ∀ w, .received w ∈ log → w.id < q.id) :
    Worked view work (Function.update held q.export [q]) (.received q :: log) := by
  refine ⟨worked.mem_iff, worked.sorted, worked.queued_later, worked.queued_unshut, ?_,
    worked.waiting_order⟩
  intro e r w member known ours
  by_cases same : e = q.export
  · subst same
    rw [update_self, mem_singleton] at member
    subst member
    rcases mem_cons.1 known with new | old
    · cases new
      exact Nat.le_refl _
    · exact Nat.le_of_lt (below w old)
  · rw [update_of_ne same] at member
    rcases mem_cons.1 known with new | old
    · cases new
      exact absurd ours.symm same
    · exact worked.newest e r w member old ours

/-- A request in hand is later than all others of its export. -/
theorem accept (worked : Worked view work held log) (member : q ∈ held e) (own : q.export = e)
    (unused : view a = none)
    (known : ∀ b v, view b = some v → .received v.request ∈ log ∧ v.request.id ≠ q.id)
    (waiters : ∀ w ∈ waiting log, .received w ∈ log ∧ w.id ≠ q.id)
    (views : ∀ b, view' b = if b = a then some ⟨q, true, false⟩ else view b)
    (helds : ∀ e q, q ∈ held' e → q ∈ held e) : Worked view' work held' (.accepted q :: log) := by
  have cases_ : ∀ b v, view' b = some v → b = a ∧ v = ⟨q, true, false⟩ ∨ view b = some v := by
    intro b v seen
    rw [views] at seen
    by_cases here : b = a
    · rw [if_pos here] at seen
      cases seen
      exact Or.inl ⟨here, rfl⟩
    · rw [if_neg here] at seen
      exact Or.inr seen
  constructor
  · intro e' b
    rw [worked.mem_iff]
    constructor
    · rintro ⟨v, seen, rest⟩
      refine ⟨v, ?_, rest⟩
      rw [views, if_neg]
      · exact seen
      · rintro rfl
        rw [unused] at seen
        cases seen
    · rintro ⟨v, seen, ours, started, rest⟩
      rcases cases_ b v seen with ⟨_, rfl⟩ | seen
      · cases started
      · exact ⟨v, seen, ours, started, rest⟩
  · intro e'
    refine (worked.sorted e').imp_of_mem ?_
    intro b b' first second earlier v w seen seen'
    have ⟨_, seen₀, _⟩ := (worked.mem_iff e' b).1 first
    have ⟨_, seen₁, _⟩ := (worked.mem_iff e' b').1 second
    rcases cases_ b v seen with ⟨rfl, _⟩ | seen
    · rw [unused] at seen₀
      cases seen₀
    rcases cases_ b' w seen' with ⟨rfl, _⟩ | seen'
    · rw [unused] at seen₁
      cases seen₁
    · exact earlier v w seen seen'
  · intro b b' v w seen seen' queued started ours
    rcases cases_ b' w seen' with ⟨_, rfl⟩ | seen'
    · cases started
    rcases cases_ b v seen with ⟨_, rfl⟩ | seen
    · have ⟨known_, different⟩ := known b' w seen'
      have le := worked.newest e q w.request member known_ (ours.symm.trans own)
      exact lt_of_le_of_ne le different
    · exact worked.queued_later b b' v w seen seen' queued started ours
  · intro b v seen queued
    rcases cases_ b v seen with ⟨_, rfl⟩ | seen
    · rfl
    · exact worked.queued_unshut b v seen queued
  · intro e' r w here known_ ours
    exact worked.newest e' r w (helds e' r here) (by simpa using known_) ours
  · show (waiting log ++ [q]).Pairwise _
    rw [pairwise_append]
    refine ⟨worked.waiting_order, pairwise_singleton _ _, ?_⟩
    intro w here q' last ours
    rw [mem_singleton] at last
    subst last
    have ⟨known_, different⟩ := waiters w here
    have le := worked.newest e q' w member known_ (ours.trans own)
    exact lt_of_le_of_ne le different

/-- The request that waits longest joins the work of its export in front. -/
theorem dispatch (worked : Worked view work held log) (seen : view a = some v)
    (queued : v.queued = true) (first : ∀ b w, view b = some w → w.queued = true → b ≠ a →
      w.request.export = v.request.export → v.request.id < w.request.id)
    (views : ∀ b, view' b = if b = a then some { v with queued := false } else view b)
    (works : work' = Function.update work v.request.export (a :: work v.request.export))
    (waits : (waiting log').Sublist (waiting log))
    (receipts : ∀ q, .received q ∈ log' → .received q ∈ log) : Worked view' work' held log' := by
  have unshut := worked.queued_unshut a v seen queued
  have cases_ : ∀ b w, view' b = some w →
      b = a ∧ w = { v with queued := false } ∨ b ≠ a ∧ view b = some w := by
    intro b w seen'
    rw [views] at seen'
    by_cases here : b = a
    · rw [if_pos here] at seen'
      cases seen'
      exact Or.inl ⟨here, rfl⟩
    · rw [if_neg here] at seen'
      exact Or.inr ⟨here, seen'⟩
  have idle : ∀ e, a ∉ work e := by
    intro e member
    have ⟨w, seen', _, started, _⟩ := (worked.mem_iff e a).1 member
    rw [seen] at seen'
    cases seen'
    rw [queued] at started
    cases started
  have mem_iff : ∀ e b, b ∈ work' e ↔
      ∃ w, view' b = some w ∧ w.request.export = e ∧ w.queued = false ∧ w.shut = false := by
    intro e b
    have inWork : b ∈ work' e ↔ b = a ∧ v.request.export = e ∨ b ∈ work e := by
      rw [works]
      by_cases same : e = v.request.export
      · subst same
        rw [update_self, mem_cons]
        simp
      · rw [update_of_ne same]
        have other : v.request.export ≠ e := fun equal => same equal.symm
        simp [other]
    rw [inWork, worked.mem_iff]
    constructor
    · rintro (⟨rfl, ours⟩ | ⟨w, seen', rest⟩)
      · exact ⟨{ v with queued := false }, by rw [views, if_pos rfl], ours, rfl, unshut⟩
      have other : b ≠ a := by
        rintro rfl
        exact idle e ((worked.mem_iff e b).2 ⟨w, seen', rest⟩)
      exact ⟨w, by rw [views, if_neg other]; exact seen', rest⟩
    · rintro ⟨w, seen', rest⟩
      rcases cases_ b w seen' with ⟨rfl, rfl⟩ | ⟨_, seen'⟩
      · exact Or.inl ⟨rfl, rest.1⟩
      · exact Or.inr ⟨w, seen', rest⟩
  refine ⟨mem_iff, ?_, ?_, ?_, ?_, worked.waiting_order.sublist waits⟩
  · intro e
    have oldSorted : (work e).Pairwise fun b b' =>
        ∀ w w', view' b = some w → view' b' = some w' → w'.request.id < w.request.id := by
      refine (worked.sorted e).imp_of_mem ?_
      intro b b' member member' earlier w w' seen₁ seen₂
      rcases cases_ b w seen₁ with ⟨rfl, _⟩ | ⟨_, seen₁⟩
      · exact absurd member (idle e)
      · rcases cases_ b' w' seen₂ with ⟨rfl, _⟩ | ⟨_, seen₂⟩
        · exact absurd member' (idle e)
        · exact earlier w w' seen₁ seen₂
    rw [works]
    by_cases same : e = v.request.export
    · subst same
      rw [update_self]
      refine pairwise_cons.2 ⟨?_, oldSorted⟩
      intro b member w w' seen₁ seen₂
      rw [views, if_pos rfl] at seen₁
      cases seen₁
      have ⟨_, seen₃, ours, started, _⟩ := (worked.mem_iff _ b).1 member
      rcases cases_ b w' seen₂ with ⟨rfl, _⟩ | ⟨_, seen₂⟩
      · exact absurd member (idle _)
      · rw [seen₃] at seen₂
        cases seen₂
        exact worked.queued_later a b v w' seen seen₃ queued started ours.symm
    · rw [update_of_ne same]
      exact oldSorted
  · intro b b' w w' seen₁ seen₂ queued₁ started₂ ours
    rcases cases_ b w seen₁ with ⟨_, rfl⟩ | ⟨other, seen₁⟩
    · cases queued₁
    · rcases cases_ b' w' seen₂ with ⟨_, rfl⟩ | ⟨_, seen₂⟩
      · exact first b w seen₁ queued₁ other ours
      · exact worked.queued_later b b' w w' seen₁ seen₂ queued₁ started₂ ours
  · intro b w seen' queued'
    rcases cases_ b w seen' with ⟨_, rfl⟩ | ⟨_, seen'⟩
    · exact unshut
    · exact worked.queued_unshut b w seen' queued'
  · intro e q w member known
    exact worked.newest e q w member (receipts w known)

/-- The work of one export is told to shut down. -/
theorem shut (worked : Worked view work held log) (e : Nat)
    (views : ∀ a, view' a =
      if a ∈ work e then (view a).map fun v => { v with shut := true } else view a)
    (works : work' = Function.update work e [])
    (helds : ∀ e q, q ∈ held' e → q ∈ held e) : Worked view' work' held' log := by
  have old : ∀ a v', view' a = some v' → ∃ v, view a = some v ∧ v'.request = v.request ∧
      v'.queued = v.queued ∧ (a ∈ work e ∨ v' = v) := by
    intro a v' seen
    rw [views] at seen
    by_cases member : a ∈ work e
    · rw [if_pos member, Option.map_eq_some_iff] at seen
      obtain ⟨v, seen, rfl⟩ := seen
      exact ⟨v, seen, rfl, rfl, Or.inl member⟩
    · rw [if_neg member] at seen
      exact ⟨v', seen, rfl, rfl, Or.inr rfl⟩
  constructor
  · intro e' a
    rw [works]
    by_cases same : e' = e
    · subst same
      rw [update_self]
      constructor
      · intro never
        cases never
      rintro ⟨v, seen, ours, started, unshut⟩
      by_cases member : a ∈ work e'
      · rw [views, if_pos member, Option.map_eq_some_iff] at seen
        obtain ⟨w, _, rfl⟩ := seen
        cases unshut
      · rw [views, if_neg member] at seen
        exact absurd ((worked.mem_iff e' a).2 ⟨v, seen, ours, started, unshut⟩) member
    · rw [update_of_ne same, worked.mem_iff]
      have apart : ∀ v, view a = some v → v.request.export = e' → a ∉ work e := by
        intro v seen ours member
        have ⟨w, seen', mine, _⟩ := (worked.mem_iff e a).1 member
        rw [seen] at seen'
        cases seen'
        exact same (ours.symm.trans mine)
      constructor
      · rintro ⟨v, seen, ours, rest⟩
        exact ⟨v, by rw [views, if_neg (apart v seen ours)]; exact seen, ours, rest⟩
      rintro ⟨v', seen', ours, rest⟩
      have ⟨v, seen, request, _, either⟩ := old a v' seen'
      rcases either with member | rfl
      · exact absurd member (apart v seen (request ▸ ours))
      · exact ⟨v', seen, ours, rest⟩
  · intro e'
    have oldSorted : (work e').Pairwise fun a b =>
        ∀ v w, view' a = some v → view' b = some w → w.request.id < v.request.id := by
      refine (worked.sorted e').imp ?_
      intro a b earlier v w seen seen'
      have ⟨v₀, seen, request, _⟩ := old a v seen
      have ⟨w₀, seen', request', _⟩ := old b w seen'
      rw [request, request']
      exact earlier v₀ w₀ seen seen'
    rw [works]
    by_cases same : e' = e
    · subst same
      rw [update_self]
      exact List.Pairwise.nil
    · rw [update_of_ne same]
      exact oldSorted
  · intro a b v w seen seen' queued started ours
    have ⟨v₀, seen, request, queued₀, _⟩ := old a v seen
    have ⟨w₀, seen', request', started₀, _⟩ := old b w seen'
    rw [request, request'] at ours ⊢
    exact worked.queued_later a b v₀ w₀ seen seen' (queued₀ ▸ queued) (started₀ ▸ started) ours
  · intro a v seen queued
    have ⟨_, seen, _, queued₀, either⟩ := old a v seen
    rcases either with member | rfl
    · have ⟨w, seen', _, started, _⟩ := (worked.mem_iff e a).1 member
      rw [seen] at seen'
      cases seen'
      rw [queued₀, started] at queued
      cases queued
    · exact worked.queued_unshut a v seen queued
  · intro e' q w member known
    exact worked.newest e' q w (helds e' q member) known
  · exact worked.waiting_order

end Worked

/-! ### Each step keeps the work -/

/-- What a shutdown leaves: only a closed export has slaves that are told to shut down, and
only these finish with flushes unanswered. No flush joins a request before it is started. -/
structure Closing (s : State) : Prop where
  shut_closed : ∀ a c, s.core a = some c → c.shut = true → s.proc c.request.export = .closed
  finished : ∀ a c, s.core a = some c → c.stage = .finished → c.flush = [] ∨ c.shut = true
  unstarted : ∀ a c, s.core a = some c → c.stage = .queued → c.flush = []

structure Busy (s : State) : Prop where
  situated : Situated s
  worked : Worked s.view s.work s.held s.log
  closing : Closing s

theorem busy_start (readonly : Nat → Bool) : Busy (start readonly) where
  situated := situated_start readonly
  worked := by
    constructor <;> simp [start, State.view, State.core, State.held, Proc.held, waiting]
  closing := by
    constructor <;> simp [start, State.core]

theorem State.view_of_core (cell : s.core a = some c) : s.view a = some c.view := by
  rw [State.view, cell]
  rfl

theorem State.core_of_view (seen : s.view a = some v) : ∃ c, s.core a = some c ∧ v = c.view := by
  have ⟨c, cell, same⟩ := Option.map_eq_some_iff.1 seen
  exact ⟨c, cell, same.symm⟩

private theorem view_update (cell : s.core a = some c)
    (core : ∀ b, t.core b = if b = a then some d else s.core b) (request : d.request = c.request)
    (started : c.stage ≠ .queued) (left : d.stage ≠ .queued) (still : d.shut = c.shut) (b : Addr) :
    t.view b = s.view b := by
  unfold State.view
  rw [core]
  by_cases here : b = a
  · subst here
    rw [if_pos rfl, cell]
    simp [Exq.view, request, started, left, still]
  · rw [if_neg here]

theorem waiting_abandoned (ids : List Nat) (log : List Event) :
    (waiting (ids.map Event.abandoned ++ log)).Sublist (waiting log) := by
  induction ids with
  | nil => exact List.Sublist.refl _
  | cons _ _ ih => exact filter_sublist.trans ih

theorem Strung.waiting_of_core {cells : List Addr} (strung : Strung s cells)
    (cell : s.core a = some c) (queued : c.stage = .queued) : c.request ∈ waiting s.log := by
  have member := strung.mem_of_core cell queued
  have inMap : (s.mem a).map Exq.request ∈ (waiting s.log).map some := by
    rw [← strung.requests]
    exact mem_map_of_mem member
  obtain ⟨_, found, rfl⟩ := State.mem_of_core cell
  rw [found] at inMap
  simpa using inMap

theorem Strung.core_of_waiting {cells : List Addr} (strung : Strung s cells)
    (member : q ∈ waiting s.log) :
    ∃ a c, s.core a = some c ∧ c.stage = .queued ∧ c.request = q := by
  have inMap : some q ∈ (waiting s.log).map some := mem_map_of_mem member
  rw [← strung.requests] at inMap
  have ⟨a, here, same⟩ := mem_map.1 inMap
  have ⟨_, _, entry⟩ := strung.entry_of_mem here
  rw [State.request_of_entry entry] at same
  cases same
  have ⟨c, cell, queued, request⟩ := State.core_of_entry entry
  exact ⟨a, c, cell, queued, request⟩

theorem Effect.worked {cells : List Addr} (effect : Effect s t) (busy : Busy s)
    (sound : Sound s cells) : Worked t.view t.work t.held t.log := by
  have worked := busy.worked
  have placed := busy.situated.placed
  have heldSame (proc : t.proc = s.proc) (e : Nat) (q : Request) (member : q ∈ t.held e) :
      q ∈ s.held e := by
    rwa [held_of_same proc] at member
  have sameViews : (∀ a, t.core a = s.core a) → ∀ a, t.view a = s.view a := by
    intro core a
    rw [State.view, State.view, core]
  cases effect with
  | receive q _ fresh _ core work proc log =>
    have heldEq : t.held = Function.update s.held q.export [q] := by
      funext e
      rw [held_update proc, update_apply]
      rfl
    rw [funext (sameViews core), work, heldEq, log]
    exact worked.receive q fun w known => fresh ▸ placed.below w known
  | hangup _ _ _ core work proc log =>
    rw [work, log]
    exact worked.same (sameViews core) (held_of_update proc (by simp [Proc.held])) (fun _ => id) rfl
  | refuse _ _ _ _ _ core work proc log =>
    rw [work, log]
    exact worked.same (sameViews core) (held_of_update proc (by simp [Proc.held])) (by simp) rfl
  | accept e q a read _ unused _ core work proc log =>
    have member : q ∈ s.held e := by simp [State.held, read, Proc.held]
    rw [work, log]
    refine worked.accept member (placed.held_received e q member).2 (a := a) ?_ ?_ ?_ ?_
      (held_of_update proc (by simp [Proc.held]))
    · rw [State.view, unused]
      rfl
    · intro b v seen
      obtain ⟨c, cell, rfl⟩ := State.core_of_view seen
      refine ⟨(placed.cell_received b c cell).1, fun same => ?_⟩
      refine (placed.held_apart e q b c member cell).1 ?_
      exact (placed.unique _ _ (placed.cell_received b c cell).1
        (placed.held_received e q member).1 same).symm
    · intro _ waits
      obtain ⟨b, c, cell, _, rfl⟩ := sound.strung.core_of_waiting waits
      refine ⟨(placed.cell_received b c cell).1, fun same => ?_⟩
      refine (placed.held_apart e q b c member cell).1 ?_
      exact (placed.unique _ _ (placed.cell_received b c cell).1
        (placed.held_received e q member).1 same).symm
    · intro b
      unfold State.view
      rw [core]
      by_cases here : b = a
      · rw [if_pos here, if_pos here]
        rfl
      · rw [if_neg here, if_neg here]
  | discard e fq a _ read _ cell queued _ _ core work proc log =>
    have member : fq ∈ s.held e := by simp [State.held, read, Proc.held]
    rw [work, log]
    refine worked.remove ?_ (fun _ => List.Sublist.refl _) ?_
      (held_of_update proc (by simpa [Proc.held] using member)) (by simp) filter_sublist
    · intro b
      unfold State.view
      rw [core]
      by_cases here : b = a
      · exact Or.inr (by rw [if_pos here]; rfl)
      · exact Or.inl (by rw [if_neg here])
    intro e' b inWork
    obtain ⟨v, seen, _, started, _⟩ := (worked.mem_iff e' b).1 inWork
    obtain ⟨d, cell', rfl⟩ := State.core_of_view seen
    have other : b ≠ a := by
      rintro rfl
      rw [cell] at cell'
      cases cell'
      simp [Exq.view, queued] at started
    simp [inWork, State.view, core, other, cell']
  | unfound e fq read _ _ _ core work proc log =>
    have member : fq ∈ s.held e := by simp [State.held, read, Proc.held]
    rw [work, log]
    exact worked.same (sameViews core) (held_of_update proc (by simpa [Proc.held] using member))
      (fun _ => id) rfl
  | join e _ a c _ first cell _ _ core work proc log =>
    obtain ⟨v, seen, _, started, _⟩ := (worked.mem_iff e a).1 (mem_of_find?_eq_some first)
    obtain ⟨_, cell', rfl⟩ := State.core_of_view seen
    rw [cell] at cell'
    cases cell'
    have running : c.stage ≠ .queued := by simpa [Exq.view] using started
    rw [work, log]
    exact worked.same (view_update cell core rfl running running rfl)
      (held_of_update proc (by simp [Proc.held])) (fun _ => id) rfl
  | late e fq search _ _ core work proc log =>
    have member : fq ∈ s.held e := by simp [State.held, search, Proc.held]
    rw [work, log]
    exact worked.same (sameViews core) (held_of_update proc (by simpa [Proc.held] using member))
      (fun _ => id) rfl
  | answer _ _ _ _ core work proc log =>
    rw [work, log]
    exact worked.same (sameViews core) (held_of_update proc (by simp [Proc.held])) (by simp) rfl
  | sweep e ids _ _ gone kept work proc log =>
    have cases_ : ∀ a, (∃ c, s.core a = some c ∧ c.stage = .queued ∧ t.core a = none) ∨
        t.core a = s.core a := by
      intro a
      by_cases ours : ∃ c, s.core a = some c ∧ c.stage = .queued ∧ c.request.export = e
      · obtain ⟨c, cell, queued, mine⟩ := ours
        exact Or.inl ⟨c, cell, queued, gone a c cell queued mine⟩
      · exact Or.inr (kept a fun c cell queued mine => ours ⟨c, cell, queued, mine⟩)
    rw [work]
    refine worked.remove ?_ (fun _ => List.Sublist.refl _) ?_
      (held_of_update proc (by simp [Proc.held])) (by simp [log]) ?_
    · intro a
      rcases cases_ a with ⟨_, _, _, empty⟩ | same
      · exact Or.inr (by rw [State.view, empty]; rfl)
      · exact Or.inl (by rw [State.view, State.view, same])
    · intro e' a inWork
      obtain ⟨v, seen, _, started, _⟩ := (worked.mem_iff e' a).1 inWork
      obtain ⟨d, cell', rfl⟩ := State.core_of_view seen
      rcases cases_ a with ⟨c, cell, queued, _⟩ | same
      · rw [cell] at cell'
        cases cell'
        simp [Exq.view, queued] at started
      · simp [inWork, State.view, same, cell']
    · rw [log]
      exact waiting_abandoned ids s.log
  | shut e _ _ core work proc log =>
    rw [log]
    refine worked.shut e ?_ work (held_of_update proc (by simp [Proc.held]))
    intro a
    unfold State.view
    rw [core]
    by_cases member : a ∈ s.work e
    · rw [if_pos member, if_pos member, Option.map_map, Option.map_map]
      rfl
    · rw [if_neg member, if_neg member]
  | dispatch a c cell queued longest _ core work proc log =>
    obtain ⟨_, waits⟩ := longest
    refine (worked.dispatch (State.view_of_core cell) (by simp [Exq.view, queued]) ?_ ?_ work
      ?_ (by simp [log])).same (fun _ => rfl) (heldSame proc) (fun _ => id) rfl
    · intro b v seen queued' other ours
      obtain ⟨d, cell', rfl⟩ := State.core_of_view seen
      have member := sound.strung.waiting_of_core cell' (by simpa [Exq.view] using queued')
      have order := worked.waiting_order
      rw [waits] at member order
      rcases mem_cons.1 member with same | later
      · exact absurd (placed.cell_unique b a d c cell' cell same) other
      · exact (pairwise_cons.1 order).1 d.request later ours.symm
    · intro b
      unfold State.view
      rw [core]
      by_cases here : b = a
      · rw [if_pos here, if_pos here]
        simp [Exq.view]
      · rw [if_neg here, if_neg here]
    · rw [log]
      exact filter_sublist
  | slave a c d cell started request still left pending unreplied dropped finished received core
      work proc log =>
      rw [work, log]
      exact worked.same (view_update cell core request started left still) (heldSame proc)
        (fun _ => id) rfl
  | reply _ _ _ cell replying _ core work proc log =>
    rw [work, log]
    exact worked.same (view_update cell core rfl (by simp [replying]) (by simp) rfl)
      (heldSame proc) (by simp) rfl
  | replyFlush _ _ _ cell flushing _ core work proc log =>
    rw [work, log]
    exact worked.same (view_update cell core rfl (by simp [flushing]) (by simp) rfl)
      (heldSame proc) (by simp) rfl
  | finish a c cell _ _ core work proc log =>
    rw [log]
    refine worked.remove ?_ ?_ ?_ (heldSame proc) (fun _ => id) (List.Sublist.refl _)
    · intro b
      unfold State.view
      rw [core]
      by_cases here : b = a
      · exact Or.inr (by rw [if_pos here]; rfl)
      · exact Or.inl (by rw [if_neg here])
    · intro e
      rw [work]
      by_cases same : e = c.request.export
      · subst same
        rw [update_self]
        exact erase_sublist
      · rw [update_of_ne same]
    intro e b inWork
    obtain ⟨_, seen, mine, _, _⟩ := (worked.mem_iff e b).1 inWork
    obtain ⟨_, cell', rfl⟩ := State.core_of_view seen
    rw [work]
    by_cases here : b = a
    · subst here
      rw [cell] at cell'
      cases cell'
      have ours : e = c.request.export := mine.symm
      subst ours
      rw [update_self, (worked.nodup _).mem_erase_iff]
      simp [State.view, core]
    have kept : b ∈ Function.update s.work c.request.export
        ((s.work c.request.export).erase a) e := by
      by_cases same : e = c.request.export
      · subst same
        rw [update_self, (worked.nodup _).mem_erase_iff]
        exact ⟨here, inWork⟩
      · rw [update_of_ne same]
        exact inWork
    simp [kept, State.view, core, here, cell']

theorem Effect.closed (effect : Effect s t) (closed : s.proc e = .closed) : t.proc e = .closed := by
  cases effect.moves with
  | connection e' _ proc alive _ =>
    have other : e ≠ e' := fun same => alive (same ▸ closed)
    rw [proc, update_of_ne other, closed]
  | slave proc => rw [proc, closed]

/-- Where the requests of the next state come from. -/
theorem Effect.cells (effect : Effect s t) (cell : t.core a = some d) :
    (∃ e q, s.proc e = .read q ∧ d = ⟨q, none, [], false, .queued⟩) ∨
      ∃ c, s.core a = some c ∧ d.request = c.request ∧
        (d.shut = c.shut ∨ ∃ e, a ∈ s.work e ∧ t.proc e = .closed) ∧
        (d.stage = .finished → c.stage = .finished ∧ d.flush = c.flush ∨
          d.flush = [] ∨ d.shut = true) ∧
        (d.stage = .queued → c.stage = .queued ∧ (d.flush = c.flush ∨ ∃ e, a ∈ s.work e)) := by
  have same : ∀ c, s.core a = some c → t.core a = s.core a →
      ∃ c, s.core a = some c ∧ d.request = c.request ∧
        (d.shut = c.shut ∨ ∃ e, a ∈ s.work e ∧ t.proc e = .closed) ∧
        (d.stage = .finished → c.stage = .finished ∧ d.flush = c.flush ∨
          d.flush = [] ∨ d.shut = true) ∧
        (d.stage = .queued → c.stage = .queued ∧ (d.flush = c.flush ∨ ∃ e, a ∈ s.work e)) := by
    intro c old kept
    rw [kept, old] at cell
    cases cell
    exact ⟨d, old, rfl, Or.inl rfl, fun finished => Or.inl ⟨finished, rfl⟩,
      fun queued => ⟨queued, Or.inl rfl⟩⟩
  have kept : t.core a = s.core a → _ := fun kept => same d (kept ▸ cell) kept
  cases effect with
  | receive _ _ _ _ core _ _ _ => exact Or.inr (kept (core a))
  | hangup _ _ _ core _ _ _ => exact Or.inr (kept (core a))
  | refuse _ _ _ _ _ core _ _ _ => exact Or.inr (kept (core a))
  | accept e q b read _ _ _ core _ _ _ =>
    by_cases here : a = b
    · rw [core, if_pos here] at cell
      cases cell
      exact Or.inl ⟨e, q, read, rfl⟩
    · exact Or.inr (kept (by rw [core, if_neg here]))
  | discard _ _ b _ _ _ _ _ _ _ core _ _ _ =>
    by_cases here : a = b
    · rw [core, if_pos here] at cell
      cases cell
    · exact Or.inr (kept (by rw [core, if_neg here]))
  | unfound _ _ _ _ _ _ core _ _ _ => exact Or.inr (kept (core a))
  | join e _ b c _ first old unfinished _ core _ _ _ =>
    by_cases here : a = b
    · rw [core, if_pos here] at cell
      cases cell
      exact Or.inr ⟨c, here ▸ old, rfl, Or.inl rfl, fun done => absurd done unfinished,
        fun queued => ⟨queued, Or.inr ⟨e, here ▸ mem_of_find?_eq_some first⟩⟩⟩
    · exact Or.inr (kept (by rw [core, if_neg here]))
  | late _ _ _ _ _ core _ _ _ => exact Or.inr (kept (core a))
  | answer _ _ _ _ core _ _ _ => exact Or.inr (kept (core a))
  | sweep e _ _ _ gone stays _ _ _ =>
    by_cases ours : ∃ c, s.core a = some c ∧ c.stage = .queued ∧ c.request.export = e
    · have ⟨c, old, queued, mine⟩ := ours
      rw [gone a c old queued mine] at cell
      cases cell
    · exact Or.inr (kept (stays a fun c old queued mine => ours ⟨c, old, queued, mine⟩))
  | shut e _ _ core _ proc _ =>
    by_cases member : a ∈ s.work e
    · rw [core, if_pos member, Option.map_eq_some_iff] at cell
      obtain ⟨c, old, rfl⟩ := cell
      refine Or.inr ⟨c, old, rfl, Or.inr ⟨e, member, ?_⟩, fun _ => Or.inr (Or.inr rfl),
        fun queued => ⟨queued, Or.inl rfl⟩⟩
      rw [proc, update_self]
    · exact Or.inr (kept (by rw [core, if_neg member]))
  | dispatch b c old _ _ _ core _ _ _ =>
    by_cases here : a = b
    · rw [core, if_pos here] at cell
      cases cell
      exact Or.inr ⟨c, here ▸ old, rfl, Or.inl rfl, by simp, by simp⟩
    · exact Or.inr (kept (by rw [core, if_neg here]))
  | slave b c d' old started request still left pending unreplied dropped finished received core
      work proc log =>
      by_cases here : a = b
      · rw [core, if_pos here] at cell
        cases cell
        exact Or.inr ⟨c, here ▸ old, request, Or.inl still, fun done => Or.inr (finished done),
          fun queued => absurd queued left⟩
      · exact Or.inr (kept (by rw [core, if_neg here]))
  | reply b c _ old _ _ core _ _ _ =>
    by_cases here : a = b
    · rw [core, if_pos here] at cell
      cases cell
      exact Or.inr ⟨c, here ▸ old, rfl, Or.inl rfl, by simp, by simp⟩
    · exact Or.inr (kept (by rw [core, if_neg here]))
  | replyFlush b c _ old _ _ core _ _ _ =>
    by_cases here : a = b
    · rw [core, if_pos here] at cell
      cases cell
      exact Or.inr ⟨c, here ▸ old, rfl, Or.inl rfl, by simp, by simp⟩
    · exact Or.inr (kept (by rw [core, if_neg here]))
  | finish b _ _ _ _ core _ _ _ =>
    by_cases here : a = b
    · rw [core, if_pos here] at cell
      cases cell
    · exact Or.inr (kept (by rw [core, if_neg here]))

theorem Effect.closing (effect : Effect s t) (busy : Busy s) : Closing t where
  shut_closed a d cell shut := by
    rcases effect.cells cell with ⟨e, q, _, rfl⟩ | ⟨c, old, request, either, _⟩
    · cases shut
    rw [request]
    rcases either with still | ⟨e, member, closed⟩
    · exact effect.closed (busy.closing.shut_closed a c old (still ▸ shut))
    have ⟨v, seen, mine, _⟩ := (busy.worked.mem_iff e a).1 member
    obtain ⟨c', cell', rfl⟩ := State.core_of_view seen
    rw [old] at cell'
    cases cell'
    have ours : c.request.export = e := mine
    rw [ours]
    exact closed
  finished a d cell done := by
    rcases effect.cells cell with ⟨e, q, _, rfl⟩ | ⟨c, old, _, either, finished⟩
    · cases done
    rcases finished.1 done with ⟨before, same⟩ | left
    · rcases busy.closing.finished a c old before with empty | shut
      · exact Or.inl (same.trans empty)
      rcases either with still | ⟨e, member, _⟩
      · exact Or.inr (still.trans shut)
      have ⟨v, seen, _, _, unshut⟩ := (busy.worked.mem_iff e a).1 member
      obtain ⟨c', cell', rfl⟩ := State.core_of_view seen
      rw [old] at cell'
      cases cell'
      have never : c.shut = false := unshut
      rw [shut] at never
      cases never
    · exact left
  unstarted a d cell queued := by
    rcases effect.cells cell with ⟨e, q, _, rfl⟩ | ⟨c, old, _, _, _, unstarted⟩
    · rfl
    have ⟨before, either⟩ := unstarted queued
    rcases either with same | ⟨e, member⟩
    · exact same.trans (busy.closing.unstarted a c old before)
    have ⟨_, seen, _, started, _⟩ := (busy.worked.mem_iff e a).1 member
    obtain ⟨_, cell', rfl⟩ := State.core_of_view seen
    rw [old] at cell'
    cases cell'
    simp [Exq.view, before] at started

theorem Effect.busy {cells : List Addr} (effect : Effect s t) (busy : Busy s)
    (sound : Sound s cells) : Busy t :=
  ⟨effect.situated busy.situated, effect.worked busy sound, effect.closing busy⟩

end Infernode.Exportq
