import Infernode.Emu.Exq

/-!
The queue of waiting requests as a list.

Owns: the requests that wait according to the log, what it means that the list in memory is
these requests in order with the tail at its end, and what `exportproc`, `exflushed` and
`exshutdown` do to that list.
-/

namespace Infernode.Exportq

open Links Runs List Function

/-- The accepted requests that are neither dispatched, flushed nor shut down, in the order of
their arrival. -/
def waiting : List Event → List Request
  | [] => []
  | .accepted q :: older => waiting older ++ [q]
  | .dispatched id :: older => (waiting older).filter (·.id ≠ id)
  | .discarded id :: older => (waiting older).filter (·.id ≠ id)
  | .abandoned id :: older => (waiting older).filter (·.id ≠ id)
  | .received _ :: older => waiting older
  | .sent _ _ :: older => waiting older

/-- The list from `exq.head` is `cells`, these hold the waiting requests in order, and
`exq.tail` is the last of them. -/
structure Queued (s : State) (cells : List Addr) : Prop where
  chained : Chained s.link none cells
  requests : cells.map (fun a => (s.mem a).map Exq.request) = (waiting s.log).map some
  tail : cells ≠ [] → s.tail = cells.getLast?

def InOrder (s : State) : Prop := ∃ cells, Queued s cells

def State.entry (s : State) (a : Addr) : Option (Request × Option Addr) :=
  match s.mem a with
  | some c => if c.stage = .queued then some (c.request, c.next) else none
  | none => none

/-- The list from the head is `cells`, these hold the waiting requests, and no other address
holds a request that waits. -/
structure Strung (s : State) (cells : List Addr) : Prop where
  chained : Chained s.link none cells
  requests : cells.map (fun a => (s.mem a).map Exq.request) = (waiting s.log).map some
  queued : ∀ a, a ∈ cells ↔ (s.entry a).isSome

def Tailed (s : State) (cells : List Addr) : Prop := cells ≠ [] → s.tail = cells.getLast?

/-! ### Entries -/

variable {s after t : State} {a : Addr} {q : Request} {next : Option Addr}
    {cells front back : List Addr}

theorem State.entry_eq_some :
    s.entry a = some (q, next) ↔
      ∃ c, s.mem a = some c ∧ c.stage = .queued ∧ c.request = q ∧ c.next = next := by
  unfold State.entry
  cases s.mem a with
  | none => simp
  | some c => by_cases queued : c.stage = .queued <;> simp [queued]

theorem State.link_of_entry (entry : s.entry a = some (q, next)) : s.link (some a) = next := by
  obtain ⟨_, found, _, _, rfl⟩ := State.entry_eq_some.1 entry
  simp [State.link, found]

theorem State.request_of_entry (entry : s.entry a = some (q, next)) :
    (s.mem a).map Exq.request = some q := by
  obtain ⟨_, found, _, rfl, _⟩ := State.entry_eq_some.1 entry
  simp [found]

theorem Strung.entry_of_mem (strung : Strung s cells) (member : a ∈ cells) :
    ∃ q next, s.entry a = some (q, next) := by
  have ⟨⟨q, next⟩, entry⟩ := Option.isSome_iff_exists.1 ((strung.queued a).1 member)
  exact ⟨q, next, entry⟩

theorem Strung.length_eq (strung : Strung s cells) : cells.length = (waiting s.log).length := by
  have lengths := congrArg List.length strung.requests
  simpa using lengths

theorem Strung.frame (strung : Strung s cells) (head : after.head = s.head)
    (entries : ∀ a, after.entry a = s.entry a) (waits : waiting after.log = waiting s.log) :
    Strung after cells := by
  have links : ∀ a ∈ cells, after.link (some a) = s.link (some a) := by
    intro a member
    have ⟨q, next, entry⟩ := strung.entry_of_mem member
    rw [State.link_of_entry entry, State.link_of_entry ((entries a).trans entry)]
  have slots : ∀ front back, cells = front ++ back →
      after.link (endSlot none front) = s.link (endSlot none front) := by
    intro front back split
    rcases endSlot_eq none front with same | ⟨a, member, same⟩
    · rw [same]
      exact head
    · rw [same]
      exact links a (by rw [split]; exact mem_append_left _ member)
  refine ⟨⟨?_, ?_⟩, ?_, ?_⟩
  · exact strung.chained.1.congr fun front cell back split => slots front _ split
  · rw [slots cells [] (by simp)]
    exact strung.chained.2
  · rw [waits, ← strung.requests]
    apply map_congr_left
    intro a member
    have ⟨_, _, entry⟩ := strung.entry_of_mem member
    rw [State.request_of_entry entry, State.request_of_entry ((entries a).trans entry)]
  · intro a
    rw [entries]
    exact strung.queued a

/-! ### Links after a write -/

theorem State.link_setLink {slot value : Option Addr}
    (allocated : ∀ a, slot = some a → (s.mem a).isSome) :
    (s.setLink slot value).link = Function.update s.link slot value := by
  funext other
  cases slot with
  | none => cases other <;> simp [State.setLink, State.link]
  | some a =>
    have ⟨_, found⟩ := Option.isSome_iff_exists.1 (allocated a rfl)
    cases other with
    | none => simp [State.setLink, State.modify, State.link]
    | some b =>
      by_cases same : b = a
      · subst same
        simp [State.setLink, State.modify, State.link, found]
      · simp [State.setLink, State.modify, State.link, same]

@[simp] theorem State.setLink_tail (s : State) (slot value : Option Addr) :
    (s.setLink slot value).tail = s.tail := by
  cases slot <;> rfl

@[simp] theorem State.setLink_log (s : State) (slot value : Option Addr) :
    (s.setLink slot value).log = s.log := by
  cases slot <;> rfl

@[simp] theorem State.setLink_proc (s : State) (slot value : Option Addr) :
    (s.setLink slot value).proc = s.proc := by
  cases slot <;> rfl

@[simp] theorem State.setLink_work (s : State) (slot value : Option Addr) :
    (s.setLink slot value).work = s.work := by
  cases slot <;> rfl

@[simp] theorem State.setLink_received (s : State) (slot value : Option Addr) :
    (s.setLink slot value).received = s.received := by
  cases slot <;> rfl

@[simp] theorem State.setLink_readonly (s : State) (slot value : Option Addr) :
    (s.setLink slot value).readonly = s.readonly := by
  cases slot <;> rfl

theorem State.link_free (s : State) (a : Addr) :
    (s.free a).link = Function.update s.link (some a) none := by
  funext other
  cases other with
  | none => simp [State.free, State.link]
  | some b =>
    by_cases same : b = a
    · subst same
      simp [State.free, State.link]
    · simp [State.free, State.link, same]

theorem State.link_alloc (s : State) (a : Addr) (c : Exq) :
    (s.alloc a c).link = Function.update s.link (some a) c.next := by
  funext other
  cases other with
  | none => simp [State.alloc, State.link]
  | some b =>
    by_cases same : b = a
    · subst same
      simp [State.alloc, State.link]
    · simp [State.alloc, State.link, same]

theorem State.request_setLink (s : State) (slot value : Option Addr) (a : Addr) :
    ((s.setLink slot value).mem a).map Exq.request = (s.mem a).map Exq.request := by
  cases slot with
  | none => rfl
  | some b =>
    by_cases same : a = b
    · subst same
      simp [State.setLink, State.modify, comp_def]
    · simp [State.setLink, State.modify, same]

theorem State.entry_setLink_isSome (s : State) (slot value : Option Addr) (a : Addr) :
    ((s.setLink slot value).entry a).isSome = (s.entry a).isSome := by
  cases slot with
  | none => rfl
  | some b =>
    by_cases same : a = b
    · subst same
      cases found : s.mem a with
      | none => simp [State.setLink, State.modify, State.entry, found]
      | some c =>
        by_cases queued : c.stage = .queued <;>
          simp [State.setLink, State.modify, State.entry, found, queued]
    · simp [State.setLink, State.modify, State.entry, same]

/-! ### Appending and removing -/

/-- The slot that `exportproc` appends to is the end of the list. -/
theorem Strung.append_slot (strung : Strung s cells) (tailed : Tailed s cells) :
    (if s.head = none then none else s.tail) = endSlot none cells := by
  cases cells with
  | nil =>
    have empty : s.head = none := chained_nil.1 strung.chained
    rw [if_pos empty]
    rfl
  | cons first _ =>
    have head : s.head = some first := (chained_cons.1 strung.chained).1
    rw [if_neg (by simp [head]), tailed (by simp), endSlot_none]

theorem Strung.enqueue (strung : Strung s cells) (tailed : Tailed s cells) (unused : s.mem a = none)
    (q : Request) :
    Strung ((enqueue s a q).emit (.accepted q)) (cells ++ [a]) ∧
      Tailed ((enqueue s a q).emit (.accepted q)) (cells ++ [a]) := by
  have fresh : a ∉ cells := by
    intro member
    have ⟨q', next, entry⟩ := strung.entry_of_mem member
    have ⟨c, found, _⟩ := State.entry_eq_some.1 entry
    rw [unused] at found
    cases found
  have slot := strung.append_slot tailed
  set cell : Exq := ⟨q, none, [], false, .queued⟩ with cell_eq
  have shape : (Exportq.enqueue s a q).emit (.accepted q) =
      { (((s.alloc a cell).setLink (endSlot none cells) (some a)).setLink (some a) none) with
        tail := some a, log := .accepted q :: s.log } := by
    have same : (if (s.alloc a cell).head = none then none else (s.alloc a cell).tail) =
        endSlot none cells := slot
    unfold Exportq.enqueue
    simp only [← cell_eq, same, State.emit]
    cases endSlot none cells <;> rfl
  have allocated : ∀ b, endSlot none cells = some b → ((s.alloc a cell).mem b).isSome := by
    intro b ends
    rcases endSlot_eq none cells with none_ | ⟨c, member, same⟩
    · rw [ends] at none_
      cases none_
    rw [ends] at same
    cases same
    have ⟨_, _, entry⟩ := strung.entry_of_mem member
    have ⟨_, found, _⟩ := State.entry_eq_some.1 entry
    have other : b ≠ a := fun same => fresh (same ▸ member)
    simp [State.alloc, other, found]
  have allocated' : ∀ b, (some a : Option Addr) = some b →
      (((s.alloc a cell).setLink (endSlot none cells) (some a)).mem b).isSome := by
    intro b same
    cases same
    have kept := State.request_setLink (s.alloc a cell) (endSlot none cells) (some a) a
    have here : (s.alloc a cell).mem a = some cell := by simp [State.alloc]
    rw [here] at kept
    cases found : ((s.alloc a cell).setLink (endSlot none cells) (some a)).mem a with
    | none =>
      rw [found] at kept
      cases kept
    | some _ => rfl
  rw [shape]
  refine ⟨⟨?_, ?_, ?_⟩, ?_⟩
  · have links : (((s.alloc a cell).setLink (endSlot none cells) (some a)).setLink (some a) none).link
        = _ := State.link_setLink allocated'
    rw [State.link_setLink allocated, State.link_alloc] at links
    have base : Chained (Function.update s.link (some a) cell.next) none cells :=
      strung.chained.update (by simp) (by
        intro other member same
        cases same
        exact fresh member)
    have chained := base.append fresh
    rw [← links] at chained
    exact chained
  · have waits : waiting (.accepted q :: s.log) = waiting s.log ++ [q] := rfl
    simp only [waits, map_append, ← strung.requests, map_cons, map_nil,
      State.request_setLink]
    congr 1
    · apply map_congr_left
      intro b member
      have other : b ≠ a := fun same => fresh (same ▸ member)
      simp [State.alloc, other]
    · simp [State.alloc, cell_eq]
  · intro b
    have kept : ∀ t : State, ({ t with tail := some a, log := .accepted q :: s.log } : State).entry b
        = t.entry b := fun _ => rfl
    rw [kept, State.entry_setLink_isSome, State.entry_setLink_isSome]
    by_cases same : b = a
    · subst same
      simp [State.alloc, State.entry, cell_eq]
    have entry : (s.alloc a cell).entry b = s.entry b := by
      simp [State.alloc, State.entry, same]
    rw [entry, ← strung.queued b]
    simp [same]
  · intro _
    simp

/-- Among requests with distinct numbers, dropping one by its number leaves the others. -/
theorem filter_split {front back : List Request}
    (distinct : ((front ++ q :: back).map Request.id).Nodup) :
    (front ++ q :: back).filter (·.id ≠ q.id) = front ++ back := by
  rw [map_append, map_cons, nodup_append, nodup_cons] at distinct
  have ⟨_, ⟨absent, _⟩, apart⟩ := distinct
  have keepFront : front.filter (·.id ≠ q.id) = front := by
    apply filter_eq_self.2
    intro other member
    have different := apart other.id (mem_map_of_mem member) q.id (by simp)
    simpa using different
  have keepBack : back.filter (·.id ≠ q.id) = back := by
    apply filter_eq_self.2
    intro other member
    have different : other.id ≠ q.id := fun same => absent (same ▸ mem_map_of_mem member)
    simpa using different
  rw [filter_append, filter_cons_of_neg (by simp), keepFront, keepBack]

theorem Strung.split (strung : Strung s (front ++ a :: back)) (entry : s.entry a = some (q, next)) :
    ∃ before behind, waiting s.log = before ++ q :: behind ∧
      front.map (fun b => (s.mem b).map Exq.request) = before.map some ∧
      back.map (fun b => (s.mem b).map Exq.request) = behind.map some := by
  have split := strung.requests
  rw [map_append, map_cons, State.request_of_entry entry] at split
  have ⟨before, rest, waits_eq, front_eq, rest_eq⟩ := append_eq_map_iff.1 split
  cases rest with
  | nil => cases rest_eq
  | cons _ behind =>
    rw [map_cons, List.cons.injEq] at rest_eq
    have ⟨same, back_eq⟩ := rest_eq
    cases same
    exact ⟨before, behind, waits_eq, front_eq.symm, back_eq.symm⟩

/-- What is left of the list when one of its requests is taken out. -/
theorem Strung.remove (strung : Strung s (front ++ a :: back))
    (distinct : ((waiting s.log).map Request.id).Nodup) (entry : s.entry a = some (q, next))
    (links : ∀ slot, slot ≠ some a →
      after.link slot = Function.update s.link (endSlot none front) next slot)
    (requests : ∀ b, b ≠ a → (after.mem b).map Exq.request = (s.mem b).map Exq.request)
    (gone : after.entry a = none)
    (entries : ∀ b, b ≠ a → (after.entry b).isSome = (s.entry b).isSome)
    (waits : waiting after.log = (waiting s.log).filter (·.id ≠ q.id)) :
    Strung after (front ++ back) := by
  have nodup := strung.chained.nodup
  have absent : a ∉ front ++ back := by
    intro member
    rw [nodup_append, nodup_cons] at nodup
    rcases mem_append.1 member with inFront | inBack
    · exact nodup.2.2 a inFront a (by simp) rfl
    · exact nodup.2.1.1 inBack
  constructor
  · have chained := strung.chained.unlink (by simp)
    rw [State.link_of_entry entry] at chained
    have outside : ∀ part rest, front ++ back = part ++ rest → endSlot none part ≠ some a := by
      intro part rest split
      rcases endSlot_eq none part with same | ⟨b, member, same⟩
      · rw [same]
        simp
      rw [same]
      intro equal
      cases equal
      exact absent (by rw [split]; exact mem_append_left _ member)
    refine ⟨chained.1.congr fun part b rest split => links _ (outside part _ split), ?_⟩
    rw [links _ (outside _ [] (by simp))]
    exact chained.2
  · have ⟨_, _, waits_eq, front_eq, back_eq⟩ := strung.split entry
    rw [waits, waits_eq, filter_split (waits_eq ▸ distinct), map_append, map_append,
      ← front_eq, ← back_eq]
    congr 1
    · apply map_congr_left
      intro b member
      exact requests b fun same => absent (by simp [← same, member])
    · apply map_congr_left
      intro b member
      exact requests b fun same => absent (by simp [← same, member])
  · intro b
    by_cases same : b = a
    · subst same
      simp [gone, absent]
    · rw [entries b same, ← strung.queued b]
      simp [same]

/-! ### Unlinking -/

/-- What an address holds, but for the link. -/
def State.core (s : State) (a : Addr) : Option Exq :=
  (s.mem a).map fun c => { c with next := none }

theorem State.core_setLink (s : State) (slot value : Option Addr) (a : Addr) :
    (s.setLink slot value).core a = s.core a := by
  cases slot with
  | none => rfl
  | some b =>
    by_cases same : a = b
    · subst same
      simp [State.core, State.setLink, State.modify, comp_def]
    · simp [State.core, State.setLink, State.modify, same]

@[simp] theorem State.unlink_tail (s : State) (last : Option Addr) (a : Addr) :
    (s.unlink last a).tail = s.tail :=
  State.setLink_tail s last _

@[simp] theorem State.unlink_log (s : State) (last : Option Addr) (a : Addr) :
    (s.unlink last a).log = s.log :=
  State.setLink_log s last _

@[simp] theorem State.unlink_proc (s : State) (last : Option Addr) (a : Addr) :
    (s.unlink last a).proc = s.proc :=
  State.setLink_proc s last _

@[simp] theorem State.unlink_work (s : State) (last : Option Addr) (a : Addr) :
    (s.unlink last a).work = s.work :=
  State.setLink_work s last _

@[simp] theorem State.unlink_received (s : State) (last : Option Addr) (a : Addr) :
    (s.unlink last a).received = s.received :=
  State.setLink_received s last _

@[simp] theorem State.unlink_readonly (s : State) (last : Option Addr) (a : Addr) :
    (s.unlink last a).readonly = s.readonly :=
  State.setLink_readonly s last _

theorem State.core_unlink (s : State) (last : Option Addr) (a b : Addr) :
    (s.unlink last a).core b = if b = a then none else s.core b := by
  by_cases same : b = a
  · subst same
    simp [State.unlink, State.core, State.free]
  · have kept : (s.unlink last a).core b = (s.setLink last (s.link (some a))).core b := by
      simp [State.unlink, State.core, State.free, same]
    rw [kept, State.core_setLink, if_neg same]

theorem State.request_of_core {b : Addr} (same : s.core a = t.core b) :
    (s.mem a).map Exq.request = (t.mem b).map Exq.request := by
  have requests := congrArg (Option.map Exq.request) same
  simpa [State.core, comp_def] using requests

theorem State.entry_isSome_of_core {b : Addr} (same : s.core a = t.core b) :
    (s.entry a).isSome = (t.entry b).isSome := by
  have stages := congrArg (Option.map Exq.stage) same
  simp only [State.core, Option.map_map, comp_def] at stages
  unfold State.entry
  cases left : s.mem a with
  | none =>
    cases right : t.mem b with
    | none => rfl
    | some _ => simp [left, right] at stages
  | some c =>
    cases right : t.mem b with
    | none => simp [left, right] at stages
    | some d =>
      have equal : c.stage = d.stage := by simpa [left, right] using stages
      by_cases queued : d.stage = .queued <;> simp [equal, queued]

/-- The slot behind a part of the list is the header or a cell in use. -/
theorem Strung.slot_allocated (strung : Strung s (front ++ back)) (b : Addr)
    (ends : endSlot none front = some b) : (s.mem b).isSome := by
  rcases endSlot_eq none front with header | ⟨c, member, same⟩
  · rw [ends] at header
    cases header
  rw [ends] at same
  cases same
  have ⟨_, _, entry⟩ := strung.entry_of_mem (mem_append_left back member)
  have ⟨_, found, _⟩ := State.entry_eq_some.1 entry
  simp [found]

theorem Strung.unlink (strung : Strung s (front ++ a :: back))
    (distinct : ((waiting s.log).map Request.id).Nodup) (entry : s.entry a = some (q, next))
    {event : Event} (waits : waiting (event :: s.log) = (waiting s.log).filter (·.id ≠ q.id)) :
    Strung ((s.unlink (endSlot none front) a).emit event) (front ++ back) := by
  have core := State.core_unlink s (endSlot none front) a
  apply strung.remove distinct entry
  · intro slot other
    have links : (s.unlink (endSlot none front) a).link =
        Function.update (Function.update s.link (endSlot none front) next) (some a) none := by
      rw [State.unlink, State.link_free, State.link_setLink strung.slot_allocated,
        State.link_of_entry entry]
    exact (congrFun links slot).trans (update_of_ne other _ _)
  · intro b other
    have same : ((s.unlink (endSlot none front) a).emit event).core b = s.core b :=
      (core b).trans (if_neg other)
    exact State.request_of_core same
  · show (s.unlink (endSlot none front) a).entry a = none
    simp [State.entry, State.unlink, State.free]
  · intro b other
    have same : ((s.unlink (endSlot none front) a).emit event).core b = s.core b :=
      (core b).trans (if_neg other)
    exact State.entry_isSome_of_core same
  · show waiting (event :: (s.unlink (endSlot none front) a).log) = _
    rw [State.unlink_log]
    exact waits

/-- Taking out any but the last cell, or the only one, leaves the tail at the end. -/
theorem Tailed.remove (tailed : Tailed s (front ++ a :: back)) (tail : after.tail = s.tail)
    (kept : back ≠ [] ∨ front = []) : Tailed after (front ++ back) := by
  intro nonempty
  rw [tail, tailed (by simp)]
  cases back with
  | nil =>
    rcases kept with never | empty
    · exact absurd rfl never
    · rw [empty] at nonempty
      exact absurd rfl nonempty
  | cons _ _ => simp [getLast?_append]

/-- Taking out the last of several cells leaves the tail at a freed request. -/
theorem not_tailed_of_last (tailed : Tailed s (front ++ [a])) (tail : after.tail = s.tail)
    (others : front ≠ []) (absent : a ∉ front) : ¬ Tailed after front := by
  intro again
  have ends := again others
  rw [tail, tailed (by simp), getLast?_concat] at ends
  exact absent (mem_of_getLast? ends.symm)

/-! ### exflushed -/

/-- The flush `fq` names the request `q`. -/
def Names (fq q : Request) : Prop := q.export = fq.export ∧ q.fcall.tag = fq.fcall.oldtag

theorem named_of_entry {fq : Request} (entry : s.entry a = some (q, next)) :
    named s fq a = true ↔ Names fq q := by
  obtain ⟨_, found, _, rfl, _⟩ := State.entry_eq_some.1 entry
  simp [named, found, Names]

/-- The first half of `exflushed` takes the first waiting request with the tag, if there is
one, out of the list. -/
theorem flushQueued_eq (strung : Strung s cells) (few : (waiting s.log).length ≤ s.received)
    (fq : Request) :
    (flushQueued s fq = s.setProc fq.export (.searching fq) ∧
        ∀ a ∈ cells, named s fq a = false) ∨
      ∃ front a back q next, cells = front ++ a :: back ∧ s.entry a = some (q, next) ∧
        Names fq q ∧ (∀ b ∈ front, named s fq b = false) ∧
        flushQueued s fq = ((s.unlink (endSlot none front) a).emit (.discarded q.id)).setProc
          fq.export (.answering fq) := by
  have enough : cells.length < s.received + 1 := by
    rw [strung.length_eq]
    omega
  rcases search_eq (named s fq) strung.chained enough with
    ⟨nothing, rejected⟩ | ⟨front, a, back, split, accepted, rejected, result⟩
  · left
    exact ⟨by rw [flushQueued, nothing], rejected⟩
  right
  have ⟨q, next, entry⟩ := strung.entry_of_mem (a := a) (by rw [split]; simp)
  refine ⟨front, a, back, q, next, split, entry, (named_of_entry entry).1 accepted,
    rejected, ?_⟩
  have id : ((s.mem a).map fun c => c.request.id) = some q.id := by
    have request := congrArg (Option.map Request.id) (State.request_of_entry entry)
    simpa [comp_def] using request
  rw [flushQueued, result]
  simp only [id, Option.getD_some]

/-! ### exshutdown -/

/-- What the loop of `exshutdown` over the queue did to the rest of the state. -/
structure Swept (e : Nat) (s t : State) : Prop where
  tail : t.tail = s.tail
  proc : t.proc = s.proc
  work : t.work = s.work
  received : t.received = s.received
  readonly : t.readonly = s.readonly
  core : ∀ a, t.core a = if (s.entry a).any (fun entry => entry.1.export = e) then none else s.core a
  log : ∃ ids : List Nat, t.log = ids.map Event.abandoned ++ s.log
  waits : waiting t.log = (waiting s.log).filter (·.export ≠ e)

theorem State.entry_of_core (same : s.core a = t.core a) :
    (s.entry a).map Prod.fst = (t.entry a).map Prod.fst := by
  have isSome := State.entry_isSome_of_core same
  have requests := State.request_of_core same
  cases left : s.entry a with
  | none =>
    rw [left] at isSome
    cases right : t.entry a with
    | none => rfl
    | some _ => simp [right] at isSome
  | some _ =>
    rw [left] at isSome
    cases right : t.entry a with
    | none => simp [right] at isSome
    | some _ =>
      rw [State.request_of_entry left, State.request_of_entry right] at requests
      simpa using requests

theorem State.any_of_core (same : s.core a = t.core a) (test : Request → Bool) :
    (s.entry a).any (fun entry => test entry.1) = (t.entry a).any (fun entry => test entry.1) := by
  have entries := State.entry_of_core same
  have byFst : ∀ entry : Option (Request × Option Addr),
      entry.any (fun entry => test entry.1) = (entry.map Prod.fst).any test := by
    intro entry
    cases entry <;> rfl
  rw [byFst, byFst, entries]

/-- Without requests of the export behind `last`, the loop leaves the state. -/
theorem swept_refl {e : Nat} (strung : Strung s cells)
    (others : ∀ a ∈ cells, (s.entry a).any (fun entry => entry.1.export = e) = false) :
    Swept e s s := by
  refine ⟨rfl, rfl, rfl, rfl, rfl, ?_, ⟨[], rfl⟩, ?_⟩
  · intro a
    rw [if_neg]
    intro some_
    by_cases member : a ∈ cells
    · rw [others a member] at some_
      cases some_
    have empty : s.entry a = none := by
      rw [strung.queued a] at member
      simpa using member
    rw [empty] at some_
    cases some_
  · symm
    apply filter_eq_self.2
    intro q member
    have inMap : some q ∈ (waiting s.log).map some := mem_map_of_mem member
    rw [← strung.requests] at inMap
    have ⟨a, here, same⟩ := mem_map.1 inMap
    have ⟨_, _, entry⟩ := strung.entry_of_mem here
    rw [State.request_of_entry entry] at same
    cases same
    have other := others a here
    rw [entry] at other
    simpa using other

theorem unqueue_eq (e : Nat) (kept rest : List Addr) (fuel : Nat) (strung : Strung s (kept ++ rest))
    (distinct : ((waiting s.log).map Request.id).Nodup)
    (others : ∀ a ∈ kept, (s.entry a).any (fun entry => entry.1.export = e) = false)
    (enough : rest.length < fuel) :
    Swept e s (unqueue e fuel (endSlot none kept) s) ∧
      Strung (unqueue e fuel (endSlot none kept) s)
        (kept ++ rest.filter fun a => !(s.entry a).any fun entry => entry.1.export = e) := by
  induction rest generalizing s kept fuel with
  | nil =>
    cases fuel with
    | zero => cases enough
    | succ _ =>
      rw [append_nil] at strung
      have ends : s.link (endSlot none kept) = none := strung.chained.2
      rw [unqueue, ends]
      exact ⟨swept_refl strung others, by simpa using strung⟩
  | cons a rest ih =>
    cases fuel with
    | zero => cases enough
    | succ fuel =>
      have enough : rest.length < fuel := by simpa using enough
      have leads : s.link (endSlot none kept) = some a :=
        (chained_cons.1 (chained_append.1 strung.chained).2).1
      have ⟨q, _, entry⟩ := strung.entry_of_mem (a := a) (by simp)
      have ⟨c, found, _, request, _⟩ := State.entry_eq_some.1 entry
      rw [unqueue, leads]
      simp only [found]
      by_cases ours : c.request.export = e
      · rw [if_pos ours]
        have waits : waiting (.abandoned c.request.id :: s.log) =
            (waiting s.log).filter (·.id ≠ q.id) := by rw [← request]; rfl
        have removed := strung.unlink distinct entry waits
        set t := (s.unlink (endSlot none kept) a).emit (.abandoned c.request.id) with t_eq
        have core : ∀ b, t.core b = if b = a then none else s.core b :=
          State.core_unlink s (endSlot none kept) a
        have absent : a ∉ kept ++ rest := by
          have nodup := strung.chained.nodup
          rw [nodup_middle, nodup_cons] at nodup
          exact nodup.1
        have same : ∀ b ∈ kept ++ rest, t.core b = s.core b := by
          intro b member
          rw [core, if_neg]
          intro equal
          exact absent (equal ▸ member)
        have log : t.log = .abandoned c.request.id :: s.log := by
          simp [t_eq, State.emit]
        have distinct' : ((waiting t.log).map Request.id).Nodup := by
          rw [log, waits]
          exact distinct.sublist (filter_sublist.map _)
        have ⟨swept, left⟩ := ih kept fuel removed distinct' (by
          intro b member
          rw [State.any_of_core (same b (mem_append_left _ member)) (·.export = e)]
          exact others b member) enough
        have drops : (s.entry a).any (fun entry => entry.1.export = e) = true := by
          rw [entry, ← request]
          simpa using ours
        refine ⟨⟨?_, ?_, ?_, ?_, ?_, ?_, ?_, ?_⟩, ?_⟩
        · exact swept.tail.trans (by simp [t_eq, State.emit])
        · exact swept.proc.trans (by simp [t_eq, State.emit])
        · exact swept.work.trans (by simp [t_eq, State.emit])
        · exact swept.received.trans (by simp [t_eq, State.emit])
        · exact swept.readonly.trans (by simp [t_eq, State.emit])
        · intro b
          rw [swept.core b]
          by_cases here : b = a
          · subst here
            have empty : t.core b = none := by rw [core, if_pos rfl]
            rw [drops, empty]
            simp
          · have kept_ : t.core b = s.core b := by rw [core, if_neg here]
            rw [State.any_of_core kept_ (·.export = e), kept_]
        · have ⟨ids, events⟩ := swept.log
          exact ⟨ids ++ [c.request.id], by rw [events, log]; simp⟩
        · rw [swept.waits, log, waits, filter_filter]
          apply filter_congr
          intro w member
          by_cases foreign : w.export = e
          · simp [foreign]
          have different : w.id ≠ q.id := by
            intro equal
            have inWaiting : q ∈ waiting s.log := by
              have ⟨before, _, split, _⟩ := strung.split entry
              rw [split]
              simp
            have equal := inj_on_of_nodup_map distinct member inWaiting equal
            rw [equal, ← request] at foreign
            exact foreign ours
          simp [foreign, different]
        · have shape : (a :: rest).filter
                (fun b => !(s.entry b).any fun entry => entry.1.export = e) =
              rest.filter fun b => !(t.entry b).any fun entry => entry.1.export = e := by
            rw [filter_cons_of_neg (by simp [drops])]
            apply filter_congr
            intro b member
            rw [State.any_of_core (same b (mem_append_right _ member)) (·.export = e)]
          rw [shape]
          exact left
      · rw [if_neg ours]
        have stays : (s.entry a).any (fun entry => entry.1.export = e) = false := by
          rw [entry, ← request]
          simpa using ours
        have shape : kept ++ (a :: rest).filter
              (fun b => !(s.entry b).any fun entry => entry.1.export = e) =
            (kept ++ [a]) ++ rest.filter
              fun b => !(s.entry b).any fun entry => entry.1.export = e := by
          rw [filter_cons_of_pos (by simp [stays])]
          simp
        have strung' : Strung s ((kept ++ [a]) ++ rest) := by simpa using strung
        have result := ih (kept ++ [a]) fuel strung' distinct (by
          intro b member
          rcases mem_append.1 member with before | here
          · exact others b before
          · rw [mem_singleton.1 here]
            exact stays) enough
        rw [endSlot_concat] at result
        rw [shape]
        exact result

end Infernode.Exportq
