import Infernode.Veltro.Notify
import Mathlib.Data.List.Induction
import Mathlib.Data.List.Nodup
import Mathlib.Data.List.Perm.Basic

/-!
What becomes of a notification.

Owns: the invariants of the reads and of the sources, the state in which the serve loop waits for
ever, and for which runs every notification is given once or kept in order.
-/

namespace Infernode.Notify

open Text Strings Lib9 Msg9p List

/-! ### Reads -/

/-- Every read is answered once, parked or gone, and every text that was received is given whole to
one read, in the queue or was dropped. -/
structure Delivered (m : Mail) (clock : Nat) : Prop where
  parked : ∀ pr ∈ m.pendingReaders, pr.fid ∈ m.fids ∧ pr.count ≤ MAXFDATA
  reads : (m.given.map (fun g => g.read.id) ++
    (m.pendingReaders.map PendingRead.id ++ m.gone)).Nodup
  earlyReads : ∀ id ∈ m.given.map (fun g => g.read.id) ++
    (m.pendingReaders.map PendingRead.id ++ m.gone), id < clock
  notes : m.accepted.Perm (m.given.map Given.note ++ (m.notifyq ++ m.dropped.map Prod.fst))
  noteIds : (m.accepted.map Note.id).Nodup
  earlyNotes : ∀ note ∈ m.accepted, note.id < clock
  order : ((m.given.map Given.note ++ m.notifyq).map Note.id).Pairwise (· < ·)
  exclusive : m.notifyq = [] ∨ m.pendingReaders = []
  whole : ∀ g ∈ m.given, g.data = some (cvtca g.note.text) ∧
    (cvtca g.note.text).length ≤ g.read.count
  few : m.notifyq.length ≤ MAXQ
  full : ∀ d ∈ m.dropped, d.2 = MAXQ

theorem delivered_initial : Delivered State.initial.mail 0 where
  parked := nofun
  reads := nodup_nil
  earlyReads := nofun
  notes := List.Perm.refl _
  noteIds := nodup_nil
  earlyNotes := nofun
  order := List.Pairwise.nil
  exclusive := Or.inl rfl
  whole := nofun
  few := Nat.zero_le _
  full := nofun

section Mails

variable {m : Mail} {clock : Nat}

theorem Delivered.later (delivered : Delivered m clock) : Delivered m (clock + 1) :=
  { delivered with
    earlyReads := fun id member => Nat.lt_succ_of_lt (delivered.earlyReads id member)
    earlyNotes := fun note member => Nat.lt_succ_of_lt (delivered.earlyNotes note member) }

theorem Delivered.opened (delivered : Delivered m clock) (fid : Nat) :
    Delivered { m with fids := fid :: m.fids } clock :=
  { delivered with
    parked := fun pr member =>
      ⟨mem_cons_of_mem _ (delivered.parked pr member).1, (delivered.parked pr member).2⟩ }

/-- A number that is the clock is none of those before. -/
theorem nodup_append_cons {front back : List Nat} {id : Nat} (nodup : (front ++ back).Nodup)
    (new : id ∉ front ++ back) : (front ++ id :: back).Nodup :=
  perm_middle.nodup_iff.2 (nodup_cons.2 ⟨new, nodup⟩)

variable {note : Note}

theorem Delivered.dequeue (delivered : Delivered m clock) {rest : List Note}
    (queue : m.notifyq = note :: rest) {read : PendingRead} (id : read.id = clock)
    (fits : (cvtca note.text).length ≤ read.count) :
    Delivered { m with
      notifyq := rest
      given := m.given ++ [⟨read, note, some (cvtca note.text)⟩] } (clock + 1) where
  parked := delivered.parked
  reads := by
    rw [map_append, map_singleton, append_assoc, singleton_append, id]
    apply nodup_append_cons delivered.reads
    exact fun member => Nat.lt_irrefl _ (delivered.earlyReads clock member)
  earlyReads := by
    intro other member
    rw [map_append, map_singleton, append_assoc, singleton_append, id,
      perm_middle.mem_iff] at member
    rcases mem_cons.1 member with rfl | old
    · exact Nat.lt_succ_self _
    · exact Nat.lt_succ_of_lt (delivered.earlyReads other old)
  notes := by
    have notes := delivered.notes
    rw [queue] at notes
    rw [map_append, map_singleton, append_assoc]
    exact notes
  noteIds := delivered.noteIds
  earlyNotes := fun note member => Nat.lt_succ_of_lt (delivered.earlyNotes note member)
  order := by
    have order := delivered.order
    rw [queue] at order
    have same : (m.given ++ [Given.mk read note (some (cvtca note.text))]).map Given.note ++ rest =
        m.given.map Given.note ++ note :: rest := by
      rw [map_append, map_singleton, append_assoc]
      rfl
    show (List.map Note.id (_ ++ rest)).Pairwise _
    rw [same]
    exact order
  exclusive := by
    rcases delivered.exclusive with none | none
    · rw [queue] at none
      cases none
    · exact Or.inr none
  whole := by
    intro g member
    rcases mem_append.1 member with old | new
    · exact delivered.whole g old
    · rw [mem_singleton.1 new]
      exact ⟨rfl, fits⟩
  few := by
    have few := delivered.few
    rw [queue, length_cons] at few
    exact Nat.le_of_succ_le few
  full := delivered.full

theorem Delivered.park (delivered : Delivered m clock) (empty : m.notifyq = [])
    {read : PendingRead} (id : read.id = clock) (fid : read.fid ∈ m.fids)
    (count : read.count ≤ MAXFDATA) :
    Delivered { m with pendingReaders := read :: m.pendingReaders } (clock + 1) where
  parked := by
    intro pr member
    rcases mem_cons.1 member with rfl | old
    · exact ⟨fid, count⟩
    · exact delivered.parked pr old
  reads := by
    rw [map_cons, cons_append, id]
    apply nodup_append_cons delivered.reads
    exact fun member => Nat.lt_irrefl _ (delivered.earlyReads clock member)
  earlyReads := by
    intro other member
    rw [map_cons, cons_append, id, perm_middle.mem_iff] at member
    rcases mem_cons.1 member with rfl | old
    · exact Nat.lt_succ_self _
    · exact Nat.lt_succ_of_lt (delivered.earlyReads other old)
  notes := delivered.notes
  noteIds := delivered.noteIds
  earlyNotes := fun note member => Nat.lt_succ_of_lt (delivered.earlyNotes note member)
  order := delivered.order
  exclusive := Or.inl empty
  whole := delivered.whole
  few := delivered.few
  full := delivered.full

def Reads (m : Mail) (fid : Nat) (offset : Int) (count : Nat) : Prop :=
  fid ∈ m.fids → count ≤ MAXFDATA → 0 ≤ offset →
    ∀ note ∈ m.notifyq.head?, offset = 0 ∧ (cvtca note.text).length ≤ count

theorem readbytes_whole {count : Nat} {d : List Nat} (fits : d.length ≤ count) :
    readbytes 0 count d = d := by
  unfold readbytes
  split
  · rename_i none
    have empty : d.length = 0 := by omega
    exact (eq_nil_of_length_eq_zero empty).symm
  · exact take_of_length_le fits

theorem Delivered.read (delivered : Delivered m clock) {tag fid count : Nat} {offset : Int}
    (fits : Reads m fid offset count) :
    Delivered (read m clock tag fid offset count) (clock + 1) := by
  unfold Notify.read
  split
  · exact delivered.later
  rename_i accepted
  have fid : fid ∈ m.fids := by
    by_contra closed
    exact accepted (Or.inl closed)
  have small : count ≤ MAXFDATA := by
    by_contra large
    exact accepted (Or.inr (Or.inl (Nat.not_le.1 large)))
  have positive : 0 ≤ offset := by
    by_contra negative
    exact accepted (Or.inr (Or.inr (Int.not_le.1 negative)))
  split
  · rename_i note rest queue
    have inside : note ∈ m.notifyq.head? := by
      rw [queue]
      rfl
    obtain ⟨rfl, short⟩ := fits fid small positive note inside
    rw [readbytes_whole short]
    exact delivered.dequeue queue rfl short
  · rename_i empty
    exact delivered.park empty rfl fid small

/-- What the oldest parked read must have asked for, when a text comes. -/
def Wakes (m : Mail) (text : Str) : Prop :=
  ∀ pr ∈ m.pendingReaders.getLast?, (cvtca text).length ≤ pr.count

/-- The number of a new text is above all the others. -/
theorem Delivered.order_concat (delivered : Delivered m clock) (id : note.id = clock) :
    ((m.given.map Given.note ++ m.notifyq ++ [note]).map Note.id).Pairwise (· < ·) := by
  rw [map_append, map_singleton, pairwise_append]
  refine ⟨delivered.order, pairwise_singleton _ _, ?_⟩
  intro _ member _ isLast
  rw [mem_singleton.1 isLast, id]
  obtain ⟨_, inside, rfl⟩ := mem_map.1 member
  apply delivered.earlyNotes
  rw [delivered.notes.mem_iff, ← append_assoc]
  exact mem_append_left _ inside

theorem Delivered.noteIds_concat (delivered : Delivered m clock) (id : note.id = clock) :
    ((m.accepted ++ [note]).map Note.id).Nodup := by
  rw [map_append, map_singleton]
  apply nodup_append_cons
  · rw [append_nil]
    exact delivered.noteIds
  rw [append_nil]
  intro member
  have ⟨other, inside, _⟩ := mem_map.1 member
  have early := delivered.earlyNotes other inside
  omega

theorem Delivered.earlyNotes_concat (delivered : Delivered m clock) (id : note.id = clock) :
    ∀ other ∈ m.accepted ++ [note], other.id < clock + 1 := by
  intro other member
  rcases mem_append.1 member with old | new
  · exact Nat.lt_succ_of_lt (delivered.earlyNotes other old)
  · rw [mem_singleton.1 new, id]
    exact Nat.lt_succ_self _

theorem Delivered.wake (delivered : Delivered m clock) (id : note.id = clock) {pr : PendingRead}
    {readers : List PendingRead} (last : m.pendingReaders = readers ++ [pr])
    (fits : (cvtca note.text).length ≤ pr.count) :
    Delivered { m with
      pendingReaders := readers
      given := m.given ++ [⟨pr, note, wakedata note.text⟩]
      accepted := m.accepted ++ [note] } (clock + 1) := by
  have inside : pr ∈ m.pendingReaders := by
    rw [last]
    exact mem_append_right _ (mem_singleton_self _)
  have empty : m.notifyq = [] := by
    rcases delivered.exclusive with none | none
    · exact none
    · rw [none] at inside
      cases inside
  have moved : ((m.given ++ [Given.mk pr note (wakedata note.text)]).map (fun g => g.read.id) ++
      (readers.map PendingRead.id ++ m.gone)).Perm (m.given.map (fun g => g.read.id) ++
        (m.pendingReaders.map PendingRead.id ++ m.gone)) := by
    have middle : (pr.id :: (readers.map PendingRead.id ++ m.gone)).Perm
        (readers.map PendingRead.id ++ pr.id :: m.gone) := perm_middle.symm
    rw [last, map_append, map_append, append_assoc, append_assoc]
    exact middle.append_left _
  have small := (delivered.parked pr inside).2
  have data : wakedata note.text = some (cvtca note.text) := by
    unfold wakedata
    apply if_neg
    unfold MAXRPC IOHDRSZ
    omega
  exact {
    parked := fun other member => delivered.parked other (last ▸ mem_append_left _ member)
    reads := moved.nodup_iff.2 delivered.reads
    earlyReads := fun other member =>
      Nat.lt_succ_of_lt (delivered.earlyReads other (moved.mem_iff.1 member))
    notes := by
      have notes := delivered.notes
      rw [empty] at notes
      show (m.accepted ++ [note]).Perm _
      rw [map_append, map_singleton, empty, append_assoc]
      exact (perm_append_singleton _ _).trans ((notes.cons _).trans perm_middle.symm)
    noteIds := delivered.noteIds_concat id
    earlyNotes := delivered.earlyNotes_concat id
    order := by
      have order := delivered.order_concat id
      rw [empty, append_nil] at order
      show (List.map Note.id (_ ++ m.notifyq)).Pairwise _
      rw [empty, append_nil, map_append, map_singleton]
      exact order
    exclusive := Or.inl empty
    whole := by
      intro g member
      rcases mem_append.1 member with old | new
      · exact delivered.whole g old
      · rw [mem_singleton.1 new]
        exact ⟨data, fits⟩
    few := delivered.few
    full := delivered.full }

theorem Delivered.enqueue (delivered : Delivered m clock) (id : note.id = clock)
    (none : m.pendingReaders = []) :
    Delivered { enqueue m note with accepted := m.accepted ++ [note] } (clock + 1) := by
  have notes : (m.accepted ++ [note]).Perm
      (m.given.map Given.note ++ (m.notifyq ++ (note :: m.dropped.map Prod.fst))) := by
    apply (perm_append_singleton _ _).trans
    apply (delivered.notes.cons _).trans
    rw [← append_assoc, ← append_assoc]
    exact perm_middle.symm
  unfold Notify.enqueue
  split
  · rename_i full
    exact {
      delivered with
      earlyReads := delivered.later.earlyReads
      notes := by
        show (m.accepted ++ [note]).Perm (_ ++ (_ ++ List.map Prod.fst (_ ++ [(note, _)])))
        rw [map_append, map_singleton]
        exact notes.trans (((perm_append_singleton _ _).symm.append_left _).append_left _)
      noteIds := delivered.noteIds_concat id
      earlyNotes := delivered.earlyNotes_concat id
      full := by
        intro d member
        rcases mem_append.1 member with old | new
        · exact delivered.full d old
        · rw [mem_singleton.1 new]
          exact Nat.le_antisymm delivered.few full }
  · rename_i room
    exact {
      delivered with
      earlyReads := delivered.later.earlyReads
      notes := by
        show (m.accepted ++ [note]).Perm (_ ++ (m.notifyq ++ [note] ++ _))
        rw [append_assoc]
        exact notes
      noteIds := delivered.noteIds_concat id
      earlyNotes := delivered.earlyNotes_concat id
      order := by
        show (List.map Note.id (_ ++ (m.notifyq ++ [note]))).Pairwise _
        rw [← append_assoc]
        exact delivered.order_concat id
      exclusive := Or.inr none
      few := by
        show (m.notifyq ++ [note]).length ≤ MAXQ
        rw [length_append, length_singleton]
        omega }

theorem Delivered.receive (delivered : Delivered m clock) (id : note.id = clock)
    (fits : Wakes m note.text) : Delivered (receive m note) (clock + 1) := by
  unfold Notify.receive
  rcases eq_nil_or_concat m.pendingReaders with none | ⟨readers, pr, last⟩
  · rw [none]
    exact delivered.enqueue id none
  rw [concat_eq_append] at last
  have isLast : m.pendingReaders.getLast? = some pr := by
    rw [last, getLast?_concat]
  rw [isLast, last, dropLast_concat]
  exact delivered.wake id last (fits pr isLast)

/-! ### Reads that go -/

theorem Delivered.flush (delivered : Delivered m clock) {oldtag : Nat}
    (fits : ∀ pr ∈ m.pendingReaders, pr.tag ≠ oldtag) : Delivered (flush m oldtag) clock := by
  have none : (m.pendingReaders.filter fun pr => decide (pr.tag = oldtag)) = [] := by
    rw [filter_eq_nil_iff]
    intro pr member
    rw [decide_eq_true_iff]
    exact fits pr member
  unfold Notify.flush
  rw [none, map_nil, append_nil]
  exact delivered

theorem Delivered.clunk (delivered : Delivered m clock) (fid : Nat) :
    Delivered (clunk m fid) clock := by
  unfold Notify.clunk
  split
  · have moved : (m.given.map (fun g => g.read.id) ++
        (((m.pendingReaders.filter fun pr => !decide (pr.fid = fid)).reverse).map PendingRead.id ++
          (m.gone ++ parkedOf m fid))).Perm (m.given.map (fun g => g.read.id) ++
            (m.pendingReaders.map PendingRead.id ++ m.gone)) := by
      apply List.Perm.append_left
      have turned := (reverse_perm
        (m.pendingReaders.filter fun pr => !decide (pr.fid = fid))).map PendingRead.id
      have split := (filter_append_perm (fun pr : PendingRead => decide (pr.fid = fid))
        m.pendingReaders).map PendingRead.id
      rw [map_append] at split
      apply (turned.append_right _).trans
      apply (perm_append_comm.append_left _).trans
      rw [← append_assoc]
      exact (perm_append_comm.trans split).append_right _
    exact {
      delivered with
      parked := by
        intro pr member
        have ⟨inside, other⟩ := mem_filter.1 (mem_reverse.1 member)
        have parked := delivered.parked pr inside
        have different : pr.fid ≠ fid := by simpa using other
        exact ⟨(mem_erase_of_ne different).2 parked.1, parked.2⟩
      reads := moved.nodup_iff.2 delivered.reads
      earlyReads := fun id member => delivered.earlyReads id (moved.mem_iff.1 member)
      exclusive := by
        rcases delivered.exclusive with empty | none
        · exact Or.inl empty
        refine Or.inr ?_
        show ((m.pendingReaders.filter _).reverse) = []
        rw [none]
        rfl }
  · exact delivered

theorem Delivered.remove (delivered : Delivered m clock) {fid : Nat}
    (fits : ∀ pr ∈ m.pendingReaders, pr.fid ≠ fid) : Delivered (remove m fid) clock := by
  have none : parkedOf m fid = [] := by
    unfold parkedOf
    rw [map_eq_nil_iff, filter_eq_nil_iff]
    intro pr member
    rw [decide_eq_true_iff]
    exact fits pr member
  unfold Notify.remove
  split
  · rw [none, append_nil]
    exact {
      delivered with
      parked := fun pr member =>
        have parked := delivered.parked pr member
        ⟨(mem_erase_of_ne (fits pr member)).2 parked.1, parked.2⟩ }
  · exact delivered

end Mails

/-! ### Sources -/

def nameOf (src : Source) : Str := src.info.name

/-- No two sources have one name, and the process that the serve loop waits for comes to its
`alt`. -/
structure Registered (p : Procs) : Prop where
  names : (p.sources.map nameOf).Nodup
  stopping : ∀ srcname k rest kept, p.serve = .stopping srcname k rest kept →
    phaseOf p k = some .looping ∧ (∀ src ∈ rest, nameOf src ≠ srcname) ∧
      ((rest ++ kept).map nameOf).Nodup

theorem registered_initial : Registered State.initial.procs where
  names := nodup_nil
  stopping := nofun

variable {k : Nat}

section Sources

variable {p : Procs} {srcname : Str} {rest kept : List Source} {found : Bool}

theorem phaseOf_setphase (p : Procs) (k j : Nat) (phase : Phase) :
    phaseOf (setphase p k phase) j =
      if k = j then (phaseOf p j).map (fun _ => phase) else phaseOf p j := by
  unfold phaseOf setphase
  rw [getElem?_modify]
  split
  · cases p.watchers[j]? with
    | none => rfl
    | some _ => rfl
  · cases p.watchers[j]? with
    | none => rfl
    | some _ => rfl

/-- A process that is stopped, or that comes to its `alt`, is not one that the serve loop waits
for. -/
theorem Registered.setphase (registered : Registered p) (phase : Phase)
    (other : ∀ srcname rest kept, p.serve ≠ .stopping srcname k rest kept) :
    Registered (setphase p k phase) where
  names := registered.names
  stopping := by
    intro srcname j rest kept serve
    have stopping := registered.stopping srcname j rest kept serve
    have different : k ≠ j := by
      rintro rfl
      exact other srcname rest kept serve
    rw [phaseOf_setphase, if_neg different]
    exact stopping

theorem unregister_rest (p : Procs) (other : ∀ src ∈ rest, nameOf src ≠ srcname) :
    unregister p srcname kept true rest =
      { p with serve := .idle, sources := rest.reverse ++ kept } := by
  induction rest generalizing kept with
  | nil => rfl
  | cons src _ ih =>
    have here : ¬ src.info.name = srcname := other src (mem_cons_self ..)
    unfold unregister
    rw [if_neg here, ih fun later member =>
      other later (mem_cons_of_mem _ member), reverse_cons, append_assoc]
    rfl

theorem nodup_kept (nodup : ((rest ++ kept).map nameOf).Nodup) :
    ((rest.reverse ++ kept).map nameOf).Nodup := by
  have turned : ((rest.reverse ++ kept).map nameOf).Perm ((rest ++ kept).map nameOf) :=
    ((reverse_perm rest).append_right kept).map nameOf
  exact turned.nodup_iff.2 nodup

theorem registered_idle (p : Procs) {sources : List Source}
    (nodup : (sources.map nameOf).Nodup) :
    Registered { p with serve := .idle, sources := sources } where
  names := nodup
  stopping := nofun

theorem registered_unregister {l : List Source} (names : (p.sources.map nameOf).Nodup)
    (nodup : ((l ++ kept).map nameOf).Nodup)
    (phases : ∀ src ∈ l, nameOf src = srcname →
      phaseOf p src.watcher = some .looping ∨ phaseOf p src.watcher = some .waiting) :
    Registered (unregister p srcname kept found l) := by
  induction l generalizing kept with
  | nil =>
    unfold unregister
    split
    · exact registered_idle p nodup
    · exact registered_idle p names
  | cons src rest ih =>
    unfold unregister
    rw [cons_append, map_cons, nodup_cons] at nodup
    split
    · rename_i same
      have other : ∀ later ∈ rest, nameOf later ≠ srcname := by
        intro later member is
        apply nodup.1
        rw [show nameOf src = nameOf later from same.trans is.symm]
        exact mem_map_of_mem (mem_append_left _ member)
      split
      · rw [unregister_rest _ other]
        exact registered_idle _ (nodup_kept nodup.2)
      rename_i busy
      refine ⟨names, ?_⟩
      intro name k others keeps serve
      cases serve
      refine ⟨?_, other, nodup.2⟩
      rcases phases src (mem_cons_self ..) same with looping | waiting
      · exact looping
      · exact absurd waiting busy
    · apply ih
      · have moved : ((rest ++ src :: kept).map nameOf).Perm
            (nameOf src :: (rest ++ kept).map nameOf) := by
          rw [← map_cons]
          exact perm_middle.map nameOf
        exact moved.nodup_iff.2 (nodup_cons.2 nodup)
      · exact (forall_mem_cons.1 phases).2

theorem doregister_new {s t : Msg9p.State} {answers : Answers} {args : List Str}
    (done : doregister s answers args = .ok t) :
    ∃ info, t.sources = info :: s.sources ∧ ∀ source ∈ s.sources, source.name ≠ info.name := by
  unfold doregister at done
  split at done
  · split at done
    · cases done
    split at done
    · cases done
    split at done
    · cases done
    rename_i new
    split at done
    · cases done
    split at done
    · cases done
    cases done
    refine ⟨_, rfl, ?_⟩
    intro source member same
    apply new
    rw [any_eq_true]
    exact ⟨source, member, decide_eq_true same⟩
  · cases done

theorem registered_register (registered : Registered p) (idle : p.serve = .idle)
    (answers : Answers) (args : List Str) : Registered (register p answers args) := by
  unfold register
  cases done : doregister (registry p) answers args with
  | error _ => exact registered
  | ok _ =>
    have ⟨info, sources, new⟩ := doregister_new done
    simp only [sources]
    refine ⟨?_, ?_⟩
    · show (info.name :: p.sources.map nameOf).Nodup
      rw [nodup_cons]
      refine ⟨?_, registered.names⟩
      intro member
      have ⟨src, inside, same⟩ := mem_map.1 member
      exact new src.info (mem_map_of_mem inside) same
    · intro _ _ _ _ serve
      rw [show p.serve = _ from serve] at idle
      cases idle

/-- The name that a write to `ctl` unregisters. -/
def unregisters (data : Str) : Option Str :=
  match tokens isBlank (splitfirst data 10).1 with
  | cmd :: srcname :: _ =>
    if tolower cmd = str "register" then none
    else if tolower cmd = str "unregister" then some srcname else none
  | _ => none

/-- The process of a source that is unregistered is at its `alt` or on its way there. -/
def Stoppable (p : Procs) (data : Str) : Prop :=
  ∀ srcname ∈ unregisters data, ∀ src ∈ p.sources, nameOf src = srcname →
    phaseOf p src.watcher = some .looping ∨ phaseOf p src.watcher = some .waiting

theorem registered_ctl (registered : Registered p) (idle : p.serve = .idle) (answers : Answers)
    {data : Str} (stoppable : Stoppable p data) : Registered (ctl p answers data) := by
  unfold ctl
  unfold Stoppable unregisters at stoppable
  cases words : tokens isBlank (splitfirst data 10).1 with
  | nil => exact registered
  | cons cmd toks =>
    rw [words] at stoppable
    simp only
    by_cases isRegister : tolower cmd = str "register"
    · rw [if_pos isRegister]
      exact registered_register registered idle answers toks
    rw [if_neg isRegister]
    by_cases isUnregister : tolower cmd = str "unregister"
    · rw [if_pos isUnregister]
      cases toks with
      | nil => exact registered
      | cons srcname _ =>
        simp only [if_neg isRegister, if_pos isUnregister] at stoppable
        apply registered_unregister registered.names
        · rw [append_nil]
          exact registered.names
        · exact stoppable srcname rfl
    · rw [if_neg isUnregister]
      exact registered

/-! ### Processes -/

theorem registered_takes (registered : Registered p) (name : Str)
    (other : ∀ srcname rest kept, p.serve ≠ .stopping srcname k rest kept) (n : Option Notification)
    : Registered (takes p k name n) := by
  cases n with
  | none => exact registered.setphase _ other
  | some _ => exact registered.setphase _ other

theorem registered_waits (registered : Registered p) (name : Str)
    (other : ∀ srcname rest kept, p.serve ≠ .stopping srcname k rest kept)
    (offered : Option (Option Notification)) : Registered (waits p k name offered) := by
  cases offered with
  | none => exact registered.setphase _ other
  | some n => exact registered_takes registered name other n

def Heeds (p : Procs) (k : Nat) (offered : Option (Option Notification)) (stop : Bool) : Prop :=
  ∀ srcname rest kept, p.serve = .stopping srcname k rest kept → offered = none ∨ stop = true

theorem registered_alts (registered : Registered p) (name : Str)
    {offered : Option (Option Notification)} {stop : Bool} (heeds : Heeds p k offered stop) :
    Registered (alts p k name offered stop) := by
  unfold alts
  cases serve : p.serve with
  | idle =>
    apply registered_waits registered name
    intro srcname rest kept is
    rw [serve] at is
    cases is
  | stopping srcname j rest kept =>
    have stopping := registered.stopping srcname j rest kept serve
    by_cases here : j = k
    · subst here
      have takesStop := heeds srcname rest kept serve
      simp only
      rw [if_pos ⟨trivial, takesStop⟩, unregister_rest _ stopping.2.1]
      exact registered_idle _ (nodup_kept stopping.2.2)
    simp only
    rw [if_neg fun both => here both.1]
    apply registered_waits registered name
    intro _ _ _ is
    rw [serve] at is
    cases is
    exact here rfl

/-- A process that does not come to its `alt` is not one that the serve loop waits for. -/
theorem Registered.not_stopping (registered : Registered p) {phase : Phase}
    (is : phaseOf p k = some phase) (other : phase ≠ .looping) :
    ∀ srcname rest kept, p.serve ≠ .stopping srcname k rest kept := by
  intro srcname rest kept serve
  have looping := (registered.stopping srcname k rest kept serve).1
  rw [is] at looping
  exact other (Option.some.inj looping)

end Sources

/-! ### Steps -/

/-- A read that meets a text asks for all of it, from its start, and for no more than it asked does
a text come that wakes it; no read that is parked is flushed or removed; and a source is not
unregistered, and takes no more, while its process delivers or has ended. -/
def Fits (s : State) : Act → Prop
  | .read _ fid offset count => Reads s.mail fid offset count
  | .flush oldtag => ∀ pr ∈ s.mail.pendingReaders, pr.tag ≠ oldtag
  | .remove fid => ∀ pr ∈ s.mail.pendingReaders, pr.fid ≠ fid
  | .ctl _ data => Stoppable s.procs (written data)
  | .deliver k => ∀ text, phaseOf s.procs k = some (.holding text) → Wakes s.mail text
  | .alts k offered stop => Heeds s.procs k offered stop
  | _ => True

/-- What holds of every state that such steps reach. -/
structure Kept (s : State) : Prop where
  registered : Registered s.procs
  delivered : Delivered s.mail s.clock

theorem kept_initial : Kept State.initial := ⟨registered_initial, delivered_initial⟩

section Steps

variable {s : State} {action : Act}

theorem phaseOf_of_getElem? {p : Procs} {watcher : Watcher} (is : p.watchers[k]? = some watcher) :
    phaseOf p k = some watcher.phase := by
  unfold phaseOf
  rw [is]
  rfl

theorem delivered_mailed (delivered : Delivered s.mail s.clock) (fits : Fits s action) :
    Delivered (mailed s.mail s.clock action) (s.clock + 1) := by
  cases action with
  | opened fid =>
    unfold mailed
    simp only
    split
    · exact delivered.later
    · exact (delivered.opened fid).later
  | read _ _ _ _ => exact delivered.read fits
  | flush _ => exact (delivered.flush fits).later
  | clunk fid => exact (delivered.clunk fid).later
  | remove _ => exact (delivered.remove fits).later
  | ctl _ _ => exact delivered.later
  | deliver _ => exact delivered.later
  | offer _ _ => exact delivered.later
  | alts _ _ _ => exact delivered.later
  | relayed _ => exact delivered.later

theorem kept_deliver (kept : Kept s) (fits : Fits s (.deliver k)) :
    Registered (deliver s k).procs ∧ Delivered (deliver s k).mail (s.clock + 1) := by
  unfold deliver
  split
  · rename_i text holding
    constructor
    · exact kept.registered.setphase _ (kept.registered.not_stopping holding nofun)
    · exact kept.delivered.receive rfl (fits text holding)
  · exact ⟨kept.registered, kept.delivered.later⟩

theorem kept_step (kept : Kept s) (fits : Fits s action) : Kept (step s action) := by
  have message (mail : Mail) (delivered : Delivered mail (s.clock + 1)) :
      Kept ⟨(if s.procs.serve = .idle then { s with mail := mail } else s).procs,
        (if s.procs.serve = .idle then { s with mail := mail } else s).mail, s.clock + 1⟩ := by
    split
    · exact ⟨kept.registered, delivered⟩
    · exact ⟨kept.registered, kept.delivered.later⟩
  have later := kept.delivered.later
  cases action with
  | opened fid => exact message _ (delivered_mailed kept.delivered fits)
  | read tag fid offset count => exact message _ (delivered_mailed kept.delivered fits)
  | flush oldtag => exact message _ (delivered_mailed kept.delivered fits)
  | clunk fid => exact message _ (delivered_mailed kept.delivered fits)
  | remove fid => exact message _ (delivered_mailed kept.delivered fits)
  | ctl answers data =>
    unfold step act
    simp only
    split
    · rename_i idle
      exact ⟨registered_ctl kept.registered idle answers fits, later⟩
    · exact ⟨kept.registered, later⟩
  | deliver k =>
    unfold step act
    simp only
    split
    · have both := kept_deliver kept fits
      exact ⟨both.1, both.2⟩
    · exact ⟨kept.registered, later⟩
  | offer k n =>
    unfold step act
    simp only
    split
    · rename_i name is
      have waiting := phaseOf_of_getElem? is
      exact ⟨registered_takes kept.registered name
        (kept.registered.not_stopping waiting nofun) n, later⟩
    · exact ⟨kept.registered, later⟩
  | alts k offered stop =>
    unfold step act
    simp only
    split
    · rename_i name is
      exact ⟨registered_alts kept.registered name fits, later⟩
    · exact ⟨kept.registered, later⟩
  | relayed k =>
    unfold step act
    simp only
    split
    · rename_i relaying
      exact ⟨kept.registered.setphase _ (kept.registered.not_stopping relaying nofun), later⟩
    · exact ⟨kept.registered, later⟩

end Steps

/-! ### Every run -/

def Wedged (p : Procs) : Prop := ∃ srcname k rest kept,
  p.serve = .stopping srcname k rest kept ∧ ∃ phase ∈ phaseOf p k, phase = .ended ∨
    ∃ text, phase = .holding text

/-- The serve loop is not wedged, every text that it received is given once and whole or kept in
order, and a read that has gone is not answered. -/
structure Sound (s : State) : Prop where
  unwedged : ¬ Wedged s.procs
  /-- A source that is being unregistered is unregistered when its process comes to its `alt`. -/
  completes : ∀ srcname k rest kept, s.procs.serve = .stopping srcname k rest kept →
    phaseOf s.procs k = some .looping ∧
      ∀ name offered, (alts s.procs k name offered true).serve = .idle
  once : s.mail.accepted.Nodup ∧ s.mail.accepted.Perm
    (s.mail.given.map Given.note ++ (s.mail.notifyq ++ s.mail.dropped.map Prod.fst))
  order : ((s.mail.given.map Given.note ++ s.mail.notifyq).map Note.id).Pairwise (· < ·)
  full : ∀ d ∈ s.mail.dropped, d.2 = MAXQ
  answered : (s.mail.given.map fun g => g.read.id).Nodup
  gone : ∀ g ∈ s.mail.given, g.read.id ∉ s.mail.gone
  whole : ∀ g ∈ s.mail.given, ∃ data ∈ g.data, data = cvtca g.note.text ∧
    data.length ≤ g.read.count

theorem Kept.sound {s : State} (kept : Kept s) : Sound s where
  unwedged := by
    rintro ⟨srcname, k, rest, keeps, serve, phase, is, stuck⟩
    have looping := (kept.registered.stopping srcname k rest keeps serve).1
    rw [looping] at is
    cases is
    rcases stuck with ended | ⟨text, holding⟩
    · cases ended
    · cases holding
  completes := by
    intro srcname k rest keeps serve
    have stopping := kept.registered.stopping srcname k rest keeps serve
    refine ⟨stopping.1, ?_⟩
    intro _ _
    unfold alts
    rw [serve]
    simp only
    rw [if_pos ⟨trivial, Or.inr trivial⟩, unregister_rest _ stopping.2.1]
  once := ⟨kept.delivered.noteIds.of_map, kept.delivered.notes⟩
  order := kept.delivered.order
  full := kept.delivered.full
  answered := (nodup_append.1 kept.delivered.reads).1
  gone := by
    intro g member gone
    have apart := (nodup_append.1 kept.delivered.reads).2.2
    exact apart g.read.id (mem_map_of_mem member) g.read.id
      (mem_append_right _ gone) rfl
  whole := by
    intro g member
    have ⟨data, short⟩ := kept.delivered.whole g member
    exact ⟨_, data, rfl, short⟩

def Fitting (s : State) : List Act → Prop
  | [] => True
  | action :: rest => Fits s action ∧ Fitting (step s action) rest

theorem kept_run (actions : List Act) : ∀ {s : State}, Kept s → Fitting s actions →
    Kept (actions.foldl step s) := by
  induction actions with
  | nil => exact fun kept _ => kept
  | cons _ _ ih =>
    intro _ kept fitting
    exact ih (kept_step kept fitting.1) fitting.2

theorem sound_after (actions : List Act) (fitting : Fitting State.initial actions) :
    Sound (after actions) :=
  (kept_run actions kept_initial fitting).sound

/-! ### A run that is wedged -/

/-- A source is registered and its process comes to its `alt`, takes a notification and is about to
deliver it when the source is unregistered. -/
def wedging : List Act :=
  [.ctl ⟨some 1, [], none, none⟩ (str "register email /dis/veltro/sources/email.dis"),
    .alts 0 none false, .offer 0 (some ⟨str "delete", none, []⟩),
    .ctl ⟨none, [], none, none⟩ (str "unregister email")]

theorem not_sound_wedging : ¬ ∀ actions, Sound (after actions) := by
  intro sound
  apply (sound wedging).unwedged
  have serve : (after wedging).procs.serve = .stopping (str "email") 0 [] [] := by decide +kernel
  have phase : phaseOf (after wedging).procs 0 =
      some (.holding (formatnotification (str "email") ⟨str "delete", none, []⟩)) := by
    decide +kernel
  exact ⟨_, _, _, _, serve, _, phase, Or.inr ⟨_, rfl⟩⟩

def answering : List Act :=
  [.ctl ⟨some 1, [], none, none⟩ (str "register email /dis/veltro/sources/email.dis"),
    .alts 0 none false, .opened 7, .read 1 7 0 8192,
    .offer 0 (some ⟨str "delete", none, []⟩), .deliver 0,
    .ctl ⟨none, [], none, none⟩ (str "unregister email")]

theorem fits_alts_of_idle {s : State} (idle : s.procs.serve = .idle) (k : Nat)
    (offered : Option (Option Notification)) (stop : Bool) : Fits s (.alts k offered stop) := by
  intro _ _ _ serve
  rw [idle] at serve
  cases serve

theorem fits_read_of_empty {s : State} (empty : s.mail.notifyq = []) (tag fid : Nat)
    (offset : Int) (count : Nat) : Fits s (.read tag fid offset count) := by
  intro _ _ _ _ member
  rw [empty] at member
  cases member

theorem sound_answering : (after answering).mail.given.length = 1 ∧
    Sound (after answering) := by
  constructor
  · decide +kernel
  apply sound_after
  refine ⟨?_, fits_alts_of_idle (by decide +kernel) _ _ _, trivial,
    fits_read_of_empty (by decide +kernel) _ _ _ _, trivial, ?_, ?_, trivial⟩
  · intro srcname member
    have none : unregisters (written (str "register email /dis/veltro/sources/email.dis")) =
        none := by decide +kernel
    rw [none] at member
    cases member
  · show ∀ text, phaseOf (after (answering.take 5)).procs 0 = some (.holding text) →
      Wakes (after (answering.take 5)).mail text
    have holding : phaseOf (after (answering.take 5)).procs 0 =
        some (.holding (formatnotification (str "email") ⟨str "delete", none, []⟩)) := by
      decide +kernel
    have parked : (after (answering.take 5)).mail.pendingReaders = [⟨3, 1, 7, 8192⟩] := by
      decide +kernel
    intro _ is _ member
    rw [holding] at is
    rw [parked] at member
    cases is
    cases member
    decide +kernel
  · show Stoppable (after (answering.take 6)).procs (written (str "unregister email"))
    have looping : phaseOf (after (answering.take 6)).procs 0 = some .looping := by
      decide +kernel
    have only : ∀ src ∈ (after (answering.take 6)).procs.sources, src.watcher = 0 := by
      decide +kernel
    intro _ _ src member _
    rw [only src member]
    exact Or.inl looping

end Infernode.Notify
