import Infernode.Emu.Qmoves
import Infernode.Program.Runs

/-!
The accounts of a queue over any sequence of operations.

Owns: the steps on a queue, of any number of readers and writers, and that the counters agree
with the blocks exactly as long as every `pullupqueue` finds the bytes that it is asked for and
frees the space that it allocates.
-/

namespace Infernode.Qio

open Tail Runs

/-- A queue, and what the `qread` that has given up the lock has taken from it. -/
structure State where
  q : Queue
  reading : Option Reading
deriving DecidableEq, Repr

inductive Action where
  | qget
  | qdiscard (len : Nat)
  | qconsume (len : Nat)
  | qpass (b : Block) (next : List Block)
  | qpassnolim (b : Block) (next : List Block)
  | qproduce (p : List UInt8) (memory : Bool)
  | qcopy (len offset : Nat)
  | qaddlist (b : Block) (next : List Block)
  | qremove
  | qputback (b : Block)
  | qbread (len : Nat) (memory : Bool)
  | qreadtake (len : Nat)
  | qreadrest
  | qbwrite (b : Block)
  | qbwritewait
  | qwrite (rounds : Nat) (p : List UInt8)
  | qiwrite (rounds : Nat) (p : List UInt8)
  | qclose
  | qhangup (msg : String)
  | qreopen
  | qsetlimit (limit : Int)
  | qnoblock (onoff : Bool)
  | qflush
  | pullupqueue (n : Nat) (memory : Bool)
deriving DecidableEq, Repr

/-- One operation. `rlock` keeps a reader out while another one reads. -/
def act (s : State) : Action → State
  | .qget => { s with q := (qget s.q).2 }
  | .qdiscard len => { s with q := (qdiscard s.q len).2 }
  | .qconsume len => { s with q := (qconsume s.q len).2 }
  | .qpass b next => { s with q := (qpass s.q b next).2 }
  | .qpassnolim b next => { s with q := (qpassnolim s.q b next).2 }
  | .qproduce p memory => { s with q := (qproduce s.q p memory).2 }
  | .qcopy _ _ => s
  | .qaddlist b next => { s with q := qaddlist s.q b next }
  | .qremove => { s with q := (qremove s.q).2 }
  | .qputback b => { s with q := qputback s.q b }
  | .qbread len memory =>
    if s.reading.isSome then s else { s with q := (qbread s.q len memory).2 }
  | .qreadtake len =>
    if s.reading.isSome then s
    else
      match qreadtake s.q len with
      | (.done reading, q) => ⟨q, some reading⟩
      | (_, q) => ⟨q, none⟩
  | .qreadrest =>
    match s.reading with
    | none => s
    | some reading => ⟨(qreadrest s.q reading).2, none⟩
  | .qbwrite b => { s with q := (qbwrite s.q b).2 }
  | .qbwritewait => { s with q := qbwritewait s.q }
  | .qwrite rounds p => { s with q := (qwrite rounds s.q p).2 }
  | .qiwrite rounds p => { s with q := (qiwrite rounds s.q p).2 }
  | .qclose => { s with q := qclose s.q }
  | .qhangup msg => { s with q := qhangup s.q msg }
  | .qreopen => { s with q := qreopen s.q }
  | .qsetlimit limit => { s with q := qsetlimit s.q limit }
  | .qnoblock onoff => { s with q := qnoblock s.q onoff }
  | .qflush => { s with q := qflush s.q }
  | .pullupqueue n memory => { s with q := (pullupqueue s.q n memory).2 }

def step (s : State) (action : Action) : Option State := some (act s action)

def opened (limit : Int) (msg : Qstate) : State := ⟨qopen limit msg, none⟩

/-- The counters agree with the blocks, and `blast` is the last of them. -/
structure Sound (s : State) : Prop where
  dlen : s.q.dlen = blocklen (blocksOf s.q.blocks)
  len : s.q.len = blockalloclen (blocksOf s.q.blocks)
  last : s.q.blocks ≠ [] → s.q.blast = lastname s.q.blocks

def Subtracts (s : State) (_ : Action) (s' : State) : Prop := Exact s.q s'.q

/-- `pullupqueue` has nothing to do, or no memory to do it with, or it finds `n` bytes and
allocates as much space as it frees. The last case is a queue of blocks without space. -/
def Level (q : Queue) (n : Nat) (memory : Bool) : Prop :=
  match q.blocks with
  | [] => True
  | bp :: next =>
    n ≤ bp.value.blen ∨ (gained n bp.value ≠ 0 ∧ memory = false) ∨
      (n ≤ blocklen (blocksOf (bp :: next)) ∧
        gained n bp.value = blockalloclen (emptied n bp.value (blocksOf next))) ∨
      (blocklen (blocksOf (bp :: next)) < n ∧ blockalloclen (blocksOf (bp :: next)) = 0)

/-- The condition on an operation: `pullupqueue` is level. -/
def Tallied (s : State) : Action → Prop
  | .pullupqueue n memory => Level s.q n memory
  | _ => True

/-! ### One operation -/

structure Cleared (q : Queue) : Prop where
  blocks : q.blocks = []
  dlen : q.dlen = 0
  len : q.len = 0

/-- What every operation but `pullupqueue` does. -/
theorem act_moves (s : State) {action : Action} (other : ∀ n memory, action ≠ .pullupqueue n memory) :
    Moves s.q (act s action).q ∨ Cleared (act s action).q := by
  cases action with
  | qget => exact Or.inl (moves_qget s.q)
  | qdiscard len => exact Or.inl (moves_qdiscard s.q len)
  | qconsume len => exact Or.inl (moves_qconsume s.q len)
  | qpass b next => exact Or.inl (moves_qpass s.q b next)
  | qpassnolim b next => exact Or.inl (moves_qpassnolim s.q b next)
  | qproduce p memory => exact Or.inl (moves_qproduce s.q p memory)
  | qcopy _ _ => exact Or.inl (moves_refl s.q)
  | qaddlist b next => exact Or.inl (moves_qaddlist s.q b next)
  | qremove => exact Or.inl (moves_qremove s.q)
  | qputback b => exact Or.inl (moves_qputback s.q b)
  | qbread len memory =>
    rw [act]
    split
    · exact Or.inl (moves_refl s.q)
    · exact Or.inl (moves_qbread s.q len memory)
  | qreadtake len =>
    have taken := moves_qreadtake s.q len
    rw [act]
    split
    · exact Or.inl (moves_refl s.q)
    · split
      · next is => exact Or.inl (taken.of_eq is)
      · next is => exact Or.inl (taken.of_eq is)
  | qreadrest =>
    rw [act]
    split
    · exact Or.inl (moves_refl s.q)
    · next reading _ => exact Or.inl (moves_qreadrest s.q reading)
  | qbwrite b => exact Or.inl (moves_qbwrite s.q b)
  | qbwritewait => exact Or.inl (same_qbwritewait s.q).moves
  | qwrite rounds p => exact Or.inl (moves_qwrite rounds s.q p)
  | qiwrite rounds p => exact Or.inl (moves_qiwrite rounds s.q p)
  | qclose => exact Or.inr ⟨rfl, rfl, rfl⟩
  | qhangup msg => exact Or.inl (same_qhangup s.q msg).moves
  | qreopen => exact Or.inl (same_qreopen s.q).moves
  | qsetlimit limit => exact Or.inl (same_qsetlimit s.q limit).moves
  | qnoblock onoff => exact Or.inl (same_qnoblock s.q onoff).moves
  | qflush => exact Or.inr ⟨rfl, rfl, rfl⟩
  | pullupqueue n memory => exact absurd rfl (other n memory)

/-- From a queue whose counters agree, they agree afterwards exactly if they have changed as the
blocks have. -/
theorem sound_iff_exact {s s' : State} (ordered : Ordered s'.q) (sound : Sound s) :
    Sound s' ↔ Exact s.q s'.q := by
  constructor
  · intro sound'
    exact ⟨by rw [sound.dlen, sound'.dlen], by rw [sound.len, sound'.len]⟩
  intro exactly
  have dlen := exactly.dlen
  have len := exactly.len
  rw [sound.dlen] at dlen
  rw [sound.len] at len
  exact ⟨by omega, by omega, ordered.last⟩

theorem Cleared.ordered {q : Queue} (cleared : Cleared q) : Ordered q := by
  rw [Ordered, cleared.blocks]
  exact tailed_nil q.blast q.made

theorem Cleared.sound {s : State} (cleared : Cleared s.q) : Sound s where
  dlen := by
    rw [cleared.blocks, cleared.dlen]
    rfl
  len := by
    rw [cleared.blocks, cleared.len]
    rfl
  last := fun some => absurd cleared.blocks some

/-! ### pullupqueue -/

theorem ordered_pullupqueue {q : Queue} (ordered : Ordered q) (n : Nat) (memory : Bool) :
    Ordered (pullupqueue q n memory).2 := by
  rw [pullupqueue]
  split
  · exact ordered
  rename_i bp next is
  split
  · exact ordered
  rename_i less
  have less := Nat.not_le.1 less
  by_cases allowed : gained n bp.value = 0 ∨ memory = true
  · by_cases enough : n ≤ blocklen (blocksOf (bp :: next))
    · obtain ⟨cells, pulled, pullsup⟩ :=
        @pullupblock_enough q.made n memory bp next less enough allowed
      rw [pulled]
      rw [Ordered, is] at ordered
      exact ordered.left pullsup.names
    · rw [pullupblock_short (Nat.not_le.1 enough) allowed]
      exact tailed_nil none q.made
  · obtain ⟨needs, none⟩ := not_or.1 allowed
    rw [Bool.not_eq_true] at none
    rw [none, pullupblock_exhausted less needs]
    exact ordered

/-- `pullupqueue` leaves the counters as they are. -/
theorem counters_pullupqueue (q : Queue) (n : Nat) (memory : Bool) :
    (pullupqueue q n memory).2.dlen = q.dlen ∧ (pullupqueue q n memory).2.len = q.len := by
  rw [pullupqueue]
  split
  · exact ⟨rfl, rfl⟩
  split
  · exact ⟨rfl, rfl⟩
  split
  · exact ⟨rfl, rfl⟩
  · exact ⟨rfl, rfl⟩
  · exact ⟨rfl, rfl⟩

/-- So its blocks have to keep their bytes and their space, and they do exactly if it is
level. -/
theorem level_iff (q : Queue) (n : Nat) (memory : Bool) :
    (blocklen (blocksOf (pullupqueue q n memory).2.blocks) = blocklen (blocksOf q.blocks) ∧
      blockalloclen (blocksOf (pullupqueue q n memory).2.blocks) =
        blockalloclen (blocksOf q.blocks)) ↔ Level q n memory := by
  rw [pullupqueue, Level]
  cases is : q.blocks with
  | nil => exact ⟨fun _ => trivial, fun _ => ⟨by rw [is], by rw [is]⟩⟩
  | cons bp next =>
    dsimp only
    by_cases has : n ≤ bp.value.blen
    · rw [if_pos has]
      exact ⟨fun _ => Or.inl has, fun _ => ⟨by rw [is], by rw [is]⟩⟩
    have less := Nat.not_le.1 has
    rw [if_neg has]
    by_cases allowed : gained n bp.value = 0 ∨ memory = true
    · have memoryOr : ¬(gained n bp.value ≠ 0 ∧ memory = false) := by
        rintro ⟨needs, none⟩
        rcases allowed with zero | there
        · exact needs zero
        · exact absurd (there.symm.trans none) (by decide)
      by_cases enough : n ≤ blocklen (blocksOf (bp :: next))
      · obtain ⟨_, pulled, pullsup⟩ :=
          @pullupblock_enough q.made n memory bp next less enough allowed
        have space := pullsup.space
        rw [pulled]
        dsimp only
        rw [pullsup.bytes]
        constructor
        · rintro ⟨-, same⟩
          exact Or.inr (Or.inr (Or.inl ⟨enough, by omega⟩))
        rintro (here | here | ⟨-, here⟩ | ⟨short, -⟩)
        · exact absurd here has
        · exact absurd here memoryOr
        · exact ⟨rfl, by omega⟩
        · exact absurd enough (Nat.not_le.2 short)
      · have short := Nat.not_le.1 enough
        have bound := blocklen_le_blockalloclen (blocksOf (bp :: next))
        rw [pullupblock_short short allowed]
        dsimp only [blocksOf_nil]
        rw [blocklen, blockalloclen]
        constructor
        · rintro ⟨-, same⟩
          exact Or.inr (Or.inr (Or.inr ⟨short, same.symm⟩))
        rintro (here | here | ⟨here, -⟩ | ⟨-, none⟩)
        · exact absurd here has
        · exact absurd here memoryOr
        · exact absurd here enough
        · exact ⟨by omega, none.symm⟩
    · obtain ⟨needs, none⟩ := not_or.1 allowed
      rw [Bool.not_eq_true] at none
      rw [none, pullupblock_exhausted less needs]
      dsimp only
      exact ⟨fun _ => Or.inr (Or.inl ⟨needs, rfl⟩), fun _ => ⟨by rw [is], by rw [is]⟩⟩

theorem exact_pullupqueue (q : Queue) (n : Nat) (memory : Bool) :
    Exact q (pullupqueue q n memory).2 ↔ Level q n memory := by
  have ⟨dlen, len⟩ := counters_pullupqueue q n memory
  rw [← level_iff]
  constructor
  · intro exactly
    have bytes := exactly.dlen
    have space := exactly.len
    rw [dlen] at bytes
    rw [len] at space
    omega
  · rintro ⟨bytes, space⟩
    exact ⟨by rw [dlen, bytes, Int.sub_self, Int.sub_self],
      by rw [len, space, Int.sub_self, Int.sub_self]⟩

/-! ### Runs -/

theorem ordered_act {s : State} (ordered : Ordered s.q) (action : Action) :
    Ordered (act s action).q := by
  by_cases pulls : ∃ n memory, action = .pullupqueue n memory
  · obtain ⟨n, memory, rfl⟩ := pulls
    exact ordered_pullupqueue ordered n memory
  · rcases act_moves s (fun n memory is => pulls ⟨n, memory, is⟩) with moves | cleared
    · exact (moves ordered).1
    · exact cleared.ordered

/-- One operation keeps the counters right, and subtracts what it removes, exactly if it is
tallied. -/
theorem act_sound_iff {s : State} (ordered : Ordered s.q) (sound : Sound s) (action : Action) :
    Sound (act s action) ∧ Subtracts s action (act s action) ↔ Tallied s action := by
  have both := sound_iff_exact (ordered_act ordered action) sound
  rw [Subtracts, both, and_self]
  by_cases pulls : ∃ n memory, action = .pullupqueue n memory
  · obtain ⟨n, memory, rfl⟩ := pulls
    exact exact_pullupqueue s.q n memory
  have holds : Tallied s action := by
    cases action with
    | pullupqueue n memory => exact absurd ⟨n, memory, rfl⟩ pulls
    | _ => exact trivial
  refine iff_of_true ?_ holds
  rcases act_moves s (fun n memory is => pulls ⟨n, memory, is⟩) with moves | cleared
  · exact (moves ordered).2
  · exact both.1 cleared.sound

/-- In every run from `qopen` the counters agree with the blocks in every state, and every
operation subtracts exactly what it removes, if and only if every operation is tallied. -/
theorem queue_accounts (limit : Int) (msg : Qstate) (actions : List Action) :
    Always step Sound (opened limit msg) actions ∧
        Steps step Subtracts (opened limit msg) actions ↔
      Each step Tallied (opened limit msg) actions := by
  have cleared : Cleared (opened limit msg).q := ⟨rfl, rfl, rfl⟩
  refine @always_steps_iff_each State Action step (fun s => Ordered s.q) Sound Subtracts Tallied
    ?_ ?_ ?_ _ _ cleared.ordered cleared.sound
  · exact fun s action => ⟨act s action, rfl⟩
  · rintro s action after ordered stepped
    cases stepped
    exact ordered_act ordered action
  · rintro s action after ordered sound stepped
    cases stepped
    exact act_sound_iff ordered sound action

/-- `pullupqueue` of 7 bytes from blocks of 4 and of 5: one block is freed, a larger one is
allocated, and `len` stays. -/
theorem pulled_unaccounted :
    ¬∀ (limit : Int) (msg : Qstate) (actions : List Action),
      Always step Sound (opened limit msg) actions ∧
        Steps step Subtracts (opened limit msg) actions := by
  intro all
  have drifts := (all 100 ⟨false, false, false, false, false, false⟩
    [.qaddlist (filled [1, 2, 3, 4]) [], .qaddlist (filled [5, 6, 7, 8, 9]) [],
      .pullupqueue 7 true]).1 _ [] _ (List.append_nil _).symm rfl
  exact absurd drifts.len (by decide)

end Infernode.Qio
