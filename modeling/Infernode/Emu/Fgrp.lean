import Infernode.Program.Runs
import Infernode.Table.Slots

/-!
The tables of file descriptors of `emu/port/sysfile.c` and `emu/port/pgrp.c`.

Owns: `growfd`, `newfd`, `fdclose` and the calls that use them, `newfgrp` and `dupfgrp`, what
holds of a table after any sequence of them, and the pipe that breaks it.

Does not own: what a channel is, how a pipe's ends are opened, and the counts of references.
-/

namespace Infernode.Fdtable

open Runs Slots List Option

/-! ### Tables -/

def DELTAFD : Nat := 20
def MAXNFD : Nat := 4000

def Ebadfd : String := "fd out of range or not open"
def Eperm : String := "permission denied"
def Enofds : String := "no free file descriptors"

/-- The slots, with the highest that may be taken and one below which none is free. -/
structure Fgrp (α : Type) where
  fd : List (Option α)
  maxfd : Nat
  minfd : Nat
deriving DecidableEq, Repr

variable {α : Type}

def Fgrp.nfd (f : Fgrp α) : Nat := f.fd.length

/-- The table with room for `fd`, when it is not beyond the next quantum and there is
memory. -/
def growfd (f : Fgrp α) (fd : Nat) (memory : Bool) : Option (Fgrp α) :=
  if fd < f.nfd then some f
  else if min (f.nfd + DELTAFD) MAXNFD ≤ fd then none
  else if memory = false then none
  else
    some { f with fd := f.fd ++ List.replicate (min (f.nfd + DELTAFD) MAXNFD - f.nfd) none }

def newfd (f : Fgrp α) (c : α) (memory : Bool) : Except String (Fgrp α × Nat) :=
  let i := firstFree f.fd f.minfd
  match growfd f i memory with
  | none => .error Enofds
  | some g => .ok ({ fd := g.fd.set i (some c), maxfd := max g.maxfd i, minfd := i + 1 }, i)

/-- The look up of `fdtochan`. -/
def fdtochan (f : Fgrp α) (fd : Int) : Except String α :=
  if fd < 0 ∨ f.maxfd < fd then .error Ebadfd
  else
    match entry f.fd fd.toNat with
    | none => .error Ebadfd
    | some c => .ok c

/-- How far down from `i` the slots are empty. -/
def lowered (fd : List (Option α)) : Nat → Nat
  | 0 => 0
  | i + 1 => if (entry fd i).isNone then lowered fd i else i + 1

def fdclose (f : Fgrp α) (fd : Nat) : Fgrp α :=
  if (entry f.fd fd).isNone then f
  else
    { fd := f.fd.set fd none
      maxfd := if fd = f.maxfd then lowered (f.fd.set fd none) fd else f.maxfd
      minfd := min fd f.minfd }

/-! ### Calls -/

def kclose (f : Fgrp α) (fd : Int) : Fgrp α × Except String (List Nat) :=
  match fdtochan f fd with
  | .error e => (f, .error e)
  | .ok _ => (fdclose f fd.toNat, .ok [])

/-- A descriptor for a channel that was opened. -/
def install (f : Fgrp α) (c : α) (memory : Bool) : Fgrp α × Except String (List Nat) :=
  match newfd f c memory with
  | .error e => (f, .error e)
  | .ok (g, i) => (g, .ok [i])

/-- `isauth` are the channels to authentication files. -/
def kdup (isauth : α → Bool) (f : Fgrp α) (old new : Int) (memory : Bool) :
    Fgrp α × Except String (List Nat) :=
  match fdtochan f old with
  | .error e => (f, .error e)
  | .ok c =>
    if isauth c then (f, .error Eperm)
    else if new = -1 then install f c memory
    else if new < 0 then (f, .error Ebadfd)
    else
      match growfd f new.toNat memory with
      | none => (f, .error Ebadfd)
      | some g =>
        ({ g with fd := g.fd.set new.toNat (some c), maxfd := max g.maxfd new.toNat },
          .ok [new.toNat])

/-- A pipe, whose ends are opened or fail to be. When the second end gets no descriptor, the
slot of the first is cleared and nothing else. -/
def kpipe (f : Fgrp α) (ends : Except String (α × α)) (memory₀ memory₁ : Bool) :
    Fgrp α × Except String (List Nat) :=
  match ends with
  | .error e => (f, .error e)
  | .ok (c₀, c₁) =>
    match newfd f c₀ memory₀ with
    | .error e => (f, .error e)
    | .ok (g, i) =>
      match newfd g c₁ memory₁ with
      | .error e => ({ g with fd := g.fd.set i none }, .error e)
      | .ok (h, j) => (h, .ok [i, j])

/-- The number of slots of a new table for descriptors up to `maxfd`. -/
def quanta (maxfd : Nat) : Nat :=
  if DELTAFD ≤ maxfd then (maxfd + 1 + DELTAFD - 1) / DELTAFD * DELTAFD else DELTAFD

def newfgrp (old : Option (Fgrp α)) : Fgrp α :=
  match old with
  | none => { fd := List.replicate DELTAFD none, maxfd := 0, minfd := 0 }
  | some f => { fd := List.replicate (quanta f.maxfd) none, maxfd := f.maxfd, minfd := 0 }

def dupfgrp (f : Fgrp α) : Fgrp α where
  fd := f.fd.take (f.maxfd + 1) ++ List.replicate (quanta f.maxfd - (f.maxfd + 1)) none
  maxfd := f.maxfd
  minfd := f.minfd

/-- A call on one table; `memory` says whether there is memory for the table to grow. -/
inductive Op (α : Type) where
  | newfd (c : α) (memory : Bool)
  | kdup (old new : Int) (memory : Bool)
  | kclose (fd : Int)
  | kpipe (ends : Except String (α × α)) (memory₀ memory₁ : Bool)

def perform (isauth : α → Bool) (f : Fgrp α) : Op α → Fgrp α × Except String (List Nat)
  | .newfd c memory => install f c memory
  | .kdup old new memory => kdup isauth f old new memory
  | .kclose fd => kclose f fd
  | .kpipe ends memory₀ memory₁ => kpipe f ends memory₀ memory₁

/-- A call on the table with a number, or a new table beside the others. -/
inductive Action (α : Type) where
  | call (table : Nat) (op : Op α)
  | newfgrp (old : Option Nat) (memory : Bool)
  | dupfgrp (old : Nat) (memory : Bool)

def act (isauth : α → Bool) (tables : List (Fgrp α)) : Action α → List (Fgrp α)
  | .call k op =>
    match tables[k]? with
    | none => tables
    | some f => tables.set k (perform isauth f op).1
  | .newfgrp old memory =>
    if memory then tables ++ [newfgrp (old.bind fun k => tables[k]?)] else tables
  | .dupfgrp old memory =>
    if memory then tables ++ (tables[old]?.map dupfgrp).toList else tables

def step (isauth : α → Bool) (tables : List (Fgrp α)) (action : Action α) :
    Option (List (Fgrp α)) := some (act isauth tables action)

/-! ### What holds of a table -/

/-- A taken slot is at most `maxfd`, which is inside the table. -/
structure Bounded (f : Fgrp α) : Prop where
  bounded : ∀ i, (entry f.fd i).isSome = true → i ≤ f.maxfd
  room : f.maxfd < f.nfd

structure Framed (f : Fgrp α) : Prop extends Bounded f where
  quantum : DELTAFD ∣ f.nfd
  limit : f.nfd ≤ MAXNFD

/-- What is to hold of a table after every action: besides, all below `minfd` is taken, the next
descriptor is the lowest free one, and a call that fails leaves the entries as they are. -/
structure Sound (isauth : α → Bool) (f : Fgrp α) : Prop extends Bounded f where
  packed : Packed f.fd f.minfd
  lowest : ∀ c memory g i, newfd f c memory = .ok (g, i) →
    entry f.fd i = none ∧ Packed f.fd i
  restored : ∀ op e, (perform isauth f op).2 = .error e →
    ∀ i, entry (perform isauth f op).1.fd i = entry f.fd i

def HalfPipe (tables : List (Fgrp α)) : Action α → Prop
  | .call k (.kpipe ends _ memory₁) =>
    ∃ f both, tables[k]? = some f ∧ ends = .ok both ∧ OneFree f.fd ∧
      (MAXNFD ≤ f.nfd ∨ memory₁ = false)
  | _ => False

/-! ### Growing and filling -/

variable {f g : Fgrp α} {i k : Nat} {memory : Bool}

theorem growfd_some (grown : growfd f i memory = some g) :
    i < g.nfd ∧ g.maxfd = f.maxfd ∧ g.minfd = f.minfd ∧
      (∃ n, g.fd = f.fd ++ List.replicate n none) ∧
      (g.nfd = f.nfd ∨ f.nfd ≤ i ∧ g.nfd = min (f.nfd + DELTAFD) MAXNFD) := by
  unfold growfd at grown
  split at grown
  · rename_i inside
    cases grown
    exact ⟨inside, rfl, rfl, ⟨0, (append_nil _).symm⟩, .inl rfl⟩
  rename_i outside
  split at grown
  · cases grown
  rename_i within
  split at grown
  · cases grown
  cases grown
  have size : ({ f with fd := f.fd ++ List.replicate (min (f.nfd + DELTAFD) MAXNFD - f.nfd) none }
      : Fgrp α).nfd = min (f.nfd + DELTAFD) MAXNFD := by
    unfold Fgrp.nfd at outside within ⊢
    rw [length_append, length_replicate]
    omega
  rw [size]
  exact ⟨by omega, rfl, rfl, ⟨_, rfl⟩, .inr ⟨Nat.not_lt.1 outside, rfl⟩⟩

theorem growfd_none (full : growfd f i memory = none) :
    f.nfd ≤ i ∧ (min (f.nfd + DELTAFD) MAXNFD ≤ i ∨ memory = false) := by
  unfold growfd at full
  split at full
  · cases full
  rename_i outside
  refine ⟨Nat.not_lt.1 outside, ?_⟩
  split at full
  · exact .inl (by assumption)
  split at full
  · exact .inr (by assumption)
  · cases full

theorem entry_growfd (grown : growfd f i memory = some g) (j : Nat) :
    entry g.fd j = entry f.fd j := by
  obtain ⟨-, -, -, ⟨n, is⟩, -⟩ := growfd_some grown
  rw [is, entry_grown]

variable {h : Fgrp α} {c : α}

theorem newfd_ok (given : newfd f c memory = .ok (h, i)) :
    i = firstFree f.fd f.minfd ∧ ∃ g, growfd f i memory = some g ∧
      h = { fd := g.fd.set i (some c), maxfd := max g.maxfd i, minfd := i + 1 } := by
  unfold newfd at given
  dsimp only at given
  rcases grown : growfd f (firstFree f.fd f.minfd) memory with _ | g
  · rw [grown] at given
    cases given
  · rw [grown] at given
    cases given
    exact ⟨rfl, g, grown, rfl⟩

theorem newfd_error {e : String} (refused : newfd f c memory = .error e) :
    growfd f (firstFree f.fd f.minfd) memory = none := by
  unfold newfd at refused
  dsimp only at refused
  rcases grown : growfd f (firstFree f.fd f.minfd) memory with _ | g
  · rfl
  · rw [grown] at refused
    cases refused

theorem framed_filled (framed : Framed f) (grown : growfd f i memory = some g) (c : α)
    (minfd : Nat) :
    Framed { fd := g.fd.set i (some c), maxfd := max g.maxfd i, minfd := minfd } := by
  obtain ⟨inside, high, -, -, size⟩ := growfd_some grown
  have length : (g.fd.set i (some c)).length = g.nfd := length_set
  refine ⟨⟨?_, ?_⟩, ?_, ?_⟩
  · intro j taken
    rw [entry_set] at taken
    split at taken
    · rename_i same
      exact same.1 ▸ Nat.le_max_right _ _
    · rw [entry_growfd grown] at taken
      have below := framed.bounded j taken
      exact Nat.le_trans (high ▸ below) (Nat.le_max_left _ _)
  · show max g.maxfd i < (g.fd.set i (some c)).length
    have room := framed.room
    rw [length]
    omega
  · show DELTAFD ∣ (g.fd.set i (some c)).length
    have quantum := framed.quantum
    have limit := framed.limit
    rw [length]
    unfold DELTAFD MAXNFD at *
    omega
  · show (g.fd.set i (some c)).length ≤ MAXNFD
    have limit := framed.limit
    rw [length]
    omega

theorem framed_newfd (framed : Framed f) (given : newfd f c memory = .ok (h, i)) : Framed h := by
  obtain ⟨-, _, grown, is⟩ := newfd_ok given
  rw [is]
  exact framed_filled framed grown c (i + 1)

theorem entry_newfd (given : newfd f c memory = .ok (h, i)) (j : Nat) :
    entry h.fd j = if i = j then some c else entry f.fd j := by
  obtain ⟨-, _, grown, is⟩ := newfd_ok given
  obtain ⟨inside, -, -, -, -⟩ := growfd_some grown
  rw [is]
  dsimp only
  rw [entry_set, entry_growfd grown]
  by_cases same : i = j
  · rw [if_pos ⟨same, inside⟩, if_pos same]
  · rw [if_neg fun both => same both.1, if_neg same]

/-- The descriptor given has no entry, and all below it have when all below `minfd` have. -/
theorem newfd_lowest (packed : Packed f.fd f.minfd) (given : newfd f c memory = .ok (h, i)) :
    entry f.fd i = none ∧ Packed f.fd i := by
  obtain ⟨is, -⟩ := newfd_ok given
  rw [is]
  exact ⟨entry_firstFree f.fd f.minfd, packed_firstFree packed⟩

theorem packed_newfd (packed : Packed f.fd f.minfd) (given : newfd f c memory = .ok (h, i)) :
    Packed h.fd h.minfd := by
  obtain ⟨-, below⟩ := newfd_lowest packed given
  obtain ⟨-, _, -, is⟩ := newfd_ok given
  have last : h.minfd = i + 1 := by rw [is]
  rw [last]
  intro j _
  rw [entry_newfd given]
  split
  · rfl
  · exact below j (by omega)

/-! ### Closing -/

theorem lowered_le (fd : List (Option α)) (i : Nat) : lowered fd i ≤ i := by
  induction i with
  | zero => exact Nat.le_refl 0
  | succ _ _ =>
    unfold lowered
    split
    · omega
    · exact Nat.le_refl _

/-- No slot above the first of the empty ones is taken, up to where the walk began. -/
theorem le_lowered {fd : List (Option α)} {j : Nat} (taken : (entry fd j).isSome = true)
    (below : j < i) : j ≤ lowered fd i := by
  induction i with
  | zero => omega
  | succ i ih =>
    unfold lowered
    split
    · rename_i empty
      have other : j ≠ i := by
        rintro rfl
        rw [isNone_iff_eq_none.1 empty] at taken
        exact absurd taken Bool.noConfusion
      exact ih (by omega)
    · omega

theorem entry_fdclose (f : Fgrp α) (fd j : Nat) :
    entry (fdclose f fd).fd j = if fd = j then none else entry f.fd j := by
  unfold fdclose
  split
  · rename_i empty
    split
    · rename_i same
      rw [← same]
      exact isNone_iff_eq_none.1 empty
    · rfl
  rename_i taken
  have inside : fd < f.fd.length := by
    apply lt_length_of_entry
    rw [isSome_iff_ne_none]
    intro none
    rw [none] at taken
    exact taken rfl
  show entry (f.fd.set fd none) j = _
  rw [entry_set]
  by_cases same : fd = j
  · rw [if_pos ⟨same, inside⟩, if_pos same]
  · rw [if_neg fun both => same both.1, if_neg same]

theorem nfd_fdclose (f : Fgrp α) (fd : Nat) : (fdclose f fd).nfd = f.nfd := by
  unfold fdclose
  split
  · rfl
  · exact length_set

theorem framed_fdclose {fd : Nat} (framed : Framed f) (below : fd ≤ f.maxfd) :
    Framed (fdclose f fd) := by
  have length := nfd_fdclose f fd
  refine ⟨⟨?_, ?_⟩, length ▸ framed.quantum, length ▸ framed.limit⟩
  · intro j taken
    have old : (entry f.fd j).isSome = true := by
      rw [entry_fdclose] at taken
      split at taken
      · exact absurd taken Bool.noConfusion
      · exact taken
    have under := framed.bounded j old
    unfold fdclose at taken ⊢
    split
    · exact under
    rename_i full
    rw [if_neg full] at taken
    dsimp only at taken ⊢
    split
    · rename_i highest
      apply le_lowered taken
      rcases Nat.lt_or_ge j fd with less | more
      · exact less
      have same : j = fd := by omega
      rw [same, entry_set_self (by have room := framed.room; unfold Fgrp.nfd at room; omega)]
        at taken
      exact absurd taken Bool.noConfusion
    · exact under
  · rw [length]
    refine Nat.lt_of_le_of_lt ?_ framed.room
    unfold fdclose
    split
    · exact Nat.le_refl _
    dsimp only
    split
    · exact Nat.le_trans (lowered_le _ _) below
    · exact Nat.le_refl _

theorem packed_fdclose (fd : Nat) (packed : Packed f.fd f.minfd) :
    Packed (fdclose f fd).fd (fdclose f fd).minfd := by
  intro j before
  have low : j < f.minfd ∧ (fd ≠ j ∨ (entry f.fd fd).isNone = true) := by
    unfold fdclose at before
    split at before
    · exact ⟨before, .inr (by assumption)⟩
    · have least : j < min fd f.minfd := before
      omega
  rw [entry_fdclose]
  split
  · rename_i same
    rcases low.2 with other | empty
    · exact absurd same other
    rw [same, isNone_iff_eq_none] at empty
    have taken := packed j low.1
    rw [empty] at taken
    exact taken
  · exact packed j low.1

/-! ### Calls -/

theorem fdtochan_ok {fd : Int} (found : fdtochan f fd = .ok c) :
    fd.toNat ≤ f.maxfd ∧ entry f.fd fd.toNat = some c := by
  unfold fdtochan at found
  split at found
  · cases found
  rename_i inside
  split at found
  · cases found
  · rename_i d is
    cases found
    exact ⟨by omega, is⟩

variable {isauth : α → Bool}

theorem install_cases (f : Fgrp α) (c : α) (memory : Bool) :
    (∃ e, install f c memory = (f, .error e)) ∨
      ∃ g i, newfd f c memory = .ok (g, i) ∧ install f c memory = (g, .ok [i]) := by
  unfold install
  rcases given : newfd f c memory with e | ⟨g, i⟩
  · exact .inl ⟨e, rfl⟩
  · exact .inr ⟨g, i, rfl, rfl⟩

theorem kclose_cases (f : Fgrp α) (fd : Int) :
    (∃ e, kclose f fd = (f, .error e)) ∨
      fd.toNat ≤ f.maxfd ∧ kclose f fd = (fdclose f fd.toNat, .ok []) := by
  unfold kclose
  rcases found : fdtochan f fd with e | c
  · exact .inl ⟨e, rfl⟩
  · exact .inr ⟨(fdtochan_ok found).1, rfl⟩

/-- A `dup` fails and changes nothing, takes the lowest free descriptor, or fills the slot that
was asked for. -/
theorem kdup_cases (isauth : α → Bool) (f : Fgrp α) (old new : Int) (memory : Bool) :
    (∃ e, kdup isauth f old new memory = (f, .error e)) ∨
      (∃ c, kdup isauth f old new memory = install f c memory) ∨
      ∃ c g, growfd f new.toNat memory = some g ∧
        kdup isauth f old new memory =
          ({ g with fd := g.fd.set new.toNat (some c), maxfd := max g.maxfd new.toNat },
            .ok [new.toNat]) := by
  unfold kdup
  split
  · exact .inl ⟨_, rfl⟩
  rename_i c found
  split
  · exact .inl ⟨_, rfl⟩
  split
  · exact .inr (.inl ⟨c, rfl⟩)
  split
  · exact .inl ⟨_, rfl⟩
  rcases grown : growfd f new.toNat memory with _ | g
  · exact .inl ⟨_, rfl⟩
  · exact .inr (.inr ⟨c, g, rfl, rfl⟩)

/-- A pipe fails and changes nothing, gives two descriptors, or gives one and takes it back. -/
theorem kpipe_cases (f : Fgrp α) (ends : Except String (α × α)) (memory₀ memory₁ : Bool) :
    (∃ e, kpipe f ends memory₀ memory₁ = (f, .error e) ∧
      ∀ both, ends = .ok both → newfd f both.1 memory₀ = .error e) ∨
    (∃ both g i h j, ends = .ok both ∧ newfd f both.1 memory₀ = .ok (g, i) ∧
      newfd g both.2 memory₁ = .ok (h, j) ∧ kpipe f ends memory₀ memory₁ = (h, .ok [i, j])) ∨
    ∃ both g i e, ends = .ok both ∧ newfd f both.1 memory₀ = .ok (g, i) ∧
      newfd g both.2 memory₁ = .error e ∧
      kpipe f ends memory₀ memory₁ = ({ g with fd := g.fd.set i none }, .error e) := by
  unfold kpipe
  rcases ends with e | ⟨c₀, c₁⟩
  · exact .inl ⟨e, rfl, fun both is => by cases is⟩
  dsimp only
  rcases first : newfd f c₀ memory₀ with e | ⟨g, i⟩
  · refine .inl ⟨e, rfl, fun both is => ?_⟩
    cases is
    exact first
  dsimp only
  rcases second : newfd g c₁ memory₁ with e | ⟨h, j⟩
  · exact .inr (.inr ⟨(c₀, c₁), g, i, e, rfl, first, second, rfl⟩)
  · exact .inr (.inl ⟨(c₀, c₁), g, i, h, j, rfl, first, second, rfl⟩)

theorem framed_cleared (framed : Framed g) (i : Nat) : Framed { g with fd := g.fd.set i none } := by
  have length : (g.fd.set i none).length = g.fd.length := length_set
  refine ⟨⟨?_, ?_⟩, ?_, ?_⟩
  · intro j taken
    rw [entry_set] at taken
    split at taken
    · exact absurd taken Bool.noConfusion
    · exact framed.bounded j taken
  · show g.maxfd < (g.fd.set i none).length
    rw [length]
    exact framed.room
  · show DELTAFD ∣ (g.fd.set i none).length
    rw [length]
    exact framed.quantum
  · show (g.fd.set i none).length ≤ MAXNFD
    rw [length]
    exact framed.limit

theorem framed_install (framed : Framed f) (c : α) (memory : Bool) :
    Framed (install f c memory).1 := by
  rcases install_cases f c memory with ⟨e, is⟩ | ⟨g, i, given, is⟩
  · rw [is]
    exact framed
  · rw [is]
    exact framed_newfd framed given

theorem framed_perform (framed : Framed f) (op : Op α) : Framed (perform isauth f op).1 := by
  cases op with
  | newfd c memory => exact framed_install framed c memory
  | kdup old new memory =>
    show Framed (kdup isauth f old new memory).1
    rcases kdup_cases isauth f old new memory with
      ⟨e, is⟩ | ⟨c, is⟩ | ⟨c, g, grown, is⟩
    · rw [is]
      exact framed
    · rw [is]
      exact framed_install framed c memory
    · rw [is]
      exact framed_filled framed grown c g.minfd
  | kclose fd =>
    show Framed (kclose f fd).1
    rcases kclose_cases f fd with ⟨e, is⟩ | ⟨below, is⟩
    · rw [is]
      exact framed
    · rw [is]
      exact framed_fdclose framed below
  | kpipe ends memory₀ memory₁ =>
    show Framed (kpipe f ends memory₀ memory₁).1
    rcases kpipe_cases f ends memory₀ memory₁ with
      ⟨e, is, -⟩ | ⟨both, g, i, h, j, -, first, second, is⟩ | ⟨both, g, i, e, -, first, -, is⟩
    · rw [is]
      exact framed
    · rw [is]
      exact framed_newfd (framed_newfd framed first) second
    · rw [is]
      exact framed_cleared (framed_newfd framed first) i

theorem entry_given (given : newfd f c memory = .ok (g, i)) : entry f.fd i = none := by
  obtain ⟨is, -⟩ := newfd_ok given
  rw [is]
  exact entry_firstFree f.fd f.minfd

/-- The table after a pipe that gave one descriptor and took it back has the entries it had. -/
theorem entry_cleared (given : newfd f c memory = .ok (g, i)) (j : Nat) :
    entry (g.fd.set i none) j = entry f.fd j := by
  rw [entry_set, entry_newfd given]
  by_cases same : i = j
  · rw [← same, entry_given given]
    split
    · rfl
    rename_i outside
    obtain ⟨-, h, grown, is⟩ := newfd_ok given
    obtain ⟨inside, -⟩ := growfd_some grown
    refine absurd ⟨rfl, ?_⟩ outside
    rw [is]
    show i < (h.fd.set i (some c)).length
    rw [length_set]
    exact inside
  · rw [if_neg fun both => same both.1, if_neg same]

variable {op : Op α}

theorem perform_restores {e : String} (failed : (perform isauth f op).2 = .error e) (j : Nat) :
    entry (perform isauth f op).1.fd j = entry f.fd j := by
  have refused {x : Fgrp α × Except String (List Nat)} {e : String} (is : x = (f, .error e)) :
      entry x.1.fd j = entry f.fd j := by rw [is]
  have granted {x : Fgrp α × Except String (List Nat)} {g : Fgrp α} {fds : List Nat}
      (failed : x.2 = .error e) (is : x = (g, .ok fds)) : entry x.1.fd j = entry f.fd j := by
    rw [is] at failed
    cases failed
  have installed {x : Fgrp α × Except String (List Nat)} {c : α} {memory : Bool}
      (failed : x.2 = .error e) (is : x = install f c memory) :
      entry x.1.fd j = entry f.fd j := by
    rcases install_cases f c memory with ⟨e', as⟩ | ⟨g, i, -, as⟩
    · exact refused (is.trans as)
    · exact granted failed (is.trans as)
  cases op with
  | newfd _ _ => exact installed failed rfl
  | kdup old new memory =>
    rcases kdup_cases isauth f old new memory with
      ⟨e', is⟩ | ⟨c, is⟩ | ⟨c, g, -, is⟩
    · exact refused is
    · exact installed failed is
    · exact granted failed is
  | kclose fd =>
    rcases kclose_cases f fd with ⟨e', is⟩ | ⟨-, is⟩
    · exact refused is
    · exact granted failed is
  | kpipe ends memory₀ memory₁ =>
    rcases kpipe_cases f ends memory₀ memory₁ with
      ⟨e', is, -⟩ | ⟨both, g, i, h, k, -, -, -, is⟩ | ⟨both, g, i, e', -, first, -, is⟩
    · exact refused is
    · exact granted failed is
    · show entry (kpipe f ends memory₀ memory₁).1.fd j = _
      rw [is]
      exact entry_cleared first j

/-! ### What is below `minfd` -/

theorem packed_install (packed : Packed f.fd f.minfd) (c : α) (memory : Bool) :
    Packed (install f c memory).1.fd (install f c memory).1.minfd := by
  rcases install_cases f c memory with ⟨e, is⟩ | ⟨g, i, given, is⟩
  · rw [is]
    exact packed
  · rw [is]
    exact packed_newfd packed given

theorem packed_kdup (packed : Packed f.fd f.minfd) (old new : Int) (memory : Bool) :
    Packed (kdup isauth f old new memory).1.fd (kdup isauth f old new memory).1.minfd := by
  rcases kdup_cases isauth f old new memory with ⟨e, is⟩ | ⟨c, is⟩ | ⟨c, g, grown, is⟩
  · rw [is]
    exact packed
  · rw [is]
    exact packed_install packed c memory
  rw [is]
  intro j before
  obtain ⟨_, -, low, -, -⟩ := growfd_some grown
  dsimp only at before ⊢
  rw [entry_set]
  split
  · rfl
  · rw [entry_growfd grown]
    exact packed j (low ▸ before)

theorem packed_kclose (packed : Packed f.fd f.minfd) (fd : Int) :
    Packed (kclose f fd).1.fd (kclose f fd).1.minfd := by
  rcases kclose_cases f fd with ⟨e, is⟩ | ⟨-, is⟩
  · rw [is]
    exact packed
  · rw [is]
    exact packed_fdclose fd.toNat packed

theorem not_free_of_packed {bound : Nat} (packed : Packed f.fd bound) (free : entry f.fd i = none) :
    bound ≤ i := by
  rcases Nat.lt_or_ge i bound with below | above
  · have taken := packed i below
    rw [free] at taken
    exact absurd taken Bool.noConfusion
  · exact above

/-- The table holds more free slots than one when the descriptor given is beyond it. -/
theorem entry_fresh {j : Nat} (given : newfd f c memory = .ok (g, i)) (other : i ≠ j)
    (beyond : f.nfd ≤ j) : entry g.fd j = none := by
  rw [entry_newfd given, if_neg other]
  exact entry_beyond beyond

/-- A table with one free slot gives that slot, and is full then. -/
theorem newfd_oneFree (one : OneFree f.fd) (packed : Packed f.fd f.minfd)
    (given : newfd f c memory = .ok (g, i)) : g.nfd = f.nfd ∧ Packed g.fd g.nfd := by
  have ⟨u, free, unique⟩ := one
  have inside : u < f.nfd := (List.getElem?_eq_some_iff.1 free).1
  have ⟨lowest, below⟩ := newfd_lowest packed given
  have low : i ≤ u := not_free_of_packed below (entry_of_free free)
  have same : i = u := unique i (free_of_entry (by unfold Fgrp.nfd at inside; omega) lowest)
  have size : g.nfd = f.nfd := by
    obtain ⟨-, h, grown, is⟩ := newfd_ok given
    obtain ⟨-, -, -, -, sizes⟩ := growfd_some grown
    rw [is]
    show (h.fd.set i (some c)).length = f.nfd
    rw [length_set]
    rcases sizes with equal | ⟨grew, -⟩
    · exact equal
    · omega
  refine ⟨size, fun j before => ?_⟩
  rw [entry_newfd given]
  split
  · rfl
  rename_i other
  rw [isSome_iff_ne_none]
  intro none
  have also := unique j (free_of_entry (by unfold Fgrp.nfd at size before; omega) none)
  exact other (same.trans also.symm)

theorem newfd_of_full (full : growfd f (firstFree f.fd f.minfd) memory = none) :
    newfd f c memory = .error Enofds := by
  unfold newfd
  dsimp only
  rw [full]

/-- In a table that is full the search ends behind the last slot. -/
theorem firstFree_full (packed : Packed f.fd f.minfd) (full : Packed f.fd f.nfd) :
    firstFree f.fd f.minfd = f.nfd :=
  Nat.le_antisymm (firstFree_le (packed_length packed))
    (not_free_of_packed full (entry_firstFree f.fd f.minfd))

/-- The second descriptor of a pipe is refused exactly when the first took the last free slot of
a table that cannot grow. -/
theorem second_refused {c₀ c₁ : α} {memory₀ memory₁ : Bool} (framed : Framed f)
    (packed : Packed f.fd f.minfd) (first : newfd f c₀ memory₀ = .ok (g, i)) :
    (∃ e, newfd g c₁ memory₁ = .error e) ↔
      OneFree f.fd ∧ (MAXNFD ≤ f.nfd ∨ memory₁ = false) := by
  have packed' := packed_newfd packed first
  constructor
  · rintro ⟨e, refused⟩
    have ⟨outside, stuck⟩ := growfd_none (newfd_error refused)
    have ends : firstFree g.fd g.minfd = g.nfd :=
      Nat.le_antisymm (firstFree_le (packed_length packed')) outside
    have full : Packed g.fd g.nfd := ends ▸ packed_firstFree packed'
    have ⟨isFirst, h, grown, is⟩ := newfd_ok first
    obtain ⟨inside, -, -, -, sizes⟩ := growfd_some grown
    have size : g.nfd = h.nfd := by
      rw [is]
      exact length_set
    have bound : i ≤ f.nfd := isFirst ▸ firstFree_le (packed_length packed)
    rcases sizes with equal | ⟨grew, large⟩
    · refine ⟨⟨i, ?_, ?_⟩, ?_⟩
      · exact free_of_entry (by unfold Fgrp.nfd at inside equal; omega) (entry_given first)
      · intro j free
        by_contra other
        have taken := full j (by
          have within : j < f.nfd := (List.getElem?_eq_some_iff.1 free).1
          omega)
        rw [entry_newfd first, if_neg fun same => other same.symm, entry_of_free free] at taken
        exact Bool.noConfusion taken
      · rcases stuck with limit | none
        · left
          unfold DELTAFD at limit
          omega
        · exact .inr none
    · have quantum := framed.quantum
      have more : i + 1 < g.nfd := by
        unfold DELTAFD MAXNFD at *
        omega
      have fresh := entry_fresh first (Nat.ne_of_lt (Nat.lt_succ_self i)) (by omega : f.nfd ≤ i + 1)
      have last := not_free_of_packed full fresh
      omega
  · rintro ⟨one, stuck⟩
    have ⟨size, full⟩ := newfd_oneFree one packed first
    refine ⟨Enofds, newfd_of_full ?_⟩
    rw [firstFree_full packed' full]
    unfold growfd
    rw [if_neg (Nat.lt_irrefl _)]
    split
    · rfl
    rename_i room
    rcases stuck with limit | none
    · omega
    · rw [if_pos none]

/-- A pipe leaves a slot below `minfd` empty exactly when it is taken back half. -/
theorem packed_kpipe (framed : Framed f) (packed : Packed f.fd f.minfd)
    (ends : Except String (α × α)) (memory₀ memory₁ : Bool) :
    Packed (kpipe f ends memory₀ memory₁).1.fd (kpipe f ends memory₀ memory₁).1.minfd ↔
      ¬ ((∃ both, ends = .ok both) ∧ OneFree f.fd ∧ (MAXNFD ≤ f.nfd ∨ memory₁ = false)) := by
  rcases kpipe_cases f ends memory₀ memory₁ with
    ⟨e, is, refused⟩ | ⟨both, g, i, h, j, opened, first, second, is⟩ |
      ⟨both, g, i, e, opened, first, second, is⟩
  · rw [is]
    refine iff_of_true packed ?_
    rintro ⟨⟨both, opened⟩, ⟨u, free, -⟩, -⟩
    have full := growfd_none (newfd_error (refused both opened))
    have inside : u < f.nfd := (List.getElem?_eq_some_iff.1 free).1
    have low := not_free_of_packed (packed_firstFree packed) (entry_of_free free)
    omega
  · rw [is]
    refine iff_of_true (packed_newfd (packed_newfd packed first) second) ?_
    rintro ⟨-, half⟩
    obtain ⟨e, refused⟩ := (second_refused framed packed first).2 half
    rw [second] at refused
    cases refused
  rw [is]
  refine iff_of_false ?_ (not_not_intro ?_)
  · intro filled
    have last : g.minfd = i + 1 := by
      obtain ⟨-, _, -, as⟩ := newfd_ok first
      rw [as]
    have taken := filled i (by rw [last]; exact Nat.lt_succ_self i)
    rw [entry_cleared first, entry_given first] at taken
    exact Bool.noConfusion taken
  · exact ⟨⟨both, opened⟩, (second_refused framed packed first).1 ⟨e, second⟩⟩

/-! ### New tables -/

theorem quanta_spec (maxfd : Nat) :
    maxfd < quanta maxfd ∧ DELTAFD ∣ quanta maxfd ∧ (maxfd < MAXNFD → quanta maxfd ≤ MAXNFD) := by
  unfold quanta DELTAFD MAXNFD
  split <;> omega

theorem framed_newfgrp {old : Option (Fgrp α)} (framed : ∀ f, old = some f → Framed f) :
    Framed (newfgrp old) := by
  have fresh (maxfd n : Nat) (room : maxfd < n) (quantum : DELTAFD ∣ n) (limit : n ≤ MAXNFD) :
      Framed { fd := List.replicate n (none : Option α), maxfd := maxfd, minfd := 0 } := by
    have size : (List.replicate n (none : Option α)).length = n := length_replicate
    refine ⟨⟨?_, ?_⟩, ?_, ?_⟩
    · intro i taken
      have empty := entry_grown ([] : List (Option α)) n i
      rw [nil_append, entry_nil] at empty
      rw [empty] at taken
      exact Bool.noConfusion taken
    · show maxfd < (List.replicate n (none : Option α)).length
      rw [size]
      exact room
    · show DELTAFD ∣ (List.replicate n (none : Option α)).length
      rw [size]
      exact quantum
    · show (List.replicate n (none : Option α)).length ≤ MAXNFD
      rw [size]
      exact limit
  cases old with
  | none => exact fresh 0 DELTAFD (by decide) (Nat.dvd_refl _) (by decide)
  | some f =>
    have bounds := framed f rfl
    have ⟨room, quantum, limit⟩ := quanta_spec f.maxfd
    exact fresh f.maxfd _ room quantum
      (limit (Nat.lt_of_lt_of_le bounds.room bounds.limit))

theorem entry_dupfgrp (bounded : Bounded f) (i : Nat) : entry (dupfgrp f).fd i = entry f.fd i :=
  entry_kept _ (fun j taken => Nat.lt_succ_of_le (bounded.bounded j taken)) i

theorem framed_dupfgrp (framed : Framed f) : Framed (dupfgrp f) := by
  have ⟨room, quantum, limit⟩ := quanta_spec f.maxfd
  have inside := framed.room
  have size : (dupfgrp f).nfd = quanta f.maxfd := by
    unfold Fgrp.nfd dupfgrp at *
    dsimp only
    rw [length_append, length_take, length_replicate]
    omega
  refine ⟨⟨?_, size.symm ▸ room⟩, size.symm ▸ quantum, ?_⟩
  · intro i taken
    rw [entry_dupfgrp framed.toBounded] at taken
    exact framed.bounded i taken
  · rw [size]
    exact limit (Nat.lt_of_lt_of_le inside framed.limit)

theorem packed_newfgrp (old : Option (Fgrp α)) : Packed (newfgrp old).fd (newfgrp old).minfd := by
  intro i before
  cases old <;> exact absurd before (Nat.not_lt_zero i)

theorem packed_dupfgrp (bounded : Bounded f) (packed : Packed f.fd f.minfd) :
    Packed (dupfgrp f).fd (dupfgrp f).minfd := by
  intro i before
  rw [entry_dupfgrp bounded]
  exact packed i before

/-! ### Any sequence of calls -/

/-- Inside the frame a table is sound when all below `minfd` is taken. -/
theorem sound_iff (framed : Framed f) : Sound isauth f ↔ Packed f.fd f.minfd := by
  constructor
  · intro sound
    exact sound.packed
  · intro packed
    exact ⟨framed.toBounded, packed, fun _ _ _ _ given => newfd_lowest packed given,
      fun _ _ failed i => perform_restores failed i⟩

variable {tables : List (Fgrp α)}

theorem framed_act (framed : ∀ f ∈ tables, Framed f) (action : Action α) :
    ∀ f ∈ act isauth tables action, Framed f := by
  intro f member
  cases action with
  | call k op =>
    unfold act at member
    dsimp only at member
    split at member
    · exact framed f member
    rename_i g is
    rcases mem_or_eq_of_mem_set member with old | new
    · exact framed f old
    · rw [new]
      exact framed_perform (framed g (mem_of_getElem? is)) op
  | newfgrp old memory =>
    unfold act at member
    dsimp only at member
    split at member
    · rcases mem_append.1 member with old' | new
      · exact framed f old'
      rw [mem_singleton.1 new]
      apply framed_newfgrp
      intro g is
      obtain ⟨k, -, found⟩ := bind_eq_some_iff.1 is
      exact framed g (mem_of_getElem? found)
    · exact framed f member
  | dupfgrp old memory =>
    unfold act at member
    dsimp only at member
    split at member
    · rcases mem_append.1 member with old' | new
      · exact framed f old'
      rw [mem_toList, map_eq_some_iff] at new
      have ⟨g, found, is⟩ := new
      rw [← is]
      exact framed_dupfgrp (framed g (mem_of_getElem? found))
    · exact framed f member

theorem mem_act_call (is : tables[k]? = some g) :
    f ∈ act isauth tables (.call k op) →
      f ∈ tables ∨ f = (perform isauth g op).1 := by
  intro member
  unfold act at member
  dsimp only at member
  rw [is] at member
  exact mem_or_eq_of_mem_set member

theorem perform_mem_act (is : tables[k]? = some g) :
    (perform isauth g op).1 ∈ act isauth tables (.call k op) := by
  unfold act
  dsimp only
  rw [is]
  exact mem_set (List.getElem?_eq_some_iff.1 is).1 _

theorem packed_perform (isauth : α → Bool) (is : tables[k]? = some g) (framed : Framed g)
    (packed : Packed g.fd g.minfd) :
    Packed (perform isauth g op).1.fd (perform isauth g op).1.minfd ↔
      ¬ HalfPipe tables (.call k op) := by
  cases op with
  | newfd c memory => exact iff_of_true (packed_install packed c memory) not_false
  | kdup old new memory => exact iff_of_true (packed_kdup packed old new memory) not_false
  | kclose fd => exact iff_of_true (packed_kclose packed fd) not_false
  | kpipe ends memory₀ memory₁ =>
    refine (packed_kpipe framed packed ends memory₀ memory₁).trans (not_congr ?_)
    constructor
    · rintro ⟨⟨both, opened⟩, half⟩
      exact ⟨g, both, is, opened, half⟩
    · rintro ⟨f, both, found, opened, half⟩
      cases is.symm.trans found
      exact ⟨⟨both, opened⟩, half⟩

/-- One action keeps every table sound exactly when it is not such a pipe. -/
theorem sound_act {action : Action α} (framed : ∀ f ∈ tables, Framed f)
    (sound : ∀ f ∈ tables, Sound isauth f) :
    (∀ f ∈ act isauth tables action, Sound isauth f) ↔ ¬ HalfPipe tables action := by
  have packed (f : Fgrp α) (member : f ∈ tables) : Packed f.fd f.minfd := (sound f member).packed
  have enough : (∀ f ∈ act isauth tables action, Sound isauth f) ↔
      ∀ f ∈ act isauth tables action, Packed f.fd f.minfd :=
    forall₂_congr fun f member => sound_iff (framed_act framed action f member)
  rw [enough]
  cases action with
  | call k op =>
    rcases is : tables[k]? with _ | g
    · refine iff_of_true ?_ ?_
      · unfold act
        dsimp only
        rw [is]
        exact packed
      cases op with
      | kpipe _ _ _ =>
        rintro ⟨f, both, found, -⟩
        rw [is] at found
        cases found
      | _ => exact not_false
    · have within := mem_of_getElem? is
      rw [← packed_perform isauth is (framed g within) (packed g within)]
      constructor
      · intro all
        exact all _ (perform_mem_act is)
      intro one f member
      rcases mem_act_call is member with old | new
      · exact packed f old
      · rw [new]
        exact one
  | newfgrp _ _ =>
    refine iff_of_true ?_ not_false
    intro f member
    unfold act at member
    dsimp only at member
    split at member
    · rcases mem_append.1 member with old' | new
      · exact packed f old'
      · rw [mem_singleton.1 new]
        exact packed_newfgrp _
    · exact packed f member
  | dupfgrp _ _ =>
    refine iff_of_true ?_ not_false
    intro f member
    unfold act at member
    dsimp only at member
    split at member
    · rcases mem_append.1 member with old' | new
      · exact packed f old'
      rw [mem_toList, map_eq_some_iff] at new
      have ⟨g, found, is⟩ := new
      have within := mem_of_getElem? found
      rw [← is]
      exact packed_dupfgrp (framed g within).toBounded (packed g within)
    · exact packed f member

/-- From no table on, every table is sound after every call of a sequence, exactly when no pipe
is opened that finds one free slot in a table that cannot grow. -/
theorem tables_sound (isauth : α → Bool) (actions : List (Action α)) :
    Always (step isauth) (fun tables => ∀ f ∈ tables, Sound isauth f) [] actions ↔
      Each (step isauth) (fun tables action => ¬ HalfPipe tables action) [] actions := by
  have total (tables : List (Fgrp α)) (action : Action α) :
      ∃ after, step isauth tables action = some after := ⟨_, rfl⟩
  have framed (tables : List (Fgrp α)) (action : Action α) (after : List (Fgrp α))
      (framed : ∀ f ∈ tables, Framed f) (stepped : step isauth tables action = some after) :
      ∀ f ∈ after, Framed f := by
    cases stepped
    exact framed_act framed action
  have exact (tables : List (Fgrp α)) (action : Action α) (after : List (Fgrp α))
      (framed : ∀ f ∈ tables, Framed f) (sound : ∀ f ∈ tables, Sound isauth f)
      (stepped : step isauth tables action = some after) :
      (∀ f ∈ after, Sound isauth f) ↔ ¬ HalfPipe tables action := by
    cases stepped
    exact sound_act framed sound
  exact always_iff_each total framed exact (fun f member => nomatch member)
    (fun f member => nomatch member)

/-- Nineteen descriptors of a new table are in use; the pipe takes the last, and there is no
memory for more. -/
theorem half_pipe_unsound :
    ¬ Always (step fun _ : Unit => false) (fun tables => ∀ f ∈ tables, Sound (fun _ => false) f) []
      (.newfgrp none true :: (List.replicate 19 (.call 0 (.newfd () true)) ++
        [.call 0 (.kpipe (.ok ((), ())) true false)])) := by
  intro always
  let table : Fgrp Unit := ⟨List.replicate 19 (some ()) ++ [none], 19, 20⟩
  have reached : run (step fun _ : Unit => false) []
      (.newfgrp none true :: (List.replicate 19 (.call 0 (.newfd () true)) ++
        [.call 0 (.kpipe (.ok ((), ())) true false)])) = some [table] := by decide +kernel
  have sound := always _ [] _ (List.append_nil _).symm reached table (List.mem_singleton.2 rfl)
  exact absurd (sound.packed 19 (by decide)) (by decide)

end Infernode.Fdtable