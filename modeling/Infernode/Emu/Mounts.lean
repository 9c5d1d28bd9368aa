import Infernode.Emu.Chan
import Infernode.Table.Chains
import Mathlib.Logic.Function.Basic

/-!
Mounting and unmounting in `emu/port/chan.c` and `emu/port/pgrp.c`.

Owns: mount heads and the chains that they are linked into, `cmount` with its allocations and
locks, `cunmount`, `findmount`, and the shape of the chains that they keep.

Does not own: how a name leads to a channel, the counts of references, and copies of a whole
namespace.
-/

namespace Infernode.Mounts

open Emu (File MREPL MBEFORE MAFTER MORDER MCREATE MREADONLY)

/-! ### Namespaces -/

def MNTHASH : Nat := 32

def Emount : String := "inconsistent mount"
def Eunmount : String := "not mounted"
def Eunion : String := "not in union"
def Enomem : String := "out of memory: kernel"

/-- What mounting looks at in a channel: the file, whether it is a directory, the file of the
channel to its server, and the mount head it was derived from. -/
structure Chan where
  file : File
  isdir : Bool
  mchan : Option File
  umh : Option Nat
deriving DecidableEq, Repr

structure Mount where
  mountid : Nat
  «to» : Chan
  mflag : Nat
  spec : Option String
deriving DecidableEq, Repr

/-- `lock` says whether the head is locked. -/
structure Mhead where
  «from» : Chan
  mount : List Mount
  lock : Bool
deriving DecidableEq, Repr

/-- A namespace; `mnthash` are the chains of the mount heads, and `ns` says whether they are
locked. -/
structure Pgrp where
  ns : Bool
  mnthash : Nat → List Nat
  nodevs : Int
  progmode : Nat

/-- The heads that were allocated, the namespaces, and the count that mount numbers are drawn
from. -/
structure World where
  head : Nat → Mhead
  nheads : Nat
  group : Nat → Pgrp
  mountid : Nat

/-- The number that `incref` returns for the count: an `int`, kept as a `ulong`. -/
def increfed (ref : Nat) : Nat := ((BitVec.ofNat 32 ref).signExtend 64).toNat

/-! ### Looking up -/

def chain (w : World) (g i : Nat) : List Nat := (w.group g).mnthash i

/-- The place that a head is mounted on, as `eqchan` compares it. -/
def place (w : World) (id : Nat) : File := (w.head id).from.file

def locate (w : World) (g : Nat) (k : File) : Option Nat :=
  Chains.lookup (place w) (chain w g (k.path % MNTHASH)) k

/-- What is found at a place: nothing, the channel that replaces it and its head, or a head with
nothing mounted, at which the kernel faults. -/
inductive Found where
  | none
  | replaced (c : Chan) (id : Nat)
  | fault
deriving DecidableEq, Repr

def findmount (w : World) (g : Nat) (k : File) : Found :=
  match locate w g k with
  | none => .none
  | some id =>
    match (w.head id).mount with
    | [] => .fault
    | m :: _ => .replaced m.to id

/-! ### Changing -/

def World.setHead (w : World) (id : Nat) (m : Mhead) : World :=
  { w with head := Function.update w.head id m }

def World.setMount (w : World) (id : Nat) (mounts : List Mount) : World :=
  w.setHead id { w.head id with mount := mounts }

def World.setGroup (w : World) (g : Nat) (p : Pgrp) : World :=
  { w with group := Function.update w.group g p }

def World.setChain (w : World) (g i : Nat) (ids : List Nat) : World :=
  w.setGroup g { w.group g with mnthash := Function.update (w.group g).mnthash i ids }

def World.lockNs (w : World) (g : Nat) : World :=
  w.setGroup g { w.group g with ns := true }

def linkAt (w : World) (g i : Nat) (old : Chan) : World :=
  ({ w.setHead w.nheads { «from» := old, mount := [], lock := false } with
      nheads := w.nheads + 1 }).setChain g i (chain w g i ++ [w.nheads])

/-- A new head at the end of the chain of its place. -/
def link (w : World) (g : Nat) (old : Chan) : World := linkAt w g (old.file.path % MNTHASH) old

/-- The head of a mount point out of its chain. -/
def unlink (w : World) (g : Nat) (k : File) : World :=
  w.setChain g (k.path % MNTHASH)
    (Chains.delete (place w) (chain w g (k.path % MNTHASH)) k)

/-! ### Mounting -/

/-- What a call of the kernel ends with: a mount number, an error, or not at all, when it waits
for a lock that is never released. -/
inductive Answer where
  | ok (mountid : Nat)
  | error (e : String)
  | blocked
deriving DecidableEq, Repr

/-- One `newmount` after the other: `memory` says which of the allocations of a call succeed,
and `used` how many there were before. -/
def newmounts (memory : Nat → Bool) : Nat → Nat → List (Chan × Nat × Option String) →
    Nat × Option (List Mount)
  | _, ref, [] => (ref, some [])
  | used, ref, (c, flag, spec) :: rest =>
    if memory used = false then (ref, none)
    else
      let (ref', more) := newmounts memory (used + 1) (ref + 1) rest
      (ref', more.map
        ({ mountid := increfed (ref + 1), «to» := c, mflag := flag, spec := spec } :: ·))

def unionOf (w : World) (new : Chan) : List Mount :=
  match new.umh with
  | none => []
  | some id => (w.head id).mount

def copyflag (flag : Nat) (um : Mount) : Nat :=
  let order := flag &&& MORDER
  let flg := if order = MREPL then MAFTER ||| (flag &&& MREADONLY) else order ||| (flag &&& MREADONLY)
  flg ||| (um.mflag &&& MREADONLY)

def sources (w : World) (new : Chan) (flag : Nat) (spec : String) :
    List (Chan × Nat × Option String) :=
  (new, flag, some spec) :: (unionOf w new).tail.map fun um => (um.to, copyflag flag um, um.spec)

def created (flag : Nat) : List Mount → List Mount
  | [] => []
  | nm :: rest =>
    (if flag &&& MCREATE ≠ 0 then { nm with mflag := nm.mflag ||| MCREATE } else nm) :: rest

def splice (flag : Nat) (new old : List Mount) : List Mount :=
  let old := if flag &&& MORDER = MREPL then [] else old
  if old ≠ [] ∧ flag &&& MORDER = MAFTER then old ++ new else new ++ old

/-- The part of `cmount` that follows the search for the head, with what is to be mounted. -/
def mountOn (w : World) (g id : Nat) (list : List (Chan × Nat × Option String)) (flag : Nat)
    (memory : Nat → Bool) (used : Nat) : World × Answer :=
  if (w.head id).lock then (w.lockNs g, .blocked)
  else
    match newmounts memory used w.mountid list with
    | (ref, none) => ({ w with mountid := ref }, .error Enomem)
    | (ref, some mounts) =>
      ({ w with mountid := ref }.setMount id
        (splice flag (created flag mounts) (w.head id).mount),
        .ok ((mounts.head?.map Mount.mountid).getD 0))

def inconsistent (w : World) (new old : Chan) (flag : Nat) : Bool :=
  new.isdir != old.isdir ||
  (!old.isdir && flag &&& MORDER != MREPL) ||
  (flag &&& MCREATE != 0 &&
    match unionOf w new with
    | [] => false
    | m :: rest => !rest.isEmpty || m.mflag &&& MCREATE == 0)

def cmount (w : World) (g : Nat) (new old : Chan) (flag : Nat) (spec : String)
    (memory : Nat → Bool) : World × Answer :=
  if inconsistent w new old flag then (w, .error Emount)
  else if (w.group g).ns then (w, .blocked)
  else
    let list := sources w new flag spec
    match locate w g old.file with
    | some id => mountOn w g id list flag memory 0
    | none =>
      let linked := link w g old
      if flag &&& MORDER = MREPL then mountOn linked g w.nheads list flag memory 0
      -- the error leaves the namespace locked
      else if memory 0 = false then (linked.lockNs g, .error Enomem)
      else
        mountOn ({ linked with mountid := w.mountid + 1 }.setMount w.nheads
          [{ mountid := increfed (w.mountid + 1), «to» := old, mflag := 0, spec := none }])
          g w.nheads list flag memory 1

/-! ### Unmounting -/

def mountOf (mounted : Chan) (f : Mount) : Bool :=
  f.to.file == mounted.file || f.to.mchan == some mounted.file

def cunmount (w : World) (g : Nat) (mnt : Chan) (mounted : Option Chan) : World × Answer :=
  if (w.group g).ns then (w, .blocked)
  else
    match locate w g mnt.file with
    | none => (w, .error Eunmount)
    | some id =>
      if (w.head id).lock then (w.lockNs g, .blocked)
      else
        match mounted with
        | none => ((unlink w g mnt.file).setMount id [], .ok 0)
        | some c =>
          if (w.head id).mount.any (mountOf c) then
            let rest := (w.head id).mount.eraseP (mountOf c)
            if rest = [] then ((unlink w g mnt.file).setMount id [], .ok 0)
            else (w.setMount id rest, .ok 0)
          else (w, .error Eunion)

/-! ### The shape of the chains -/

/-- Every head that is linked is there, in the chain of its place and in one namespace, and no
place has two. -/
structure Wf (w : World) : Prop where
  placed : ∀ g i id, id ∈ chain w g i → id < w.nheads ∧ (place w id).path % MNTHASH = i
  apart : ∀ g i, Chains.Apart (place w) (chain w g i)
  sole : ∀ g g' i i' id, id ∈ chain w g i → id ∈ chain w g' i' → g = g'

def fresh : World where
  head _ := { «from» := { file := ⟨0, 0, 0⟩, isdir := false, mchan := none, umh := none }
              mount := []
              lock := false }
  nheads := 0
  group _ := { ns := false, mnthash := fun _ => [], nodevs := 0, progmode := 0o644 }
  mountid := 0

theorem wf_fresh : Wf fresh :=
  ⟨fun _ _ _ member => (nomatch member), fun _ _ => List.Pairwise.nil,
    fun _ _ _ _ _ member => (nomatch member)⟩

section Fields

variable (w : World) (g g' i i' id id' : Nat)

@[simp] theorem setHead_head (m : Mhead) :
    (w.setHead id m).head id' = if id' = id then m else w.head id' :=
  Function.update_apply w.head id m id'

theorem setMount_head (l : List Mount) : (w.setMount id l).head id' =
    if id' = id then { w.head id with mount := l } else w.head id' := setHead_head w id id' _

@[simp] theorem setMount_place (l : List Mount) :
    place (w.setMount id l) id' = place w id' := by
  unfold place
  rw [setMount_head]
  split
  · rename_i same
    rw [same]
  · rfl

theorem setMount_mount (l : List Mount) : ((w.setMount id l).head id').mount =
    if id' = id then l else (w.head id').mount := by
  rw [setMount_head]
  split <;> rfl

@[simp] theorem setMount_lock (l : List Mount) :
    ((w.setMount id l).head id').lock = (w.head id').lock := by
  rw [setMount_head]
  split
  · rename_i same
    rw [same]
  · rfl

theorem setChain_chain (ids : List Nat) : chain (w.setChain g i ids) g' i' =
    if g' = g ∧ i' = i then ids else chain w g' i' := by
  unfold chain World.setChain World.setGroup
  dsimp only
  rw [Function.update_apply]
  by_cases same : g' = g
  · subst same
    rw [if_pos rfl]
    dsimp only
    rw [Function.update_apply]
    by_cases bucket : i' = i
    · rw [if_pos bucket, if_pos ⟨rfl, bucket⟩]
    · rw [if_neg bucket, if_neg fun both => bucket both.2]
  · rw [if_neg same, if_neg fun both => same both.1]

@[simp] theorem setChain_ns (ids : List Nat) :
    ((w.setChain g i ids).group g').ns = (w.group g').ns := by
  unfold World.setChain World.setGroup
  dsimp only
  rw [Function.update_apply]
  split
  · rename_i same
    rw [same]
  · rfl

end Fields

variable {w : World} {g : Nat}

variable {k : File} {id g' i : Nat}

theorem locate_eq_some (wf : Wf w) :
    locate w g k = some id ↔ id ∈ chain w g (k.path % MNTHASH) ∧ place w id = k :=
  Chains.lookup_eq_some (wf.apart g _)

theorem locate_setMount (id : Nat) (l : List Mount) (k : File) :
    locate (w.setMount id l) g k = locate w g k :=
  Chains.lookup_congr (fun _ _ => setMount_place w id _ l) k

/-! ### A new head -/

theorem link_head (w : World) (g : Nat) (old : Chan) (id : Nat) :
    (link w g old).head id =
      if id = w.nheads then { «from» := old, mount := [], lock := false } else w.head id :=
  setHead_head w w.nheads id _

theorem link_chain (w : World) (g : Nat) (old : Chan) (g' i : Nat) :
    chain (link w g old) g' i =
      if g' = g ∧ i = old.file.path % MNTHASH then chain w g i ++ [w.nheads] else chain w g' i := by
  unfold link linkAt
  rw [setChain_chain]
  split
  · rename_i same
    rw [same.2]
  · rfl

theorem link_place_old (wf : Wf w) (g : Nat) (old : Chan) (member : id ∈ chain w g' i) :
    place (link w g old) id = place w id := by
  unfold place
  rw [link_head, if_neg (Nat.ne_of_lt (wf.placed g' i id member).1)]

theorem link_place_new (w : World) (g : Nat) (old : Chan) :
    place (link w g old) w.nheads = old.file := by
  unfold place
  rw [link_head, if_pos rfl]

theorem lookup_link (wf : Wf w) (g : Nat) (old : Chan) (g' i : Nat) (k : File) :
    Chains.lookup (place (link w g old)) (chain w g' i) k =
      Chains.lookup (place w) (chain w g' i) k :=
  Chains.lookup_congr (fun _ member => link_place_old wf g old member) k

variable {old : Chan}

theorem locate_link (wf : Wf w) (absent : locate w g old.file = none) (g' : Nat) (k : File) :
    locate (link w g old) g' k =
      if g' = g ∧ k = old.file then some w.nheads else locate w g' k := by
  unfold locate at absent ⊢
  rw [link_chain]
  by_cases here : g' = g ∧ k.path % MNTHASH = old.file.path % MNTHASH
  · obtain ⟨rfl, bucket⟩ := here
    rw [if_pos ⟨rfl, bucket⟩]
    have fresh : Chains.lookup (place (link w g' old)) (chain w g' (k.path % MNTHASH))
        (place (link w g' old) w.nheads) = none := by
      rw [lookup_link wf, link_place_new, bucket]
      exact absent
    rw [Chains.lookup_concat fresh, link_place_new, lookup_link wf]
    by_cases same : old.file = k
    · rw [if_pos same, if_pos ⟨rfl, same.symm⟩]
    · rw [if_neg same, if_neg fun both => same both.2.symm]
  · rw [if_neg here, lookup_link wf, if_neg]
    rintro ⟨same, rfl⟩
    exact here ⟨same, rfl⟩

theorem wf_link (wf : Wf w) (absent : locate w g old.file = none) : Wf (link w g old) := by
  have cases {g' i id : Nat} (member : id ∈ chain (link w g old) g' i) :
      id ∈ chain w g' i ∨ id = w.nheads ∧ g' = g ∧ i = old.file.path % MNTHASH := by
    rw [link_chain] at member
    split at member
    · rename_i here
      rw [here.1]
      rcases List.mem_append.1 member with old' | new
      · exact .inl old'
      · exact .inr ⟨List.mem_singleton.1 new, rfl, here.2⟩
    · exact .inl member
  refine ⟨?_, ?_, ?_⟩
  · intro g' i id member
    rcases cases member with before | ⟨rfl, rfl, rfl⟩
    · rw [link_place_old wf g old before]
      have ⟨below, bucket⟩ := wf.placed g' i id before
      exact ⟨Nat.lt_succ_of_lt below, bucket⟩
    · rw [link_place_new]
      exact ⟨Nat.lt_succ_self _, rfl⟩
  · intro g' i
    have kept : Chains.Apart (place (link w g old)) (chain w g' i) := by
      refine (wf.apart g' i).imp_of_mem ?_
      intro a b left right differ
      rw [link_place_old wf g old left, link_place_old wf g old right]
      exact differ
    rw [link_chain]
    split
    · rename_i here
      obtain ⟨rfl, rfl⟩ := here
      apply Chains.apart_concat kept
      rw [lookup_link wf, link_place_new]
      exact absent
    · exact kept
  · intro g₁ g₂ i₁ i₂ id first second
    rcases cases first with before | ⟨new, same, -⟩
    · rcases cases second with before' | ⟨new, -, -⟩
      · exact wf.sole g₁ g₂ i₁ i₂ id before before'
      · exact absurd new (Nat.ne_of_lt (wf.placed g₁ i₁ id before).1)
    · rcases cases second with before' | ⟨-, same', -⟩
      · exact absurd new (Nat.ne_of_lt (wf.placed g₂ i₂ id before').1)
      · exact same.trans same'.symm

/-! ### A head that goes -/

theorem unlink_chain (w : World) (g : Nat) (k : File) (g' i : Nat) :
    chain (unlink w g k) g' i =
      if g' = g ∧ i = k.path % MNTHASH then Chains.delete (place w) (chain w g i) k
      else chain w g' i := by
  unfold unlink
  rw [setChain_chain]
  split
  · rename_i same
    rw [same.2]
  · rfl

theorem locate_unlink (wf : Wf w) (g : Nat) (k : File) (g' : Nat) (k' : File) :
    locate (unlink w g k) g' k' = if g' = g ∧ k' = k then none else locate w g' k' := by
  show Chains.lookup (place w) (chain (unlink w g k) g' (k'.path % MNTHASH)) k' = _
  rw [unlink_chain]
  by_cases here : g' = g ∧ k'.path % MNTHASH = k.path % MNTHASH
  · obtain ⟨rfl, bucket⟩ := here
    rw [if_pos ⟨rfl, bucket⟩, Chains.lookup_delete (wf.apart _ _)]
    by_cases same : k = k'
    · rw [if_pos same, if_pos ⟨rfl, same.symm⟩]
    · rw [if_neg same, if_neg fun both => same both.2.symm]
      rfl
  · rw [if_neg here, if_neg]
    · rfl
    · rintro ⟨same, rfl⟩
      exact here ⟨same, rfl⟩

theorem mem_unlink (member : id ∈ chain (unlink w g k) g' i) : id ∈ chain w g' i := by
  rw [unlink_chain] at member
  split at member
  · rename_i here
    rw [here.1]
    exact Chains.mem_of_mem_delete member
  · exact member

theorem wf_unlink (wf : Wf w) (k : File) : Wf (unlink w g k) := by
  refine ⟨fun g' i id member => wf.placed g' i id (mem_unlink member), ?_,
    fun g₁ g₂ i₁ i₂ id first second =>
      wf.sole g₁ g₂ i₁ i₂ id (mem_unlink first) (mem_unlink second)⟩
  intro g' i
  show Chains.Apart (place w) _
  rw [unlink_chain]
  split
  · exact Chains.apart_delete (wf.apart _ _) k
  · exact wf.apart g' i

theorem wf_counted (wf : Wf w) (ref : Nat) : Wf { w with mountid := ref } :=
  ⟨wf.placed, wf.apart, wf.sole⟩

theorem wf_setMount (wf : Wf w) (id : Nat) (l : List Mount) : Wf (w.setMount id l) := by
  refine ⟨?_, ?_, wf.sole⟩
  · intro g i id' member
    rw [setMount_place]
    exact wf.placed g i id' member
  intro g i
  refine (wf.apart g i).imp ?_
  intro a b differ
  rw [setMount_place, setMount_place]
  exact differ

end Infernode.Mounts
