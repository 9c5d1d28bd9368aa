import Infernode.Emu.Nscopy
import Infernode.Emu.Unions

/-!
Mounts, unmounts and copies of a namespace that run out of memory.

Owns: what is to hold after every call, failing or not: no lock is held, every head that is
linked has mounts, and a mount that fails changes nothing that is found; and the calls after
which it does.
-/

namespace Infernode.Mounts

open Emu (File MREPL MBEFORE MAFTER MORDER MCREATE MREADONLY)
open Runs List

/-! ### Calls -/

/-- A call of the kernel; a copy is made to a namespace that nothing is mounted in yet. -/
inductive Request where
  | cmount (g : Nat) (new old : Chan) (flag : Nat) (spec : String) (memory : Nat → Bool)
  | cunmount (g : Nat) (mnt : Chan) (mounted : Option Chan)
  | pgrpcpy (g t : Nat) (memory : Nat → Bool) (clones : Bool) (leftOrder : Cell → Option Cell)
      (leftCopy : Cell → Cell)

def Unused (w : World) (t : Nat) : Prop := ∀ i < MNTHASH, chain w t i = []

instance (w : World) (t : Nat) : Decidable (Unused w t) :=
  inferInstanceAs (Decidable (∀ i < MNTHASH, chain w t i = []))

def request (w : World) : Request → World × Answer
  | .cmount g new old flag spec memory => cmount w g new old flag spec memory
  | .cunmount g mnt mounted => cunmount w g mnt mounted
  | .pgrpcpy g t memory clones leftOrder leftCopy =>
    if Unused w t then pgrpcpy memory clones leftOrder leftCopy w g t else (w, .ok 0)

def step (w : World) (r : Request) : Option World := some (request w r).1

/-! ### What is to hold -/

/-- No lock is held, and every head that is linked has mounts. -/
structure Sound (w : World) : Prop where
  ns : ∀ g, (w.group g).ns = false
  lock : ∀ id, (w.head id).lock = false
  mounted : ∀ g i id, id ∈ chain w g i → (w.head id).mount ≠ []

def Kept (w w' : World) : Prop := ∀ g k, findmount w' g k = findmount w g k

/-- A call returns, and a mount that fails leaves what is found. -/
def Atomic (w : World) (r : Request) (w' : World) : Prop :=
  (request w r).2 ≠ .blocked ∧
    match r with
    | .cmount _ _ _ _ _ _ => ∀ e, (request w r).2 = .error e → Kept w w'
    | _ => True

/-! ### Calls that leave something half made -/

/-- The allocations of a mount on a place that has no head. -/
def allocations (w : World) (new : Chan) (flag : Nat) (spec : String) : Nat :=
  (if flag &&& MORDER = MREPL then 0 else 1) + (sources w new flag spec).length

/-- Of the heads with so many mounts each, those before one are copied whole, and it is allocated
but not its first mount. -/
def HalfCopied (memory : Nat → Bool) : Nat → List Nat → Prop
  | _, [] => False
  | used, n :: rest =>
    memory used = true ∧
      (0 < n ∧ memory (used + 1) = false ∨
        (∀ j < n, memory (used + 1 + j) = true) ∧ HalfCopied memory (used + 1 + n) rest)

def HalfMade (w : World) : Request → Prop
  | .cmount g new old flag spec memory =>
    inconsistent w new old flag = false ∧ locate w g old.file = none ∧
      ∃ i < allocations w new flag spec, memory i = false
  | .cunmount _ _ _ => False
  | .pgrpcpy g t memory _ _ _ =>
    Unused w t ∧
      HalfCopied memory 0
        ((visited (List.range MNTHASH) w g).map fun f => (w.head f.2).mount.length)

/-! ### Mounting -/

theorem newmounts_none {memory : Nat → Bool} {used ref : Nat}
    {list : List (Chan × Nat × Option String)} :
    (newmounts memory used ref list).2 = none ↔ ∃ i < list.length, memory (used + i) = false := by
  induction list generalizing used ref with
  | nil =>
    refine iff_of_false (fun none => by cases none) ?_
    rintro ⟨i, below, -⟩
    exact Nat.not_lt_zero i below
  | cons first rest ih =>
    have ⟨c, flag, spec⟩ := first
    rw [newmounts]
    split
    · rename_i none
      exact iff_of_true rfl ⟨0, Nat.succ_pos _, none⟩
    rename_i some
    have more := @ih (used + 1) (ref + 1)
    show Option.map _ (newmounts memory (used + 1) (ref + 1) rest).2 = none ↔ _
    rw [Option.map_eq_none_iff]
    refine more.trans ?_
    constructor
    · rintro ⟨i, below, none⟩
      exact ⟨i + 1, Nat.succ_lt_succ below, by
        rw [show used + (i + 1) = used + 1 + i by omega]
        exact none⟩
    rintro ⟨i, below, none⟩
    rcases Nat.eq_zero_or_pos i with zero | positive
    · rw [zero] at none
      exact absurd none some
    refine ⟨i - 1, ?_, ?_⟩
    · rw [length_cons] at below
      omega
    · rw [show used + 1 + (i - 1) = used + i by omega]
      exact none

variable {memory : Nat → Bool} {used t : Nat} {u : World}

variable {first : Chan × Nat × Option String} {rest : List (Chan × Nat × Option String)}
    {mounts l : List Mount} {flag n : Nat} {w' : World} {p : Pgrp} {visit : List Nat} {half : Prop}

theorem newmounts_ne_nil {ref ref' : Nat}
    (made : newmounts memory used ref (first :: rest) = (ref', some mounts)) : mounts ≠ [] := by
  have shown := newmounts_ok made
  rintro rfl
  cases shown

theorem created_ne_nil (some : mounts ≠ []) : created flag mounts ≠ [] := by
  cases mounts with
  | nil => exact absurd rfl some
  | cons _ _ => exact cons_ne_nil _ _

theorem splice_ne_nil {new old : List Mount} (some : new ≠ []) : splice flag new old ≠ [] := by
  intro none
  unfold splice at none
  dsimp only at none
  generalize (if flag &&& MORDER = MREPL then [] else old) = rest at none
  split at none
  · exact some (append_eq_nil_iff.1 none).2
  · exact some (append_eq_nil_iff.1 none).1

variable {w : World} {g id : Nat}

theorem sound_setMount (sound : Sound w) (id ref : Nat) (some : l ≠ []) :
    Sound (World.setMount { w with mountid := ref } id l) := by
  refine ⟨sound.ns, fun id' => ?_, fun g i id' member => ?_⟩
  · rw [setMount_lock]
    exact sound.lock id'
  rw [setMount_mount]
  split
  · exact some
  · exact sound.mounted g i id' member

theorem sound_link (sound : Sound w) (g : Nat) (old : Chan) (ref : Nat) (some : l ≠ []) :
    Sound (World.setMount { link w g old with mountid := ref } w.nheads l) := by
  refine ⟨fun g' => ?_, fun id => ?_, fun g' i id member => ?_⟩
  · exact (link_ns w g old g').trans (sound.ns g')
  · rw [setMount_lock]
    show ((link w g old).head id).lock = false
    rw [link_head]
    split
    · rfl
    · exact sound.lock id
  rw [setMount_mount]
  split
  · exact some
  rename_i other
  show ((link w g old).head id).mount ≠ []
  rw [link_head, if_neg other]
  have member' : id ∈ chain (link w g old) g' i := member
  rw [link_chain] at member'
  split at member'
  · rename_i here
    rw [← here.1] at member'
    rcases mem_append.1 member' with before | new
    · exact sound.mounted g' i id before
    · exact absurd (mem_singleton.1 new) other
  · exact sound.mounted g' i id member'

theorem mountOn_cases (unlocked : (w.head id).lock = false) (flag : Nat) (memory : Nat → Bool)
    (used : Nat) :
    ((∃ i < (first :: rest).length, memory (used + i) = false) ∧
      ∃ ref, mountOn w g id (first :: rest) flag memory used =
        ({ w with mountid := ref }, .error Enomem)) ∨
    ((¬ ∃ i < (first :: rest).length, memory (used + i) = false) ∧
      ∃ ref l n, l ≠ [] ∧ mountOn w g id (first :: rest) flag memory used =
        (World.setMount { w with mountid := ref } id l, .ok n)) := by
  unfold mountOn
  rw [unlocked, if_neg Bool.false_ne_true, ← @newmounts_none memory used w.mountid]
  rcases made : newmounts memory used w.mountid (first :: rest) with ⟨ref, _ | mounts⟩
  · exact .inl ⟨rfl, ref, rfl⟩
  · refine .inr ⟨fun none => (Option.some_ne_none mounts) none, ref, _, _, ?_, rfl⟩
    exact splice_ne_nil (created_ne_nil (newmounts_ne_nil made))

/-- What is to hold after a call that began in `w`. -/
def Good (w : World) (r : World × Answer) : Prop :=
  Sound r.1 ∧ r.2 ≠ .blocked ∧ ∀ e, r.2 = .error e → Kept w r.1

theorem good_error (sound : Sound w) (e : String) : Good w (w, .error e) :=
  ⟨sound, fun blocked => (nomatch blocked), fun _ _ _ _ => rfl⟩

theorem good_ok (sound : Sound w') (n : Nat) : Good w (w', .ok n) :=
  ⟨sound, fun blocked => (nomatch blocked), fun _ failed => (nomatch failed)⟩

theorem not_sound_link (w : World) (g : Nat) (old : Chan) (ref : Nat) :
    ¬ Sound { link w g old with mountid := ref } := by
  intro sound
  have member : w.nheads ∈ chain (link w g old) g (old.file.path % MNTHASH) := by
    rw [link_chain, if_pos ⟨rfl, rfl⟩]
    exact mem_append_right _ (mem_singleton.2 rfl)
  apply sound.mounted g _ _ member
  show ((link w g old).head w.nheads).mount = []
  rw [link_head, if_pos rfl]

theorem not_sound_lockNs (w : World) (g : Nat) : ¬ Sound (w.lockNs g) := by
  intro sound
  have locked : ((w.lockNs g).group g).ns = true := by
    show (Function.update w.group g _ g).ns = true
    rw [Function.update_self]
  rw [sound.ns g] at locked
  exact Bool.noConfusion locked

/-- Something is found at a place that nothing was found at. -/
theorem not_kept_link (wf : Wf w) {old : Chan} (absent : locate w g old.file = none) (ref ref' : Nat)
    (m : Mount) :
    ¬ Kept w { World.setMount { link w g old with mountid := ref } w.nheads [m] with
      mountid := ref' } := by
  intro kept
  have same := kept g old.file
  have there : locate { World.setMount { link w g old with mountid := ref } w.nheads [m] with
      mountid := ref' } g old.file = some w.nheads := by
    show locate (World.setMount { link w g old with mountid := ref } w.nheads [m]) g old.file = _
    rw [locate_setMount]
    show locate (link w g old) g old.file = some w.nheads
    rw [locate_link wf absent, if_pos ⟨rfl, rfl⟩]
  unfold findmount at same
  rw [absent, there] at same
  dsimp only at same
  rw [setMount_mount, if_pos rfl] at same
  cases same

/-- A mount does what is to hold exactly when it does not fail where nothing is mounted. -/
theorem cmount_good (wf : Wf w) (sound : Sound w) (g : Nat) (new old : Chan) (flag : Nat)
    (spec : String) (memory : Nat → Bool) :
    Good w (cmount w g new old flag spec memory) ↔
      ¬ HalfMade w (.cmount g new old flag spec memory) := by
  unfold cmount HalfMade
  cases refused : inconsistent w new old flag with
  | true =>
    rw [if_pos rfl]
    exact iff_of_true (good_error sound Emount) fun half =>
      Bool.false_ne_true (half.1.symm.trans refused)
  | false =>
  rw [if_neg Bool.false_ne_true, sound.ns g, if_neg Bool.false_ne_true]
  dsimp only
  rcases there : locate w g old.file with _ | id
  · let first : Chan × Nat × Option String := (new, flag, some spec)
    let rest := (unionOf w new).tail.map fun um => (um.to, copyflag flag um, um.spec)
    have halfMade : (inconsistent w new old flag = false ∧ (none : Option Nat) = none ∧
        ∃ i < allocations w new flag spec, memory i = false) ↔
        ∃ i < (if flag &&& MORDER = MREPL then 0 else 1) + (first :: rest).length,
          memory i = false :=
      ⟨fun half => half.2.2, fun half => ⟨refused, rfl, half⟩⟩
    let own : Mount := { mountid := increfed (w.mountid + 1), «to» := old, mflag := 0, spec := none }
    rw [halfMade]
    dsimp only
    by_cases replaces : flag &&& MORDER = MREPL
    · rw [if_pos replaces, if_pos replaces, Nat.zero_add]
      have unlocked : ((link w g old).head w.nheads).lock = false := by
        rw [link_head, if_pos rfl]
      rcases mountOn_cases (g := g) unlocked flag memory 0 with
        ⟨failed, ref, is⟩ | ⟨enough, ref, l, n, some, is⟩
      · refine iff_of_false (fun good => not_sound_link w g old ref ?_) ?_
        · rw [show mountOn (link w g old) g w.nheads (sources w new flag spec) flag memory 0 = _
            from is] at good
          exact good.1
        · simp only [Nat.zero_add] at failed
          exact not_not_intro failed
      · refine iff_of_true ?_ ?_
        · rw [show mountOn (link w g old) g w.nheads (sources w new flag spec) flag memory 0 = _
            from is]
          exact good_ok (sound_link sound g old ref some) n
        · simp only [Nat.zero_add] at enough
          exact enough
    · rw [if_neg replaces, if_neg replaces]
      by_cases early : memory 0 = false
      · rw [if_pos early]
        refine iff_of_false (fun good => not_sound_lockNs _ g good.1) (not_not_intro ?_)
        exact ⟨0, by omega, early⟩
      rw [if_neg early]
      have shift : (∃ i < 1 + (first :: rest).length, memory i = false) ↔
          ∃ i < (first :: rest).length, memory (1 + i) = false := by
        constructor
        · rintro ⟨i, below, none⟩
          rcases Nat.eq_zero_or_pos i with zero | positive
          · rw [zero] at none
            exact absurd none early
          · exact ⟨i - 1, by omega, by rw [show 1 + (i - 1) = i by omega]; exact none⟩
        · rintro ⟨i, below, none⟩
          exact ⟨1 + i, by omega, none⟩
      rw [shift]
      have unlocked (ref : Nat) (l : List Mount) :
          ((World.setMount { link w g old with mountid := ref } w.nheads l).head
            w.nheads).lock = false := by
        rw [setMount_lock]
        show ((link w g old).head w.nheads).lock = false
        rw [link_head, if_pos rfl]
      rcases mountOn_cases (g := g) (unlocked (w.mountid + 1) [own]) flag memory 1 with
        ⟨failed, ref, is⟩ | ⟨enough, ref, l, n, some, is⟩
      · refine iff_of_false (fun good => ?_) (not_not_intro failed)
        have good' : Good w (_, Answer.error Enomem) := Eq.mp (congrArg (Good w) is) good
        exact not_kept_link wf there (w.mountid + 1) ref own (good'.2.2 Enomem rfl)
      refine iff_of_true ?_ enough
      refine Eq.mpr (congrArg (Good w) is) ?_
      exact good_ok (sound_setMount (sound_link sound g old _ (cons_ne_nil _ _)) _ ref
        some) n
  · refine iff_of_true ?_ fun half => Option.some_ne_none id half.2.1
    rcases mountOn_cases (g := g) (sound.lock id) flag memory 0 with
      ⟨-, ref, is⟩ | ⟨-, ref, l, n, some, is⟩
    · refine Eq.mpr (congrArg (Good w) is) ?_
      exact ⟨⟨sound.ns, sound.lock, sound.mounted⟩, fun blocked => (nomatch blocked),
        fun _ _ _ _ => rfl⟩
    · refine Eq.mpr (congrArg (Good w) is) ?_
      exact good_ok (sound_setMount sound id ref some) n

/-! ### Unmounting -/

/-- Without the head of a place, and with its mounts gone, the rest is as it was. -/
theorem sound_unlink (wf : Wf w) (sound : Sound w) {k : File} (there : locate w g k = some id) :
    Sound ((unlink w g k).setMount id []) := by
  refine ⟨fun g' => ?_, fun id' => ?_, fun g' i id' member => ?_⟩
  · exact (setChain_ns w g g' _ _).trans (sound.ns g')
  · rw [setMount_lock]
    exact sound.lock id'
  have member' : id' ∈ chain (unlink w g k) g' i := member
  rw [setMount_mount]
  split
  · rename_i same
    exfalso
    rw [same] at member'
    have linked := ((locate_eq_some wf).1 there).1
    have alike := wf.sole g g' _ i id linked (mem_unlink member')
    subst alike
    have bucket : i = k.path % MNTHASH := by
      have first := (wf.placed g i id (mem_unlink member')).2
      have second := (wf.placed g _ id linked).2
      exact first.symm.trans second
    rw [unlink_chain, if_pos ⟨rfl, bucket⟩, bucket] at member'
    exact Chains.not_mem_delete (wf.apart g _) there member'
  · exact sound.mounted g' i id' (mem_unlink member')

theorem cunmount_good (wf : Wf w) (sound : Sound w) (g : Nat) (mnt : Chan)
    (mounted : Option Chan) : Good w (cunmount w g mnt mounted) := by
  unfold cunmount
  rw [sound.ns g, if_neg Bool.false_ne_true]
  rcases there : locate w g mnt.file with _ | id
  · exact good_error sound Eunmount
  dsimp only
  rw [sound.lock id, if_neg Bool.false_ne_true]
  have gone := sound_unlink wf sound there
  cases mounted with
  | none => exact good_ok gone 0
  | some c =>
    dsimp only
    split
    · split
      · exact good_ok gone 0
      · rename_i more
        exact good_ok (sound_setMount sound id w.mountid more) 0
    · exact good_error sound Eunion

/-! ### The shape of the chains after any call -/

theorem wf_congr (wf : Wf w) (nheads : w'.nheads = w.nheads) (places : place w' = place w)
    (chains : ∀ g i, chain w' g i = chain w g i) : Wf w' := by
  refine ⟨?_, ?_, ?_⟩
  · intro g i id member
    rw [chains] at member
    rw [nheads, places]
    exact wf.placed g i id member
  · intro g i
    rw [chains, places]
    exact wf.apart g i
  · intro g g' i i' id first second
    rw [chains] at first second
    exact wf.sole g g' i i' id first second

/-- A change of the fields of a namespace beside its chains. -/
theorem wf_setGroup (wf : Wf w) (same : p.mnthash = (w.group g).mnthash) : Wf (w.setGroup g p) := by
  refine wf_congr wf rfl rfl fun g' i => ?_
  show (Function.update w.group g p g').mnthash i = (w.group g').mnthash i
  rw [Function.update_apply]
  split
  · rename_i here
    rw [here, same]
  · rfl

theorem wf_lockNs (wf : Wf w) (g : Nat) : Wf (w.lockNs g) := wf_setGroup wf rfl

theorem wf_mountOn_any (wf : Wf w) (g id : Nat) (list : List (Chan × Nat × Option String))
    (flag : Nat) (memory : Nat → Bool) (used : Nat) :
    Wf (mountOn w g id list flag memory used).1 := by
  unfold mountOn
  split
  · exact wf_lockNs wf g
  · split
    · exact wf_counted wf _
    · exact wf_setMount (wf_counted wf _) id _

theorem wf_cmount (wf : Wf w) (g : Nat) (new old : Chan) (flag : Nat) (spec : String)
    (memory : Nat → Bool) : Wf (cmount w g new old flag spec memory).1 := by
  unfold cmount
  split
  · exact wf
  split
  · exact wf
  dsimp only
  split
  · exact wf_mountOn_any wf g _ _ flag memory 0
  rename_i absent
  have linked := wf_link wf absent
  split
  · exact wf_mountOn_any linked g _ _ flag memory 0
  split
  · exact wf_lockNs linked g
  · exact wf_mountOn_any (wf_setMount (wf_counted linked _) _ _) g _ _ flag memory 1

theorem wf_cunmount (wf : Wf w) (g : Nat) (mnt : Chan) (mounted : Option Chan) :
    Wf (cunmount w g mnt mounted).1 := by
  unfold cunmount
  split
  · exact wf
  split
  · exact wf
  split
  · exact wf_lockNs wf g
  split
  · exact wf_setMount (wf_unlink wf _) _ _
  split
  · dsimp only
    split
    · exact wf_setMount (wf_unlink wf _) _ _
    · exact wf_setMount wf _ _
  · exact wf

/-! ### Copying -/

def size (w : World) (f : Nat × Nat) : Nat := (w.head f.2).mount.length

/-- Where a copy that failed leaves the world: some heads are copied whole, or one more is linked
with a part of its mounts, and with none of them if `half`. -/
inductive Failed (w : World) (t : Nat) (all : List (Nat × Nat)) (half : Prop) (u : World) : Prop where
  | between (heads rest : List (Nat × Nat)) (split : all = heads ++ rest)
      (copied : Copied w t heads u) (whole : ¬ half)
  | within (heads rest : List (Nat × Nat)) (f : Nat × Nat) (v : World)
      (split : all = heads ++ f :: rest) (copied : Copied w t heads v) (next : Next w heads f)
      (same : SameBut v.nheads (linkAt v t f.1 (w.head f.2).from) u)
      (empty : (u.head v.nheads).mount = [] ↔ half)

theorem halfCopied_paid {rest : List Nat} (own : memory used = true)
    (paid : ∀ j < n, memory (used + 1 + j) = true) :
    HalfCopied memory used (n :: rest) ↔ HalfCopied memory (used + 1 + n) rest := by
  constructor
  · rintro ⟨-, ⟨some, none⟩ | ⟨-, later⟩⟩
    · have first := paid 0 some
      rw [Nat.add_zero, none] at first
      exact Bool.noConfusion first
    · exact later
  · intro later
    exact ⟨own, .inr ⟨paid, later⟩⟩

theorem halfCopied_cut {k : Nat} {rest : List Nat} (own : memory used = true) (below : k < n)
    (paid : ∀ j < k, memory (used + 1 + j) = true) (none : memory (used + 1 + k) = false) :
    k = 0 ↔ HalfCopied memory used (n :: rest) := by
  constructor
  · rintro rfl
    exact ⟨own, .inl ⟨below, none⟩⟩
  rintro ⟨-, ⟨-, first⟩ | ⟨all, -⟩⟩
  · rcases Nat.eq_zero_or_pos k with zero | positive
    · exact zero
    · have second := paid 0 positive
      rw [Nat.add_zero, first] at second
      exact Bool.noConfusion second
  · have last := all k below
    rw [none] at last
    exact Bool.noConfusion last

theorem copyheads_cases (once : visit.Nodup) (wf : Wf w) {done rest : List (Nat × Nat)}
    (split : visited visit w g = done ++ rest) {s : Copying} (copied : Copied w t done s.world) :
    (∃ s', rest.foldlM (copyhead memory w t) s = .ok s' ∧ Copied w t (done ++ rest) s'.world ∧
      ¬ HalfCopied memory s.used (rest.map (size w))) ∨
    ∃ s', rest.foldlM (copyhead memory w t) s = .error s' ∧
      Failed w t (visited visit w g) (HalfCopied memory s.used (rest.map (size w))) s'.world := by
  induction rest generalizing done s with
  | nil =>
    refine .inl ⟨s, rfl, ?_, not_false⟩
    rw [append_nil]
    exact copied
  | cons f rest ih =>
    have next := next_visited once wf split
    rw [foldlM_cons, map_cons]
    rcases head : copyhead memory w t s f with s₁ | s₁
    · refine .inr ⟨s₁, rfl, ?_⟩
      rcases copyhead_error (w := w) head with ⟨none, is⟩ | ⟨own, k, below, paid, none, same, empty⟩
      · refine .between done (f :: rest) split (is ▸ copied) ?_
        rintro ⟨own, -⟩
        rw [none] at own
        exact Bool.noConfusion own
      · exact .within done rest f s.world split copied next same
          (empty.trans (halfCopied_cut own below paid none))
    have ⟨copied', own, paid, used⟩ := copyhead_ok copied next head
    have split' : visited visit w g = (done ++ [f]) ++ rest := by
      rw [split, append_assoc]
      rfl
    have later := ih split' copied'
    rw [append_assoc, used] at later
    have same : HalfCopied memory s.used (size w f :: rest.map (size w)) ↔
        HalfCopied memory (s.used + 1 + size w f) (rest.map (size w)) :=
      halfCopied_paid own paid
    rw [same]
    exact later

theorem Copied.start (wf : Wf w) (unused : Unused w t) : Copied w t [] w where
  wf := wf
  old _ _ := rfl
  beyond _ _ := rfl
  nheads := rfl
  group _ _ := rfl
  own := rfl
  new j f is := nomatch is
  chains i id := by
    refine iff_of_false (fun member => ?_) fun ⟨j, f, is, _⟩ => nomatch is
    have bucket := (wf.placed t i id member).2
    have small : i < MNTHASH := bucket ▸ Nat.mod_lt _ (by decide)
    rw [unused i small] at member
    cases member

theorem sound_copied {heads : List (Nat × Nat)} (wf : Wf w) (sound : Sound w)
    (copied : Copied w t heads u) (linked : ∀ e ∈ heads, e.2 ∈ chain w g e.1) : Sound u := by
  refine ⟨fun g' => ?_, fun id => ?_, fun g' i id member => ?_⟩
  · by_cases here : g' = t
    · rw [here, copied.own]
      exact sound.ns t
    · rw [copied.group g' here]
      exact sound.ns g'
  · have size := copied.nheads
    rcases Nat.lt_or_ge id w.nheads with below | above
    · rw [copied.old id below]
      exact sound.lock id
    rcases Nat.lt_or_ge id u.nheads with within | beyond
    · have inside : id - w.nheads < heads.length := by omega
      have position : w.nheads + (id - w.nheads) = id := by omega
      have new := copied.new (id - w.nheads) _ (getElem?_eq_getElem inside)
      rw [position] at new
      exact new.2.1
    · rw [copied.beyond id beyond]
      exact sound.lock id
  · by_cases here : g' = t
    · rw [here] at member
      have ⟨j, f, is, same⟩ := (copied.chains i id).1 member
      have mounts := (copied.new j _ is).2.2
      intro none
      rw [same] at none
      rw [none, map_nil] at mounts
      exact sound.mounted g i f (linked _ (mem_of_getElem? is))
        (map_eq_nil_iff.1 mounts.symm)
    · have member' : id ∈ (u.group g').mnthash i := member
      rw [copied.group g' here] at member'
      rw [copied.old id (wf.placed g' i id member').1]
      exact sound.mounted g' i id member'

theorem wf_failed {all : List (Nat × Nat)} (failed : Failed w t all half u) : Wf u := by
  cases failed with
  | between _ _ _ copied _ => exact copied.wf
  | within _ _ _ _ _ copied next same _ =>
    exact wf_sameBut (copied.wf_linked next) same

/-- After a copy that failed all is sound unless a head was left with no mounts. -/
theorem sound_failed (wf : Wf w) (sound : Sound w) (failed : Failed w t (visited visit w g) half u)
    : Sound u ↔ ¬ half := by
  have linked {e : Nat × Nat} (member : e ∈ visited visit w g) : e.2 ∈ chain w g e.1 :=
    (mem_visited.1 member).2
  cases failed with
  | between _ _ split copied whole =>
    refine iff_of_true (sound_copied (g := g) wf sound copied fun e member => ?_) whole
    exact linked (by rw [split]; exact mem_append_left _ member)
  | within _ _ f v split copied next same empty =>
    have before : Sound v := by
      apply sound_copied (g := g) wf sound copied
      intro _ member
      exact linked (by rw [split]; exact mem_append_left _ member)
    have link' := linkAt_next v t next
    rw [link'] at same
    have chains (g' i : Nat) : chain u g' i = chain (link v t (w.head f.2).from) g' i := by
      unfold chain
      rw [same.group]
    constructor
    · intro after none
      refine after.mounted t ((w.head f.2).from.file.path % MNTHASH) v.nheads ?_ (empty.2 none)
      rw [chains, link_chain, if_pos ⟨rfl, rfl⟩]
      exact mem_append_right _ (mem_singleton.2 rfl)
    intro some
    have mounts : (u.head v.nheads).mount ≠ [] := fun none => some (empty.1 none)
    have like := sound_link before t (w.head f.2).from (link v t (w.head f.2).from).mountid mounts
    refine ⟨fun g' => ?_, fun id => ?_, fun g' i id member => ?_⟩
    · rw [same.group]
      exact like.ns g'
    · by_cases here : id = v.nheads
      · rw [here, same.lock, link_head, if_pos rfl]
      · rw [same.head id here, link_head, if_neg here]
        exact before.lock id
    by_cases here : id = v.nheads
    · rw [here]
      exact mounts
    rw [chains] at member
    have kept := like.mounted g' i id member
    rw [setMount_mount, if_neg here] at kept
    rw [same.head id here]
    exact kept

/-! ### Numbering -/

theorem wf_renumber (order : Option Cell → Option Cell) (copy : Cell → Cell) (fuel : Nat)
    (slot : Option Cell) (wf : Wf w) : Wf (renumber order copy fuel slot w) := by
  induction fuel generalizing slot w with
  | zero => exact wf
  | succ _ ih =>
    unfold renumber
    split
    · exact wf
    · apply ih
      exact wf_counted (wf_setMount wf _ _) _

theorem sound_renumber (order : Option Cell → Option Cell) (copy : Cell → Cell) (fuel : Nat)
    (slot : Option Cell) (sound : Sound w) : Sound (renumber order copy fuel slot w) := by
  induction fuel generalizing slot w with
  | zero => exact sound
  | succ fuel ih =>
    unfold renumber
    split
    · exact sound
    rename_i m is
    apply ih
    refine ⟨sound.ns, fun id => ?_, fun g i id member => ?_⟩
    · show ((World.setMount w _ _).head id).lock = false
      rw [setMount_lock]
      exact sound.lock id
    have mounted := sound.mounted g i id member
    show ((World.setMount w _ _).head id).mount ≠ []
    rw [setMount_mount]
    split
    · rename_i same
      rw [same] at mounted
      intro none
      apply mounted
      rw [← length_eq_zero_iff] at none ⊢
      rwa [length_modify] at none
    · exact mounted

theorem sound_setGroup (sound : Sound w) (chains : p.mnthash = (w.group g).mnthash)
    (ns : p.ns = (w.group g).ns) : Sound (w.setGroup g p) := by
  have group (g' : Nat) : ((w.setGroup g p).group g').ns = (w.group g').ns ∧
      ((w.setGroup g p).group g').mnthash = (w.group g').mnthash := by
    show (Function.update w.group g p g').ns = _ ∧ (Function.update w.group g p g').mnthash = _
    rw [Function.update_apply]
    split
    · rename_i here
      rw [here]
      exact ⟨ns, chains⟩
    · exact ⟨rfl, rfl⟩
  refine ⟨fun g' => (group g').1.trans (sound.ns g'), sound.lock, fun g' i id member => ?_⟩
  have member' : id ∈ ((w.setGroup g p).group g').mnthash i := member
  rw [(group g').2] at member'
  exact sound.mounted g' i id member'

section Pgrpcpy

variable {visit : List Nat} (once : visit.Nodup) (memory : Nat → Bool) (clones : Bool)
  (leftOrder : Cell → Option Cell) (leftCopy : Cell → Cell) {t : Nat}

include once

theorem copyheads_start (wf : Wf w) (unused : Unused w t) :
    (∃ s', (visited visit w g).foldlM (copyhead memory w t)
        ⟨w, 0, fun slot => slot.bind leftOrder, leftCopy, 0⟩ = .ok s' ∧
      Copied w t (visited visit w g) s'.world ∧
      ¬ HalfCopied memory 0 ((visited visit w g).map (size w))) ∨
    ∃ s', (visited visit w g).foldlM (copyhead memory w t)
        ⟨w, 0, fun slot => slot.bind leftOrder, leftCopy, 0⟩ = .error s' ∧
      Failed w t (visited visit w g) (HalfCopied memory 0 ((visited visit w g).map (size w)))
        s'.world := by
  have none : Copied w t []
      (⟨w, 0, fun slot => slot.bind leftOrder, leftCopy, 0⟩ : Copying).world :=
    Copied.start wf unused
  exact copyheads_cases once wf (nil_append _).symm none

theorem wf_pgrpcpyIn (wf : Wf w) (unused : Unused w t) :
    Wf (pgrpcpyIn visit memory clones leftOrder leftCopy w g t).1 := by
  unfold pgrpcpyIn
  split
  · exact wf
  split
  · exact wf_lockNs wf g
  dsimp only
  rcases copyheads_start (g := g) once memory leftOrder leftCopy wf unused with
    ⟨s', is, copied, -⟩ | ⟨s', is, failed⟩
  · rw [is]
    dsimp only
    have numbered := wf_renumber s'.order s'.copy s'.threaded none copied.wf
    split
    · exact wf_setGroup numbered rfl
    apply wf_setGroup
    · apply wf_setGroup numbered
      rfl
    · rfl
  · rw [is]
    exact wf_failed failed

/-- A copy to a namespace with nothing mounted leaves all sound exactly when it does not lack
memory for the first mount of a head. -/
theorem pgrpcpyIn_good (wf : Wf w) (sound : Sound w) (unused : Unused w t) :
    Sound (pgrpcpyIn visit memory clones leftOrder leftCopy w g t).1 ∧
        (pgrpcpyIn visit memory clones leftOrder leftCopy w g t).2 ≠ .blocked ↔
      ¬ HalfCopied memory 0 ((visited visit w g).map (size w)) := by
  have unlocked : ((visited visit w g).any fun f => (w.head f.2).lock) = false := by
    rw [any_eq_false]
    intro f _ locked
    rw [sound.lock f.2] at locked
    exact Bool.noConfusion locked
  unfold pgrpcpyIn
  rw [sound.ns g, if_neg Bool.false_ne_true, unlocked, if_neg Bool.false_ne_true]
  dsimp only
  rcases copyheads_start (g := g) once memory leftOrder leftCopy wf unused with
    ⟨s', is, copied, whole⟩ | ⟨s', is, failed⟩
  · rw [is]
    refine iff_of_true ?_ whole
    have numbered := sound_renumber s'.order s'.copy s'.threaded none
      (sound_copied (g := g) wf sound copied fun e member => (mem_visited.1 member).2)
    dsimp only
    split
    · exact ⟨sound_setGroup numbered rfl rfl, fun blocked => nomatch blocked⟩
    refine ⟨?_, fun blocked => nomatch blocked⟩
    apply sound_setGroup
    · apply sound_setGroup numbered <;> rfl
    · rfl
    · rfl
  · rw [is]
    refine (and_iff_left fun blocked => nomatch blocked).trans ?_
    exact sound_failed wf sound failed

end Pgrpcpy

/-! ### Any sequence of calls -/

theorem wf_request (wf : Wf w) (r : Request) : Wf (request w r).1 := by
  cases r with
  | cmount g new old flag spec memory => exact wf_cmount wf g new old flag spec memory
  | cunmount g mnt mounted => exact wf_cunmount wf g mnt mounted
  | pgrpcpy g t memory clones leftOrder leftCopy =>
    unfold request
    dsimp only
    split
    · rename_i unused
      exact wf_pgrpcpyIn nodup_range memory clones leftOrder leftCopy wf unused
    · exact wf

theorem request_good (wf : Wf w) (sound : Sound w) (r : Request) :
    Sound (request w r).1 ∧ Atomic w r (request w r).1 ↔ ¬ HalfMade w r := by
  cases r with
  | cmount g new old flag spec memory => exact cmount_good wf sound g new old flag spec memory
  | cunmount g mnt mounted =>
    have good := cunmount_good wf sound g mnt mounted
    exact iff_of_true ⟨good.1, good.2.1, trivial⟩ not_false
  | pgrpcpy _ t memory clones leftOrder leftCopy =>
    unfold Atomic HalfMade request
    dsimp only
    by_cases unused : Unused w t
    · rw [if_pos unused, and_true]
      refine (pgrpcpyIn_good nodup_range memory clones leftOrder leftCopy wf sound
        unused).trans (not_congr ?_)
      exact ⟨fun half => ⟨unused, half⟩, fun half => half.2⟩
    · rw [if_neg unused]
      exact iff_of_true ⟨sound, fun blocked => (nomatch blocked), trivial⟩
        fun half => unused half.1

theorem sound_fresh : Sound fresh :=
  ⟨fun _ => rfl, fun _ => rfl, fun _ _ _ member => nomatch member⟩

/-- In every sequence of calls no lock stays held, every head that is linked has mounts, and a
mount that fails changes nothing that is found, exactly when no call leaves something half
made. -/
theorem mounts_atomic (requests : List Request) :
    Always step Sound fresh requests ∧ Steps step Atomic fresh requests ↔
      Each step (fun w r => ¬ HalfMade w r) fresh requests := by
  have total (w : World) (r : Request) : ∃ after, step w r = some after := ⟨_, rfl⟩
  have framed (w : World) (r : Request) (after : World) (wf : Wf w)
      (stepped : step w r = some after) : Wf after := by
    cases stepped
    exact wf_request wf r
  have exact (w : World) (r : Request) (after : World) (wf : Wf w) (sound : Sound w)
      (stepped : step w r = some after) : Sound after ∧ Atomic w r after ↔ ¬ HalfMade w r := by
    cases stepped
    exact request_good wf sound r
  exact always_steps_iff_each total framed exact wf_fresh sound_fresh

/-- There is no memory to mount one directory before another: the namespace stays locked. -/
theorem mount_before_half_made :
    ¬ (Always step Sound fresh
        [.cmount 0 { file := ⟨0, 0, 2⟩, isdir := true, mchan := none, umh := none }
          { file := ⟨0, 0, 1⟩, isdir := true, mchan := none, umh := none } MBEFORE ""
          fun _ => false] ∧
      Steps step Atomic fresh
        [.cmount 0 { file := ⟨0, 0, 2⟩, isdir := true, mchan := none, umh := none }
          { file := ⟨0, 0, 1⟩, isdir := true, mchan := none, umh := none } MBEFORE ""
          fun _ => false]) := by
  rintro ⟨always, -⟩
  have sound := always _ [] _ (List.append_nil _).symm rfl
  exact absurd (sound.ns 0) (by decide +kernel)

end Infernode.Mounts
