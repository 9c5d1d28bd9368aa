import Infernode.Emu.Mounts
import Infernode.Program.Runs

/-!
The order of union directories.

Owns: unions as plain lists with what mounting and unmounting is to do to them, and that the
mount heads of `cmount` and `cunmount` show those lists after any sequence of calls.
-/

namespace Infernode.Mounts

open Emu (File MREPL MBEFORE MAFTER MORDER MCREATE MREADONLY)
open Runs List Function

/-! ### Plain lists -/

structure Member where
  «to» : Chan
  readonly : Bool
  spec : Option String
deriving DecidableEq, Repr

def readonly (flag : Nat) : Bool := flag &&& MREADONLY != 0

def member (m : Mount) : Member := { «to» := m.to, readonly := readonly m.mflag, spec := m.spec }

/-- Unions by number, and the number of the union at each place of a namespace. -/
structure Unions where
  members : Nat → List Member
  point : Nat → File → Option Nat
  next : Nat

namespace Unions

variable (u : Unions)

/-- The union at a place, which has no members where nothing is mounted. -/
def seen (g : Nat) (k : File) : List Member :=
  match u.point g k with
  | none => []
  | some id => u.members id

def derivedFrom (new : Chan) : List Member :=
  match new.umh with
  | none => []
  | some id => u.members id

def source (new : Chan) (flag : Nat) (spec : String) : List Member :=
  { «to» := new, readonly := readonly flag, spec := some spec } ::
    (u.derivedFrom new).tail.map fun m => { m with readonly := readonly flag || m.readonly }

def arrange (order : Nat) (new old : List Member) : List Member :=
  if order = MREPL then new else if order = MAFTER then old ++ new else new ++ old

/-- A directory on which nothing is mounted begins a union of its own. -/
def beginning (order : Nat) (old : Chan) : List Member :=
  if order = MREPL then [] else [{ «to» := old, readonly := false, spec := none }]

def setMembers (id : Nat) (l : List Member) : Unions :=
  { u with members := Function.update u.members id l }

def mount (g : Nat) (new old : Chan) (flag : Nat) (spec : String) : Unions :=
  match u.point g old.file with
  | some id =>
    u.setMembers id (arrange (flag &&& MORDER) (u.source new flag spec) (u.members id))
  | none =>
    { members := Function.update u.members u.next
        (arrange (flag &&& MORDER) (u.source new flag spec) (beginning (flag &&& MORDER) old))
      point := fun g' k => if g' = g ∧ k = old.file then some u.next else u.point g' k
      next := u.next + 1 }

def removed (g : Nat) (k : File) (id : Nat) : Unions :=
  { u.setMembers id [] with
      point := fun g' k' => if g' = g ∧ k' = k then none else u.point g' k' }

def isOf (mounted : Chan) (m : Member) : Bool :=
  m.to.file == mounted.file || m.to.mchan == some mounted.file

def unmount (g : Nat) (mnt : Chan) (mounted : Option Chan) : Unions :=
  match u.point g mnt.file with
  | none => u
  | some id =>
    match mounted with
    | none => u.removed g mnt.file id
    | some c =>
      if (u.members id).eraseP (isOf c) = [] then u.removed g mnt.file id
      else u.setMembers id ((u.members id).eraseP (isOf c))

end Unions

/-! ### Calls that succeed -/

inductive Call where
  | cmount (g : Nat) (new old : Chan) (flag : Nat) (spec : String) (memory : Nat → Bool)
  | cunmount (g : Nat) (mnt : Chan) (mounted : Option Chan)

def call (w : World) : Call → World × Answer
  | .cmount g new old flag spec memory => cmount w g new old flag spec memory
  | .cunmount g mnt mounted => cunmount w g mnt mounted

def succeeds (w : World) (c : Call) : Option World :=
  match call w c with
  | (after, .ok _) => some after
  | _ => none

def Unions.replay (u : Unions) : Call → Unions
  | .cmount g new old flag spec _ => u.mount g new old flag spec
  | .cunmount g mnt mounted => u.unmount g mnt mounted

def unions (w : World) : Unions where
  members id := (w.head id).mount.map member
  point := locate w
  next := w.nheads

/-! ### Flags -/

theorem readonly_or (a b : Nat) : readonly (a ||| b) = (readonly a || readonly b) := by
  unfold readonly
  rw [Nat.and_or_distrib_right, Bool.eq_iff_iff, Bool.or_eq_true, bne_iff_ne, bne_iff_ne,
    bne_iff_ne, Ne, Nat.or_eq_zero_iff, not_and_or]

theorem readonly_and (a : Nat) : readonly (a &&& MREADONLY) = readonly a := by
  unfold readonly
  rw [Nat.and_assoc, Nat.and_self]

theorem readonly_order (flag : Nat) : readonly (flag &&& MORDER) = false := by
  unfold readonly
  rw [Nat.and_assoc, show MORDER &&& MREADONLY = 0 from rfl, Nat.and_zero]
  rfl

/-- A copied mount is read-only when the union it comes from has it so, or the call asks. -/
theorem readonly_copyflag (flag : Nat) (um : Mount) :
    readonly (copyflag flag um) = (readonly flag || readonly um.mflag) := by
  unfold copyflag
  dsimp only
  rw [readonly_or, readonly_and]
  congr 1
  split
  · rw [readonly_or, readonly_and, show readonly MAFTER = false from rfl, Bool.false_or]
  · rw [readonly_or, readonly_and, readonly_order, Bool.false_or]

theorem readonly_create (flag : Nat) : readonly (flag ||| MCREATE) = readonly flag := by
  rw [readonly_or, show readonly MCREATE = false from rfl, Bool.or_false]

/-! ### New mounts -/

variable {memory : Nat → Bool} {used flag g id n : Nat} {list : List (Chan × Nat × Option String)}
    {w w' : World} {new : Chan} {spec : String}

theorem newmounts_ok {ref ref' : Nat} {mounts : List Mount}
    (made : newmounts memory used ref list = (ref', some mounts)) :
    mounts.map (fun m => (m.to, m.mflag, m.spec)) = list := by
  induction list generalizing used ref ref' mounts with
  | nil =>
    cases made
    rfl
  | cons first rest ih =>
    have ⟨_, _, _⟩ := first
    rw [newmounts] at made
    split at made
    · cases made
    rcases more : newmounts memory (used + 1) (ref + 1) rest with ⟨r, _ | l⟩
    · rw [more] at made
      cases made
    · rw [more] at made
      cases made
      rw [map_cons, ih more]

theorem map_member_created (flag : Nat) (mounts : List Mount) :
    (created flag mounts).map member = mounts.map member := by
  cases mounts with
  | nil => rfl
  | cons _ _ =>
    rw [created, map_cons, map_cons]
    congr 1
    split
    · unfold member
      dsimp only
      rw [readonly_create]
    · rfl

theorem map_member_splice (flag : Nat) (new old : List Mount) :
    (splice flag new old).map member =
      Unions.arrange (flag &&& MORDER) (new.map member) (old.map member) := by
  unfold splice Unions.arrange
  by_cases replaces : flag &&& MORDER = MREPL
  · simp only [if_pos replaces]
    rw [if_neg (fun both => both.1 rfl), append_nil]
  simp only [if_neg replaces]
  by_cases behind : flag &&& MORDER = MAFTER
  · rw [if_pos behind]
    rcases old with _ | ⟨f, more⟩
    · rw [if_neg (fun both => both.1 rfl)]
      simp
    · rw [if_pos ⟨cons_ne_nil _ _, behind⟩, map_append]
  · rw [if_neg (fun both => behind both.2), if_neg behind, map_append]

theorem map_member_sources {mounts : List Mount}
    (made : mounts.map (fun m => (m.to, m.mflag, m.spec)) = sources w new flag spec) :
    mounts.map member = (unions w).source new flag spec := by
  have shown : mounts.map member =
      (mounts.map fun m => (m.to, m.mflag, m.spec)).map
        fun t => { «to» := t.1, readonly := readonly t.2.1, spec := t.2.2 } := by
    rw [map_map]
    rfl
  rw [shown, made]
  have derived : (unions w).derivedFrom new = (unionOf w new).map member := by
    unfold Unions.derivedFrom unionOf
    cases new.umh <;> rfl
  unfold sources Unions.source
  rw [map_cons, map_map, derived, ← map_tail, map_map]
  congr 1
  apply map_congr_left
  intro _ _
  show Member.mk _ _ _ = Member.mk _ _ _
  rw [readonly_copyflag]
  rfl

/-! ### What the calls do to the lists -/

theorem unions_setMount (w : World) (id : Nat) (l : List Mount) :
    unions (w.setMount id l) = (unions w).setMembers id (l.map member) := by
  unfold unions Unions.setMembers
  congr 1
  · funext id'
    rw [setMount_mount, update_apply]
    split <;> rfl
  · funext g k
    exact locate_setMount id l k

theorem unions_link (wf : Wf w) {old : Chan} (absent : locate w g old.file = none) :
    unions (link w g old) =
      { members := Function.update (unions w).members w.nheads []
        point := fun g' k => if g' = g ∧ k = old.file then some w.nheads else locate w g' k
        next := w.nheads + 1 } := by
  unfold unions
  congr 1
  · funext id
    rw [link_head, update_apply]
    split <;> rfl
  · funext g' k
    exact locate_link wf absent g' k

theorem unions_removed (wf : Wf w) (g : Nat) (k : File) (id : Nat) :
    unions ((unlink w g k).setMount id []) = (unions w).removed g k id := by
  rw [unions_setMount]
  unfold unions Unions.setMembers Unions.removed
  congr 1
  funext g' k'
  exact locate_unlink wf g k g' k'

theorem mountOn_ok (ok : mountOn w g id list flag memory used = (w', .ok n)) :
    ∃ ref mounts, mounts.map (fun m : Mount => (m.to, m.mflag, m.spec)) = list ∧
      w' = World.setMount { w with mountid := ref } id
        (splice flag (created flag mounts) (w.head id).mount) := by
  unfold mountOn at ok
  split at ok
  · cases ok
  rcases made : newmounts memory used w.mountid list with ⟨ref, _ | mounts⟩
  · rw [made] at ok
    cases ok
  · rw [made] at ok
    cases ok
    exact ⟨ref, mounts, newmounts_ok made, rfl⟩

theorem unions_mountOn {from' : World}
    (ok : mountOn w g id (sources from' new flag spec) flag memory used = (w', .ok n)) :
    unions w' = (unions w).setMembers id
      (Unions.arrange (flag &&& MORDER) ((unions from').source new flag spec)
        ((unions w).members id)) := by
  have ⟨_, _, made, is⟩ := mountOn_ok ok
  rw [is, unions_setMount, map_member_splice, map_member_created, map_member_sources made]
  rfl

theorem wf_mountOn (wf : Wf w) (ok : mountOn w g id list flag memory used = (w', .ok n)) :
    Wf w' := by
  obtain ⟨ref, _, -, is⟩ := mountOn_ok ok
  rw [is]
  exact wf_setMount (wf_counted wf ref) id _

theorem cmount_ok (wf : Wf w) {old : Chan}
    (ok : cmount w g new old flag spec memory = (w', .ok n)) :
    Wf w' ∧ unions w' = (unions w).mount g new old flag spec := by
  unfold cmount at ok
  split at ok
  · cases ok
  split at ok
  · cases ok
  dsimp only at ok
  unfold Unions.mount
  rcases there : locate w g old.file with _ | id
  · have point : (unions w).point g old.file = none := there
    rw [there] at ok
    rw [point]
    dsimp only at ok ⊢
    have wf' := wf_link wf there
    have anew (l : List Member) : (unions (link w g old)).setMembers w.nheads l =
        { members := Function.update (unions w).members (unions w).next l
          point := fun g' k =>
            if g' = g ∧ k = old.file then some (unions w).next else (unions w).point g' k
          next := (unions w).next + 1 } := by
      rw [unions_link wf there]
      unfold Unions.setMembers
      dsimp only
      rw [update_idem]
      rfl
    have empty : (unions (link w g old)).members w.nheads = [] := by
      rw [unions_link wf there]
      exact update_self ..
    split at ok
    · rename_i replaces
      refine ⟨wf_mountOn wf' ok, ?_⟩
      rw [unions_mountOn ok, anew, empty]
      unfold Unions.beginning
      rw [if_pos replaces]
    rename_i joins
    split at ok
    · cases ok
    refine ⟨wf_mountOn (wf_setMount (wf_counted wf' _) _ _) ok, ?_⟩
    have own : [Mount.mk (increfed (w.mountid + 1)) old 0 none].map member =
        [{ «to» := old, readonly := false, spec := none }] := by
      unfold member
      rw [map_cons, map_nil, show readonly 0 = false by decide]
    rw [unions_mountOn ok, unions_setMount, own]
    unfold Unions.beginning
    rw [if_neg joins, ← anew]
    unfold Unions.setMembers
    dsimp only
    rw [update_idem, update_self]
    rfl
  · have point : (unions w).point g old.file = some id := there
    rw [there] at ok
    rw [point]
    exact ⟨wf_mountOn wf ok, unions_mountOn ok⟩

theorem map_member_eraseP (c : Chan) (l : List Mount) :
    (l.eraseP (mountOf c)).map member = (l.map member).eraseP (Unions.isOf c) := by
  rw [eraseP_map]
  rfl

theorem cunmount_ok (wf : Wf w) {mnt : Chan} {mounted : Option Chan}
    (ok : cunmount w g mnt mounted = (w', .ok n)) :
    Wf w' ∧ unions w' = (unions w).unmount g mnt mounted := by
  unfold cunmount at ok
  split at ok
  · cases ok
  unfold Unions.unmount
  rcases there : locate w g mnt.file with _ | id
  · rw [there] at ok
    cases ok
  have point : (unions w).point g mnt.file = some id := there
  rw [there] at ok
  rw [point]
  dsimp only at ok ⊢
  split at ok
  · cases ok
  have gone : Wf ((unlink w g mnt.file).setMount id []) := wf_setMount (wf_unlink wf _) id []
  cases mounted with
  | none =>
    cases ok
    exact ⟨gone, unions_removed wf g mnt.file id⟩
  | some c =>
    have rest : ((unions w).members id).eraseP (Unions.isOf c) =
        ((w.head id).mount.eraseP (mountOf c)).map member := (map_member_eraseP c _).symm
    dsimp only at ok ⊢
    rw [rest]
    split at ok
    · split at ok
      · rename_i last
        cases ok
        rw [last, map_nil, if_pos rfl]
        exact ⟨gone, unions_removed wf g mnt.file id⟩
      rename_i more
      cases ok
      rw [if_neg fun none => more (map_eq_nil_iff.1 none)]
      exact ⟨wf_setMount wf id _, unions_setMount w id _⟩
    · cases ok

/-! ### Any sequence of calls -/

theorem succeeds_ok (wf : Wf w) {c : Call} (ok : succeeds w c = some w') :
    Wf w' ∧ unions w' = (unions w).replay c := by
  unfold succeeds at ok
  split at ok
  · rename_i after n is
    cases ok
    cases c with
    | cmount g new old flag spec memory => exact cmount_ok wf is
    | cunmount g mnt mounted => exact cunmount_ok wf is
  · cases ok

/-- After any sequence of calls that succeed, the members of the union at every place are those
that replaying the calls on plain lists gives. -/
theorem union_order {w final : World} (wf : Wf w) (calls : List Call)
    (succeeded : run succeeds w calls = some final) (g : Nat) (k : File) :
    (unions final).seen g k = (calls.foldl Unions.replay (unions w)).seen g k := by
  have same : unions final = calls.foldl Unions.replay (unions w) := by
    induction calls generalizing w with
    | nil =>
      cases succeeded
      rfl
    | cons _ _ ih =>
      have ⟨_, ok, succeeded⟩ := run_cons.1 succeeded
      have ⟨wf', is⟩ := succeeds_ok wf ok
      rw [ih wf' succeeded, is]
      rfl
  rw [same]

/-- A directory is bound before another and a read-only one behind, and the union of three is
bound before itself. -/
def boundThree : List Call :=
  let d : Chan := { file := ⟨0, 0, 1⟩, isdir := true, mchan := none, umh := none }
  let a : Chan := { file := ⟨0, 0, 2⟩, isdir := true, mchan := none, umh := none }
  let b : Chan := { file := ⟨0, 0, 3⟩, isdir := true, mchan := none, umh := none }
  [.cmount 0 a d MBEFORE "" fun _ => true, .cmount 0 b d (MAFTER ||| MREADONLY) "" fun _ => true,
    .cmount 0 { a with umh := some 0 } d MBEFORE "" fun _ => true]

theorem union_order_three : ∃ final, run succeeds fresh boundThree = some final ∧
    ((unions final).seen 0 ⟨0, 0, 1⟩).map (fun m => (m.to.file.path, m.readonly)) =
      [(2, false), (1, false), (3, true), (2, false), (1, false), (3, true)] := by
  have succeeded : (run succeeds fresh boundThree).isSome = true := by decide +kernel
  have ⟨final, reached⟩ := Option.isSome_iff_exists.1 succeeded
  refine ⟨final, reached, ?_⟩
  rw [union_order wf_fresh boundThree reached]
  decide +kernel

end Infernode.Mounts
