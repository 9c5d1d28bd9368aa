import Infernode.Emu.Mountfail
import Mathlib.Data.List.TakeWhile

/-!
The order in which the copies of mounts are numbered.

Owns: the list that `pgrpinsert` threads through the mounts of the parent, that it is in the
order of their numbers, and the numbers that the copies are given along it.
-/

namespace Infernode.Mounts

open Links List

/-! ### The list in the order of the numbers -/

variable {order : Option Cell → Option Cell} {fuel : Nat}

variable {slot : Option Cell}

section Thread

variable (number : Cell → Nat) (m : Cell)

def passed (cells : List Cell) : List Cell := cells.takeWhile fun f => !decide (number m < number f)

def left (cells : List Cell) : List Cell := cells.dropWhile fun f => !decide (number m < number f)

variable {number m}

variable {cells : List Cell}

end Thread

/-! ### While the mounts are copied -/

def cells (w : World) (heads : List (Nat × Nat)) : List Cell :=
  heads.flatMap fun f => (w.head f.2).mount.zipIdx.map fun e => (f.2, e.2)

/-- The mounts copied so far are threaded in the order of their numbers. -/
structure Threaded (w : World) (done : List Cell) (s : Copying) : Prop where
  list : ∃ sorted, Chained s.order none sorted ∧ sorted.Perm done ∧
    sorted.Pairwise fun a b => mountidOf w a < mountidOf w b
  threaded : s.threaded = done.length

section Copy

variable {w : World} {memory : Nat → Bool} {f mh : Nat}

variable {s s' : Copying}

variable {done : List Cell} {t : Nat} {heads : List (Nat × Nat)}

/-- A copy so far: the heads are copied, their mounts are threaded, and each says where its copy
is. -/
structure Halfway (w : World) (t : Nat) (heads : List (Nat × Nat)) (s : Copying) : Prop where
  copied : Copied w t heads s.world
  threaded : Threaded w (cells w heads) s
  copy : ∀ j f k, heads[j]? = some f → k < size w f → s.copy (f.2, k) = (w.nheads + j, k)

theorem mem_cells_one {f : Nat × Nat} {c : Cell} :
    c ∈ (w.head f.2).mount.zipIdx.map (fun e => (f.2, e.2)) ↔ c.1 = f.2 ∧ c.2 < size w f := by
  rw [mem_map]
  constructor
  · rintro ⟨⟨m, k⟩, member, is⟩
    rw [← is]
    have is := mem_zipIdx_iff_getElem?.1 member
    exact ⟨rfl, (List.getElem?_eq_some_iff.1 is).1⟩
  rintro ⟨head, below⟩
  refine ⟨((w.head f.2).mount[c.2], c.2), ?_, ?_⟩
  · exact mem_zipIdx_iff_getElem?.2 (getElem?_eq_getElem below)
  · exact Prod.ext head.symm rfl

end Copy

/-! ### The numbers of the copies -/

/-- The number of the mount at a place, if there is one. -/
def idAt (w : World) (c : Cell) : Option Nat := (w.head c.1).mount[c.2]?.map Mount.mountid

def numbered (copy : Cell → Cell) (w : World) (c : Cell) : World :=
  { w.setMountid (copy c) w.mountid with mountid := w.mountid + 1 }

theorem renumber_eq (copy : Cell → Cell) {sorted : List Cell} (chained : Chained order slot sorted)
    (enough : sorted.length ≤ fuel) (w : World) :
    renumber order copy fuel slot w = sorted.foldl (numbered copy) w := by
  induction sorted generalizing fuel slot w with
  | nil =>
    rw [chained_nil] at chained
    cases fuel with
    | zero => rfl
    | succ _ =>
      unfold renumber
      rw [chained]
      rfl
  | cons _ _ ih =>
    rw [length_cons] at enough
    obtain ⟨fuel, rfl⟩ : ∃ n, fuel = n + 1 := ⟨fuel - 1, by omega⟩
    rw [chained_cons] at chained
    rw [renumber, chained.1]
    exact ih chained.2 (by omega) _

/-- Two worlds show the same, whatever the numbers of their mounts are. -/
structure Alike (w w' : World) : Prop where
  nheads : w'.nheads = w.nheads
  group : w'.group = w.group
  «from» : ∀ id, (w'.head id).from = (w.head id).from
  shown : ∀ id, (w'.head id).mount.map Mount.shown = (w.head id).mount.map Mount.shown

theorem alike_numbered (copy : Cell → Cell) (w : World) (c : Cell) :
    Alike w (numbered copy w c) := by
  refine ⟨rfl, rfl, fun id => ?_, fun id => ?_⟩
  · show ((w.setMount _ _).head id).from = _
    rw [setMount_head]
    split
    · rename_i same
      rw [same]
    · rfl
  show ((w.setMount _ _).head id).mount.map Mount.shown = _
  rw [setMount_mount]
  split
  · rename_i same
    rw [same]
    apply ext_getElem?
    intro k
    rw [getElem?_map, getElem?_map, getElem?_modify]
    cases (w.head (copy c).1).mount[k]? with
    | none => rfl
    | some m =>
      show some (Mount.shown (if (copy c).2 = k then _ else m)) = some m.shown
      split <;> rfl
  · rfl

theorem idAt_numbered (copy : Cell → Cell) (w : World) (c d : Cell) :
    idAt (numbered copy w c) d =
      if d = copy c then (idAt w d).map fun _ => w.mountid else idAt w d := by
  unfold idAt
  show ((w.setMount _ _).head d.1).mount[d.2]?.map _ = _
  rw [setMount_mount]
  by_cases head : d.1 = (copy c).1
  · rw [if_pos head, getElem?_modify, head]
    by_cases same : (copy c).2 = d.2
    · rw [if_pos (Prod.ext head same.symm)]
      cases (w.head (copy c).1).mount[d.2]? with
      | none => rfl
      | some m =>
        show some (Mount.mountid (if (copy c).2 = d.2 then _ else m)) = some w.mountid
        rw [if_pos same]
    · rw [if_neg fun is => same (congrArg Prod.snd is).symm]
      cases (w.head (copy c).1).mount[d.2]? with
      | none => rfl
      | some m =>
        show some (Mount.mountid (if (copy c).2 = d.2 then _ else m)) = some m.mountid
        rw [if_neg same]
  · rw [if_neg head, if_neg fun is => head (congrArg Prod.fst is)]

theorem idAt_numbers {copy : Cell → Cell} {sorted : List Cell} {w : World}
    (distinct : (sorted.map copy).Nodup) :
    Alike w (sorted.foldl (numbered copy) w) ∧
      (∀ d, d ∉ sorted.map copy → idAt (sorted.foldl (numbered copy) w) d = idAt w d) ∧
      ∀ r c, sorted[r]? = some c → (idAt w (copy c)).isSome = true →
        idAt (sorted.foldl (numbered copy) w) (copy c) = some (w.mountid + r) := by
  induction sorted generalizing w with
  | nil =>
    exact ⟨⟨rfl, rfl, fun _ => rfl, fun _ => rfl⟩, fun _ _ => rfl, fun r c is => nomatch is⟩
  | cons c _ ih =>
    rw [map_cons, nodup_cons] at distinct
    obtain ⟨alike, others, numbers⟩ := @ih (numbered copy w c) distinct.2
    have first := alike_numbered copy w c
    rw [foldl_cons]
    refine ⟨⟨alike.nheads.trans first.nheads, alike.group.trans first.group,
      fun id => (alike.from id).trans (first.from id),
      fun id => (alike.shown id).trans (first.shown id)⟩, fun d outside => ?_, ?_⟩
    · rw [map_cons, mem_cons, not_or] at outside
      rw [others d outside.2, idAt_numbered, if_neg outside.1]
    intro r d is there
    cases r with
    | zero =>
      rw [getElem?_cons_zero, Option.some.injEq] at is
      rw [← is] at there ⊢
      rw [others _ distinct.1, idAt_numbered, if_pos rfl]
      obtain ⟨_, some⟩ := Option.isSome_iff_exists.1 there
      rw [some]
      rfl
    | succ r =>
      rw [getElem?_cons_succ] at is
      have other : copy d ≠ copy c := by
        intro same
        apply distinct.1
        rw [← same]
        exact mem_map_of_mem (mem_of_getElem? is)
      have still : idAt (numbered copy w c) (copy d) = idAt w (copy d) := by
        rw [idAt_numbered, if_neg other]
      rw [numbers r d is (still ▸ there)]
      show some (w.mountid + 1 + r) = _
      congr 1
      omega

end Infernode.Mounts
