import Infernode.Emu.Mounts
import Infernode.Table.Links

/-!
Copies of a namespace in `emu/port/pgrp.c`.

Owns: `pgrpinsert`, which threads the mounts of a namespace in the order of their numbers, and
`pgrpcpy` with its allocations, which copies them and numbers the copies in that order; and what
a copy, complete or not, leaves as it was.
-/

namespace Infernode.Mounts

open Emu (File)
open List

/-! ### The list in the order of the numbers -/

/-- A mount of the namespace that is copied: its head and its place in the list. -/
abbrev Cell := Nat × Nat

def mountidOf (w : World) (c : Cell) : Nat :=
  match (w.head c.1).mount[c.2]? with
  | none => 0
  | some m => m.mountid

/-- The walk of `pgrpinsert` along the `order` fields from a slot on. `none` is the header. -/
def threadFrom (number : Cell → Nat) (m : Cell) : Nat → Option Cell →
    (Option Cell → Option Cell) → Option Cell → Option Cell
  | 0, _, order => order
  | fuel + 1, slot, order =>
    match order slot with
    | none => Function.update order slot (some m)
    | some f =>
      if number m < number f then
        Function.update (Function.update order (some m) (some f)) slot (some m)
      else threadFrom number m fuel (some f) order

def pgrpinsert (number : Cell → Nat) (fuel : Nat) (order : Option Cell → Option Cell) (m : Cell) :
    Option Cell → Option Cell :=
  threadFrom number m fuel none (Function.update order (some m) none)

/-! ### The copy -/

def Eclone : String := "clone failed"

/-- The copy under way: the allocations made, the `order` and `copy` fields of the mounts that
are copied, and how many of them are threaded. -/
structure Copying where
  world : World
  used : Nat
  order : Option Cell → Option Cell
  copy : Cell → Cell
  threaded : Nat

/-- The heads of a namespace with their chains, in the order of a walk through the chains. -/
def visited (visit : List Nat) (w : World) (g : Nat) : List (Nat × Nat) :=
  visit.flatMap fun i => (chain w g i).map fun id => (i, id)

/-- One mount of the head `f` of the parent is copied to the end of the list of `mh`. -/
def copymount (memory : Nat → Bool) (parent : World) (f mh : Nat) (s : Copying)
    (entry : Mount × Nat) : Except Copying Copying :=
  if memory s.used = false then .error s
  else
    let n : Mount := { entry.1 with mountid := increfed (s.world.mountid + 1) }
    .ok
      { world := { s.world with mountid := s.world.mountid + 1 }.setMount mh
          ((s.world.head mh).mount ++ [n])
        used := s.used + 1
        order := pgrpinsert (mountidOf parent) (s.threaded + 1) s.order (f, entry.2)
        copy := Function.update s.copy (f, entry.2) (mh, entry.2)
        threaded := s.threaded + 1 }

/-- A head of the parent is copied to the namespace `t`, linked before its mounts are. -/
def copyhead (memory : Nat → Bool) (parent : World) (t : Nat) (s : Copying) (f : Nat × Nat) :
    Except Copying Copying :=
  if memory s.used = false then .error s
  else
    (parent.head f.2).mount.zipIdx.foldlM (copymount memory parent f.2 s.world.nheads)
      { s with world := linkAt s.world t f.1 (parent.head f.2).from, used := s.used + 1 }

def World.setMountid (w : World) (c : Cell) (n : Nat) : World :=
  w.setMount c.1 ((w.head c.1).mount.modify c.2 fun m => { m with mountid := n })

def renumber (order : Option Cell → Option Cell) (copy : Cell → Cell) :
    Nat → Option Cell → World → World
  | 0, _, w => w
  | fuel + 1, slot, w =>
    match order slot with
    | none => w
    | some m =>
      renumber order copy fuel (some m)
        { w.setMountid (copy m) w.mountid with mountid := w.mountid + 1 }

/-- `pgrpcpy` with the chains in any order, the `order` and `copy` fields as earlier copies left
them, and `clones` whether the root and the current directory can be cloned. -/
def pgrpcpyIn (visit : List Nat) (memory : Nat → Bool) (clones : Bool)
    (leftOrder : Cell → Option Cell) (leftCopy : Cell → Cell) (w : World) (g t : Nat) : World × Answer :=
  if (w.group g).ns then (w, .blocked)
  else if (visited visit w g).any fun f => (w.head f.2).lock then (w.lockNs g, .blocked)
  else
    let start : Copying :=
      { world := w
        used := 0
        order := fun slot => slot.bind leftOrder
        copy := leftCopy
        threaded := 0 }
    match (visited visit w g).foldlM (copyhead memory w t) start with
    | .error s => (s.world, .error Enomem)
    | .ok s =>
      let w' := renumber s.order s.copy s.threaded none s.world
      let w' := w'.setGroup t { w'.group t with progmode := (w.group g).progmode }
      if clones = false then (w', .error Eclone)
      else (w'.setGroup t { w'.group t with nodevs := (w.group g).nodevs }, .ok 0)

/-- The chains are visited from the first to the last. -/
def pgrpcpy : (Nat → Bool) → Bool → (Cell → Option Cell) → (Cell → Cell) → World → Nat → Nat →
    World × Answer := pgrpcpyIn (List.range MNTHASH)

/-! ### One head -/

/-- What a copied mount has of the one it copies. -/
def Mount.shown (m : Mount) : Chan × Nat × Option String := (m.to, m.mflag, m.spec)

/-- The worlds differ in the mounts of one head. -/
structure SameBut (mh : Nat) (w w' : World) : Prop where
  head : ∀ id ≠ mh, w'.head id = w.head id
  «from» : (w'.head mh).from = (w.head mh).from
  lock : (w'.head mh).lock = (w.head mh).lock
  nheads : w'.nheads = w.nheads
  group : w'.group = w.group

theorem SameBut.refl (mh : Nat) (w : World) : SameBut mh w w := ⟨fun _ _ => rfl, rfl, rfl, rfl, rfl⟩

variable {mh : Nat} {w' : World}

theorem SameBut.trans {w w'' : World} (first : SameBut mh w w') (second : SameBut mh w' w'') :
    SameBut mh w w'' :=
  ⟨fun id other => (second.head id other).trans (first.head id other),
    second.from.trans first.from, second.lock.trans first.lock, second.nheads.trans first.nheads,
    second.group.trans first.group⟩

theorem sameBut_setMount (w : World) (mh ref : Nat) (l : List Mount) :
    SameBut mh w (World.setMount { w with mountid := ref } mh l) := by
  refine ⟨fun id other => ?_, ?_, setMount_lock _ mh mh l, rfl, rfl⟩
  · rw [setMount_head, if_neg other]
  · rw [setMount_head, if_pos rfl]

variable {s s' : Copying}

section Head

variable {memory : Nat → Bool} {parent : World} {f mh : Nat}

variable {entry : Mount × Nat} {entries : List (Mount × Nat)}

theorem copymount_error (failed : copymount memory parent f mh s entry = .error s') :
    memory s.used = false ∧ s' = s := by
  unfold copymount at failed
  split at failed
  · rename_i none
    cases failed
    exact ⟨none, rfl⟩
  · cases failed

theorem copymount_ok (copied : copymount memory parent f mh s entry = .ok s') :
    memory s.used = true ∧ s'.used = s.used + 1 ∧ SameBut mh s.world s'.world ∧
      (s'.world.head mh).mount =
        (s.world.head mh).mount ++
          [{ entry.1 with mountid := increfed (s.world.mountid + 1) }] := by
  unfold copymount at copied
  split at copied
  · cases copied
  rename_i some
  cases copied
  refine ⟨Bool.not_eq_false _ |>.mp some, rfl, sameBut_setMount _ mh _ _, ?_⟩
  show ((World.setMount _ mh _).head mh).mount = _
  rw [setMount_mount, if_pos rfl]

theorem copymounts_ok (copied : entries.foldlM (copymount memory parent f mh) s = .ok s') :
    (∀ j < entries.length, memory (s.used + j) = true) ∧ s'.used = s.used + entries.length ∧
      SameBut mh s.world s'.world ∧
      (s'.world.head mh).mount.map Mount.shown =
        (s.world.head mh).mount.map Mount.shown ++ entries.map fun e => e.1.shown := by
  induction entries generalizing s with
  | nil =>
    cases copied
    refine ⟨fun j below => absurd below (Nat.not_lt_zero j), rfl, SameBut.refl mh _, ?_⟩
    rw [map_nil, append_nil]
  | cons entry _ ih =>
    rw [foldlM_cons] at copied
    rcases first : copymount memory parent f mh s entry with s₁ | s₁
    · rw [first] at copied
      cases copied
    rw [first] at copied
    have ⟨paid, used, same, mounts⟩ := copymount_ok first
    have ⟨paid', used', same', mounts'⟩ := ih copied
    refine ⟨?_, ?_, same.trans same', ?_⟩
    · intro j below
      rcases Nat.eq_zero_or_pos j with zero | positive
      · rw [zero]
        exact paid
      have later := paid' (j - 1) (by rw [length_cons] at below; omega)
      rw [used] at later
      rw [show s.used + j = s.used + 1 + (j - 1) by omega]
      exact later
    · rw [used', used, length_cons]
      omega
    · rw [mounts', mounts, map_append, append_assoc]
      rfl

theorem copymounts_error (failed : entries.foldlM (copymount memory parent f mh) s = .error s') :
    ∃ k < entries.length, (∀ j < k, memory (s.used + j) = true) ∧ memory (s.used + k) = false ∧
      SameBut mh s.world s'.world ∧
      (s'.world.head mh).mount.map Mount.shown =
        (s.world.head mh).mount.map Mount.shown ++ (entries.take k).map fun e => e.1.shown := by
  induction entries generalizing s with
  | nil => cases failed
  | cons entry _ ih =>
    rw [foldlM_cons] at failed
    rcases first : copymount memory parent f mh s entry with s₁ | s₁
    · rw [first] at failed
      cases failed
      obtain ⟨none, is⟩ := copymount_error first
      refine ⟨0, Nat.succ_pos _, fun j below => absurd below (Nat.not_lt_zero j), none, ?_, ?_⟩
      · rw [is]
        exact SameBut.refl mh _
      · rw [is, take_zero, map_nil, append_nil]
    rw [first] at failed
    obtain ⟨paid, used, same, mounts⟩ := copymount_ok first
    obtain ⟨k, below, paid', none, same', mounts'⟩ := ih failed
    rw [used] at paid' none
    refine ⟨k + 1, Nat.succ_lt_succ below, ?_, ?_, same.trans same', ?_⟩
    · intro j _
      rcases Nat.eq_zero_or_pos j with zero | positive
      · rw [zero]
        exact paid
      · have later := paid' (j - 1) (by omega)
        rw [show s.used + j = s.used + 1 + (j - 1) by omega]
        exact later
    · rw [show s.used + (k + 1) = s.used + 1 + k by omega]
      exact none
    · rw [mounts', mounts, map_append, append_assoc]
      rfl

end Head

/-! ### All heads -/

/-- Some heads of the world have been copied to the namespace `t`: the copies are the next heads,
each with the place and the mounts of the one it copies. -/
structure Copied (w : World) (t : Nat) (heads : List (Nat × Nat)) (v : World) : Prop where
  wf : Wf v
  old : ∀ id < w.nheads, v.head id = w.head id
  beyond : ∀ id, v.nheads ≤ id → v.head id = w.head id
  nheads : v.nheads = w.nheads + heads.length
  group : ∀ g, g ≠ t → v.group g = w.group g
  own : (v.group t).ns = (w.group t).ns
  new : ∀ j f, heads[j]? = some f →
    (v.head (w.nheads + j)).from = (w.head f.2).from ∧
    (v.head (w.nheads + j)).lock = false ∧
    (v.head (w.nheads + j)).mount.map Mount.shown = (w.head f.2).mount.map Mount.shown
  chains : ∀ i id, id ∈ chain v t i ↔ ∃ j f, heads[j]? = some (i, f) ∧ id = w.nheads + j

/-- A head that may be copied next: it is in its chain, and no head with its place is copied. -/
structure Next (w : World) (heads : List (Nat × Nat)) (f : Nat × Nat) : Prop where
  exist : f.2 < w.nheads
  bucket : (place w f.2).path % MNTHASH = f.1
  olds : ∀ e ∈ heads, e.2 < w.nheads
  fresh : ∀ e ∈ heads, e.1 = f.1 → place w e.2 ≠ place w f.2

section Copy

variable {w v : World} {t : Nat} {heads : List (Nat × Nat)} {f : Nat × Nat}

theorem Copied.place_new (copied : Copied w t heads v) {j : Nat} {e : Nat × Nat}
    (is : heads[j]? = some e) : place v (w.nheads + j) = place w e.2 := by
  unfold place
  rw [(copied.new j e is).1]

theorem Copied.absent (copied : Copied w t heads v) (next : Next w heads f) :
    locate v t (w.head f.2).from.file = none := by
  unfold locate
  rw [Chains.lookup_eq_none]
  intro id member
  have ⟨_, _, is, same⟩ := (copied.chains _ id).1 member
  have bucket : (w.head f.2).from.file.path % MNTHASH = f.1 := next.bucket
  rw [same, copied.place_new is]
  exact next.fresh _ (mem_of_getElem? is) bucket

theorem linkAt_next (v : World) (t : Nat) (next : Next w heads f) :
    linkAt v t f.1 (w.head f.2).from = link v t (w.head f.2).from := by
  have bucket : (w.head f.2).from.file.path % MNTHASH = f.1 := next.bucket
  unfold link
  rw [bucket]

theorem wf_sameBut {w : World} (wf : Wf w) (same : SameBut mh w w') : Wf w' := by
  have places : place w' = place w := by
    funext id
    unfold place
    by_cases here : id = mh
    · rw [here, same.from]
    · rw [same.head id here]
  have chains (g i : Nat) : chain w' g i = chain w g i := by
    unfold chain
    rw [same.group]
  refine ⟨?_, ?_, ?_⟩
  · intro g i id member
    rw [chains] at member
    rw [same.nheads, places]
    exact wf.placed g i id member
  · intro g i
    rw [chains, places]
    exact wf.apart g i
  · intro g g' i i' id first second
    rw [chains] at first second
    exact wf.sole g g' i i' id first second

theorem link_ns (w : World) (g : Nat) (old : Chan) (g' : Nat) :
    ((link w g old).group g').ns = (w.group g').ns :=
  setChain_ns _ g g' _ _

variable {g : Nat} {visit : List Nat}

theorem link_group_ne (w : World) {g' : Nat} (old : Chan) (other : g' ≠ g) :
    (link w g old).group g' = w.group g' :=
  Function.update_of_ne other _ _

theorem Copied.wf_linked (copied : Copied w t heads v) (next : Next w heads f) :
    Wf (linkAt v t f.1 (w.head f.2).from) := by
  rw [linkAt_next v t next]
  exact wf_link copied.wf (copied.absent next)

/-- A head that is linked and then given the mounts is copied. -/
theorem Copied.snoc (copied : Copied w t heads v) (next : Next w heads f) {u : World}
    (same : SameBut v.nheads (linkAt v t f.1 (w.head f.2).from) u)
    (mounts : (u.head v.nheads).mount.map Mount.shown = (w.head f.2).mount.map Mount.shown) :
    Copied w t (heads ++ [f]) u := by
  have wf := wf_sameBut (copied.wf_linked next) same
  rw [linkAt_next v t next] at same
  have size := copied.nheads
  have before {id : Nat} (below : id < v.nheads) : u.head id = v.head id := by
    rw [same.head id (Nat.ne_of_lt below), link_head, if_neg (Nat.ne_of_lt below)]
  have bucket : (w.head f.2).from.file.path % MNTHASH = f.1 := next.bucket
  refine ⟨wf, ?_, ?_, ?_, ?_, ?_, ?_, ?_⟩
  · intro id below
    rw [before (by omega), copied.old id below]
  · intro id above
    have more : v.nheads + 1 ≤ id := by
      rw [same.nheads] at above
      exact above
    rw [same.head id (by omega), link_head, if_neg (by omega), copied.beyond id (by omega)]
  · rw [same.nheads, length_append, length_singleton]
    show v.nheads + 1 = _
    omega
  · intro g other
    rw [same.group, link_group_ne v _ other, copied.group g other]
  · rw [same.group, link_ns, copied.own]
  · intro j e is
    rcases Nat.lt_or_ge j heads.length with early | late
    · rw [getElem?_append_left early] at is
      rw [before (by omega)]
      exact copied.new j e is
    rw [getElem?_append_right late] at is
    have last := (List.getElem?_eq_some_iff.1 is).1
    rw [length_singleton] at last
    have position : w.nheads + j = v.nheads := by omega
    rw [show j - heads.length = 0 by omega, getElem?_cons_zero, Option.some.injEq] at is
    rw [position, ← is, same.from, same.lock, link_head, if_pos rfl]
    exact ⟨rfl, rfl, mounts⟩
  · intro i id
    have chainIs : chain u t i =
        if i = f.1 then chain v t i ++ [v.nheads] else chain v t i := by
      show (u.group t).mnthash i = _
      rw [same.group]
      refine (link_chain v t _ t i).trans ?_
      rw [bucket]
      by_cases here : i = f.1
      · rw [if_pos ⟨rfl, here⟩, if_pos here]
      · rw [if_neg (fun both => here both.2), if_neg here]
    have older : id ∈ chain v t i ↔ ∃ j e, heads[j]? = some (i, e) ∧ id = w.nheads + j :=
      copied.chains i id
    rw [chainIs]
    constructor
    · intro member
      have parts : id ∈ chain v t i ∨ i = f.1 ∧ id = v.nheads := by
        split at member
        · rename_i here
          rcases mem_append.1 member with first | last
          · exact .inl first
          · exact .inr ⟨here, mem_singleton.1 last⟩
        · exact .inl member
      rcases parts with first | ⟨here, last⟩
      · have ⟨j, e, is, same'⟩ := older.1 first
        have early : j < heads.length := (List.getElem?_eq_some_iff.1 is).1
        exact ⟨j, e, by rw [getElem?_append_left early]; exact is, same'⟩
      · refine ⟨heads.length, f.2, ?_, by omega⟩
        rw [getElem?_append_right (Nat.le_refl _), Nat.sub_self, here]
        rfl
    · rintro ⟨j, e, is, same'⟩
      rcases Nat.lt_or_ge j heads.length with early | late
      · rw [getElem?_append_left early] at is
        have first := older.2 ⟨j, e, is, same'⟩
        split
        · exact mem_append_left _ first
        · exact first
      rw [getElem?_append_right late] at is
      have last := (List.getElem?_eq_some_iff.1 is).1
      rw [length_singleton] at last
      rw [show j - heads.length = 0 by omega, getElem?_cons_zero, Option.some.injEq] at is
      rw [is, if_pos rfl]
      exact mem_append_right _ (mem_singleton.2 (by omega))

theorem map_zipIdx_shown (l : List Mount) :
    (l.zipIdx.map fun e => e.1.shown) = l.map Mount.shown := by
  have firsts : l.zipIdx.map Prod.fst = l := zipIdx_map_fst 0 l
  calc
    (l.zipIdx.map fun e => e.1.shown) = (l.zipIdx.map Prod.fst).map Mount.shown := by
      rw [map_map]
      rfl
    _ = l.map Mount.shown := by rw [firsts]

variable {memory : Nat → Bool}

theorem copyhead_ok (copied : Copied w t heads s.world) (next : Next w heads f)
    (ok : copyhead memory w t s f = .ok s') :
    Copied w t (heads ++ [f]) s'.world ∧ memory s.used = true ∧
      (∀ j < (w.head f.2).mount.length, memory (s.used + 1 + j) = true) ∧
      s'.used = s.used + 1 + (w.head f.2).mount.length := by
  unfold copyhead at ok
  split at ok
  · cases ok
  rename_i paid
  have ⟨all, used, same, mounts⟩ := copymounts_ok ok
  rw [length_zipIdx] at all used
  refine ⟨copied.snoc next same ?_, Bool.not_eq_false _ |>.mp paid, all, used⟩
  rw [mounts, map_zipIdx_shown]
  dsimp only
  rw [linkAt_next _ t next, link_head, if_pos rfl]
  rfl

theorem copyhead_error (failed : copyhead memory w t s f = .error s') :
    (memory s.used = false ∧ s' = s) ∨
      memory s.used = true ∧ ∃ k < (w.head f.2).mount.length,
        (∀ j < k, memory (s.used + 1 + j) = true) ∧ memory (s.used + 1 + k) = false ∧
        SameBut s.world.nheads (linkAt s.world t f.1 (w.head f.2).from) s'.world ∧
        ((s'.world.head s.world.nheads).mount = [] ↔ k = 0) := by
  unfold copyhead at failed
  split at failed
  · rename_i none
    cases failed
    exact .inl ⟨none, rfl⟩
  rename_i paid
  obtain ⟨k, below, before, none, same, mounts⟩ := copymounts_error failed
  rw [length_zipIdx] at below
  refine .inr ⟨Bool.not_eq_false _ |>.mp paid, k, below, before, none, same, ?_⟩
  have empty : ((linkAt s.world t f.1 (w.head f.2).from).head s.world.nheads).mount = [] := by
    show ((World.setHead _ _ _).head _).mount = []
    rw [setHead_head, if_pos rfl]
  dsimp only at mounts
  rw [empty, map_nil, nil_append] at mounts
  have lengths := congrArg List.length mounts
  rw [length_map, length_map, length_take, length_zipIdx] at lengths
  rw [← length_eq_zero_iff, lengths]
  omega

/-! ### The heads that are visited -/

theorem mem_visited : f ∈ visited visit w g ↔ f.1 ∈ visit ∧ f.2 ∈ chain w g f.1 := by
  unfold visited
  rw [mem_flatMap]
  constructor
  · rintro ⟨i, member, inside⟩
    have ⟨_, linked, is⟩ := mem_map.1 inside
    rw [← is]
    exact ⟨member, linked⟩
  · rintro ⟨member, linked⟩
    exact ⟨f.1, member, mem_map.2 ⟨f.2, linked, rfl⟩⟩

theorem nodup_chain (wf : Wf w) (g i : Nat) : (chain w g i).Nodup :=
  (wf.apart g i).imp fun differ same => differ (congrArg (place w) same)

/-- When no chain is visited twice, no head is. -/
theorem nodup_visited (once : visit.Nodup) (wf : Wf w) (g : Nat) : (visited visit w g).Nodup := by
  unfold visited
  rw [nodup_flatMap]
  refine ⟨fun i _ => ?_, ?_⟩
  · exact (nodup_chain wf g i).map fun _ _ same => (Prod.mk.injEq ..).mp same |>.2
  refine once.imp fun {i j} differ => ?_
  intro _ first second
  obtain ⟨_, -, is⟩ := mem_map.1 first
  obtain ⟨_, -, is'⟩ := mem_map.1 second
  rw [← is'] at is
  exact differ (congrArg Prod.fst is)

/-- A head that is visited may be copied after those visited before. -/
theorem next_visited (once : visit.Nodup) (wf : Wf w) {front back : List (Nat × Nat)}
    (split : visited visit w g = front ++ f :: back) : Next w front f := by
  have inside {e : Nat × Nat} (member : e ∈ front ++ f :: back) : e.2 ∈ chain w g e.1 := by
    rw [← split] at member
    exact (mem_visited.1 member).2
  have here := wf.placed g f.1 f.2 (inside (by simp))
  refine ⟨here.1, here.2, ?_, ?_⟩
  · intro e member
    exact (wf.placed g e.1 e.2 (inside (by simp [member]))).1
  intro e member bucket same
  have linked := inside (show e ∈ front ++ f :: back by simp [member])
  have linked' := inside (show f ∈ front ++ f :: back by simp)
  rw [bucket] at linked
  have first := (Chains.lookup_eq_some (wf.apart g f.1)).2 ⟨linked, same⟩
  have second := (Chains.lookup_eq_some (wf.apart g f.1)).2 ⟨linked', rfl⟩
  have equal : e = f := Prod.ext bucket (Option.some.inj (first.symm.trans second))
  have distinct := nodup_visited once wf g
  rw [split] at distinct
  exact (nodup_append.1 distinct).2.2 e member f (by simp) equal

end Copy

end Infernode.Mounts
