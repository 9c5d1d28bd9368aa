import Infernode.Emu.Copyorder

/-!
What a copy of a namespace is like.

Owns: that the copy shows at every place what the parent shows there, with numbers that compare as
the parent's do, and when the parent's numbers let it.
-/

namespace Infernode.Mounts

open Emu (File MREPL)
open Runs List Function

/-! ### The copy -/

def seenMounts (w : World) (g : Nat) (k : File) : List Mount :=
  match locate w g k with
  | none => []
  | some id => (w.head id).mount

/-- No two mounts of the namespace have one number. -/
def Distinct (w : World) (g : Nat) : Prop :=
  ∀ k k' (i j : Nat) (a b : Mount), (seenMounts w g k)[i]? = some a →
    (seenMounts w g k')[j]? = some b → a.mountid = b.mountid → k = k' ∧ i = j

section Copied

variable {w v : World} {g t : Nat} {visit : List Nat}

theorem locate_member (wf : Wf w) {f : Nat × Nat} (member : f ∈ visited visit w g) :
    locate w g (place w f.2) = some f.2 := by
  have linked := (mem_visited.1 member).2
  rw [locate_eq_some wf, (wf.placed g f.1 f.2 linked).2]
  exact ⟨linked, rfl⟩

/-- What is found in the copy is the copy of what is found in the parent. -/
theorem Copied.locate (whole : ∀ i < MNTHASH, i ∈ visit) (wf : Wf w)
    (copied : Copied w t (visited visit w g) v) (k : File) :
    (locate w g k = none ∧ locate v t k = none) ∨
      ∃ j f, (visited visit w g)[j]? = some f ∧ locate w g k = some f.2 ∧
        locate v t k = some (w.nheads + j) := by
  have there {j : Nat} {f : Nat × Nat} (is : (visited visit w g)[j]? = some f)
      (here : place w f.2 = k) : Mounts.locate v t k = some (w.nheads + j) := by
    have linked := (mem_visited.1 (mem_of_getElem? is)).2
    have bucket := (wf.placed g f.1 f.2 linked).2
    rw [here] at bucket
    rw [locate_eq_some copied.wf, bucket, copied.place_new is, here]
    exact ⟨(copied.chains _ _).2 ⟨j, f.2, is, rfl⟩, rfl⟩
  rcases found : Mounts.locate w g k with _ | id
  · refine .inl ⟨rfl, ?_⟩
    rcases found' : Mounts.locate v t k with _ | id'
    · rfl
    have ⟨linked, here⟩ := (locate_eq_some copied.wf).1 found'
    have ⟨j, _, is, same⟩ := (copied.chains _ _).1 linked
    rw [same, copied.place_new is] at here
    have known := locate_member wf (mem_of_getElem? is)
    rw [here, found] at known
    cases known
  · have ⟨linked, here⟩ := (locate_eq_some wf).1 found
    have member : (k.path % MNTHASH, id) ∈ visited visit w g :=
      mem_visited.2 ⟨whole _ (Nat.mod_lt _ (by decide)), linked⟩
    have ⟨j, is⟩ := mem_iff_getElem?.1 member
    exact .inr ⟨j, _, is, rfl, there is here⟩

theorem Alike.locate {w' : World} (alike : Alike w w') (k : File) :
    locate w' t k = locate w t k := by
  unfold Mounts.locate chain
  rw [alike.group]
  apply Chains.lookup_congr
  intro _ _
  unfold place
  rw [alike.from]

/-! ### The mounts that are copied -/

theorem mem_cells {heads : List (Nat × Nat)} {c : Cell} :
    c ∈ cells w heads ↔ ∃ f ∈ heads, c.1 = f.2 ∧ c.2 < size w f := by
  unfold cells
  rw [mem_flatMap]
  exact exists_congr fun f => and_congr_right fun _ => mem_cells_one

theorem mountidOf_eq {c : Cell} {m : Mount} (is : (w.head c.1).mount[c.2]? = some m) :
    mountidOf w c = m.mountid := by
  unfold mountidOf
  rw [is]

theorem nodup_heads (once : visit.Nodup) (wf : Wf w) :
    ((visited visit w g).map Prod.snd).Nodup := by
  refine List.Nodup.map_on ?_ (nodup_visited once wf g)
  intro e first f second same
  have bucket := (wf.placed g e.1 e.2 (mem_visited.1 first).2).2
  have bucket' := (wf.placed g f.1 f.2 (mem_visited.1 second).2).2
  rw [same] at bucket
  exact Prod.ext (bucket.symm.trans bucket') same

theorem nodup_cells (once : visit.Nodup) (wf : Wf w) : (cells w (visited visit w g)).Nodup := by
  unfold cells
  rw [nodup_flatMap]
  refine ⟨fun f _ => ?_, ?_⟩
  · have indices : (w.head f.2).mount.zipIdx.map (fun e => (f.2, e.2)) =
        (List.range' 0 (w.head f.2).mount.length).map fun k => (f.2, k) := by
      rw [← zipIdx_map_snd 0 (w.head f.2).mount, map_map]
      rfl
    rw [indices]
    exact List.Nodup.map (fun _ _ same => congrArg Prod.snd same) nodup_range'
  · refine (pairwise_map.1 (nodup_heads once wf)).imp fun {e f} differ => ?_
    intro _ first second
    exact differ ((mem_cells_one.1 first).1.symm.trans (mem_cells_one.1 second).1)

/-- When the numbers of the parent differ, those of the mounts that are copied do. -/
theorem Distinct.apart (distinct : Distinct w g) (once : visit.Nodup) (wf : Wf w) :
    ((cells w (visited visit w g)).map (mountidOf w)).Nodup := by
  have seen {c : Cell} (member : c ∈ cells w (visited visit w g)) :
      Mounts.locate w g (place w c.1) = some c.1 ∧
        ∃ m, (seenMounts w g (place w c.1))[c.2]? = some m ∧ mountidOf w c = m.mountid := by
    have ⟨_, linked, head, below⟩ := mem_cells.1 member
    have found := locate_member wf linked
    rw [← head] at found
    have inside : c.2 < (w.head c.1).mount.length := by
      rw [head]
      exact below
    have is : (w.head c.1).mount[c.2]? = some (w.head c.1).mount[c.2] :=
      getElem?_eq_getElem inside
    refine ⟨found, _, ?_, mountidOf_eq is⟩
    unfold seenMounts
    rw [found]
    exact is
  refine List.Nodup.map_on ?_ (nodup_cells once wf)
  intro _ first _ second same
  have ⟨found, _, is, number⟩ := seen first
  have ⟨found', _, is', number'⟩ := seen second
  have ⟨places, index⟩ :=
    distinct _ _ _ _ _ _ is is' (number.symm.trans (same.trans number'))
  rw [places, found', Option.some.injEq] at found
  exact Prod.ext found.symm index

/-! ### What the copies show -/

/-- The copies have consecutive numbers, in the order of the numbers of what they copy. -/
theorem Halfway.numbers (whole : ∀ i < MNTHASH, i ∈ visit) (once : visit.Nodup) (wf : Wf w)
    {s : Copying} (halfway : Halfway w t (visited visit w g) s) :
    Alike s.world (renumber s.order s.copy s.threaded none s.world) ∧
      ∃ sorted : List Cell, (sorted.Pairwise fun c d => mountidOf w c < mountidOf w d) ∧
        ∀ k (i : Nat) (a a' : Mount), (seenMounts w g k)[i]? = some a →
          (seenMounts (renumber s.order s.copy s.threaded none s.world) t k)[i]? = some a' →
          ∃ f r, Mounts.locate w g k = some f ∧ sorted[r]? = some (f, i) ∧
            mountidOf w (f, i) = a.mountid ∧ a'.mountid = s.world.mountid + r := by
  have ⟨sorted, chained, same, ordered⟩ := halfway.threaded.list
  have copied := halfway.copied
  have length : sorted.length = s.threaded :=
    same.length_eq.trans halfway.threaded.threaded.symm
  rw [renumber_eq s.copy chained (Nat.le_of_eq length)]
  have copyOf {c : Cell} (member : c ∈ sorted) :
      ∃ j f, (visited visit w g)[j]? = some f ∧ c.1 = f.2 ∧ c.2 < size w f ∧
        s.copy c = (w.nheads + j, c.2) := by
    have ⟨f, linked, head, below⟩ := mem_cells.1 (same.subset member)
    have ⟨j, is⟩ := mem_iff_getElem?.1 linked
    refine ⟨j, f, is, head, below, ?_⟩
    rw [← halfway.copy j f c.2 is below, ← head]
  have injective : (sorted.map s.copy).Nodup := by
    refine List.Nodup.map_on ?_ (same.nodup_iff.2 (nodup_cells once wf))
    intro _ first _ second equal
    obtain ⟨j, f, is, head, -, place⟩ := copyOf first
    obtain ⟨j', _, is', head', -, place'⟩ := copyOf second
    rw [place, place', Prod.mk.injEq] at equal
    have heads : j = j' := by omega
    rw [heads, is', Option.some.injEq] at is
    exact Prod.ext (by rw [head, head', is]) equal.2
  obtain ⟨alike, -, numbers⟩ := @idAt_numbers s.copy sorted s.world injective
  refine ⟨alike, sorted, ordered, ?_⟩
  intro k i _ _ first second
  rcases copied.locate whole wf k with ⟨none, -⟩ | ⟨j, f, is, found, found'⟩
  · unfold seenMounts at first
    rw [none] at first
    cases first
  unfold seenMounts at first second
  rw [found] at first
  rw [alike.locate, found'] at second
  dsimp only at first second
  have below : i < size w f := (List.getElem?_eq_some_iff.1 first).1
  have member : (f.2, i) ∈ sorted :=
    same.symm.subset (mem_cells.2 ⟨f, mem_of_getElem? is, rfl, below⟩)
  have ⟨r, at_r⟩ := mem_iff_getElem?.1 member
  refine ⟨f.2, r, found, at_r, mountidOf_eq first, ?_⟩
  have place := halfway.copy j f i is below
  have there : (idAt s.world (s.copy (f.2, i))).isSome = true := by
    have lengths := congrArg List.length (copied.new j f is).2.2
    rw [length_map, length_map] at lengths
    have inside : i < (s.world.head (w.nheads + j)).mount.length := by
      rw [lengths]
      exact below
    rw [place]
    unfold idAt
    dsimp only
    rw [getElem?_eq_getElem inside]
    rfl
  have number := numbers r (f.2, i) at_r there
  rw [place] at number
  unfold idAt at number
  rw [second] at number
  exact Option.some.inj number

theorem Halfway.start (wf : Wf w) (unused : Unused w t) (leftOrder : Cell → Option Cell)
    (leftCopy : Cell → Cell) :
    Halfway w t [] ⟨w, 0, fun slot => slot.bind leftOrder, leftCopy, 0⟩ where
  copied := Copied.start wf unused
  threaded := ⟨⟨[], Links.chained_nil.2 rfl, List.Perm.refl _, List.Pairwise.nil⟩, rfl⟩
  copy _ _ _ is := nomatch is

end Copied

/-- A namespace that shows some mounts, after so many mounts in all. -/
structure Counted (w : World) (g n : Nat) (view : File → List Mount) : Prop where
  wf : Wf w
  sound : Sound w
  mountid : w.mountid = n
  seen : ∀ k, seenMounts w g k = view k
  alone : ∀ t ≠ g, ∀ i, chain w t i = []

section Counted

variable {w : World} {g n : Nat} {view : File → List Mount}

theorem Counted.absent (counted : Counted w g n view) {k : File} :
    view k = [] ↔ locate w g k = none := by
  rw [← counted.seen k]
  unfold seenMounts
  rcases found : locate w g k with _ | id
  · exact iff_of_true rfl rfl
  · have linked := ((locate_eq_some counted.wf).1 found).1
    exact iff_of_false (counted.sound.mounted _ _ _ linked) (Option.some_ne_none id)

theorem Counted.mount (counted : Counted w g n view) (new old : Chan)
    (consistent : inconsistent w new old MREPL = false) (own : new.umh = none)
    (free : view old.file = []) :
    Counted (request w (.cmount g new old MREPL "" fun _ => true)).1 g (n + 1)
      (Function.update view old.file
        [{ mountid := increfed (n + 1), «to» := new, mflag := MREPL, spec := some "" }]) := by
  have count := counted.mountid
  subst count
  have absent := counted.absent.1 free
  have sound := ((request_good counted.wf counted.sound
    (.cmount g new old MREPL "" fun _ => true)).2 fun ⟨_, _, _, _, lacks⟩ =>
      Bool.noConfusion lacks).1
  have wf := wf_request counted.wf (.cmount g new old MREPL "" fun _ => true)
  let m : Mount :=
    { mountid := increfed (w.mountid + 1), «to» := new, mflag := MREPL, spec := some "" }
  have list : sources w new MREPL "" = [(new, MREPL, some "")] := by
    unfold sources unionOf
    rw [own]
    rfl
  have unlocked : ((link w g old).head w.nheads).lock = false := by
    rw [link_head, if_pos rfl]
  have is : (request w (.cmount g new old MREPL "" fun _ => true)).1 =
      World.setMount { link w g old with mountid := w.mountid + 1 } w.nheads [m] := by
    show (cmount w g new old MREPL "" fun _ => true).1 = _
    unfold cmount
    rw [consistent, if_neg Bool.false_ne_true, counted.sound.ns g, if_neg Bool.false_ne_true,
      absent, list]
    dsimp only
    rw [if_pos (by decide)]
    unfold mountOn
    rw [unlocked, if_neg Bool.false_ne_true]
    dsimp only [newmounts]
    rw [link_head, if_pos rfl, if_neg (Bool.true_eq_false ▸ not_false)]
    rfl
  have found (k : File) :
      locate (World.setMount { link w g old with mountid := w.mountid + 1 } w.nheads [m]) g k =
        if k = old.file then some w.nheads else locate w g k := by
    rw [locate_setMount]
    refine (locate_link counted.wf absent g k).trans ?_
    simp only [true_and]
  rw [is] at sound wf ⊢
  refine ⟨wf, sound, rfl, fun k => ?_, fun t other i => ?_⟩
  · unfold seenMounts
    rw [found, update_apply]
    by_cases here : k = old.file
    · rw [if_pos here, if_pos here]
      dsimp only
      rw [setMount_mount, if_pos rfl]
    rw [if_neg here, if_neg here, ← counted.seen k]
    unfold seenMounts
    rcases there : locate w g k with _ | id
    · rfl
    dsimp only
    have below := (counted.wf.placed _ _ _ ((locate_eq_some counted.wf).1 there).1).1
    rw [setMount_mount, if_neg (Nat.ne_of_lt below)]
    show ((link w g old).head id).mount = _
    rw [link_head, if_neg (Nat.ne_of_lt below)]
  · show chain (link w g old) t i = []
    rw [link_chain, if_neg fun both => other both.1]
    exact counted.alone t other i

theorem Counted.unmount (counted : Counted w g n view) (old : Chan) (some : view old.file ≠ []) :
    Counted (request w (.cunmount g old none)).1 g n (Function.update view old.file []) := by
  have sound := ((request_good counted.wf counted.sound (.cunmount g old none)).2 not_false).1
  have wf := wf_request counted.wf (.cunmount g old none)
  have ⟨id, there⟩ := Option.ne_none_iff_exists'.1 fun none => some (counted.absent.2 none)
  have is : (request w (.cunmount g old none)).1 = (unlink w g old.file).setMount id [] := by
    show (cunmount w g old none).1 = _
    unfold cunmount
    rw [counted.sound.ns g, if_neg Bool.false_ne_true, there]
    dsimp only
    rw [counted.sound.lock id, if_neg Bool.false_ne_true]
  have found (k : File) : locate ((unlink w g old.file).setMount id []) g k =
      if k = old.file then none else locate w g k := by
    rw [locate_setMount, locate_unlink counted.wf]
    simp only [true_and]
  rw [is] at sound wf ⊢
  refine ⟨wf, sound, counted.mountid, fun k => ?_, fun t other i => ?_⟩
  · unfold seenMounts
    rw [found, update_apply]
    by_cases elsewhere : k = old.file
    · rw [if_pos elsewhere, if_pos elsewhere]
    rw [if_neg elsewhere, if_neg elsewhere, ← counted.seen k]
    unfold seenMounts
    rcases here : locate w g k with _ | id'
    · rfl
    dsimp only
    have apart : id' ≠ id := by
      intro same
      have first := ((locate_eq_some counted.wf).1 there).2
      have second := ((locate_eq_some counted.wf).1 here).2
      rw [same, first] at second
      exact elsewhere second.symm
    rw [setMount_mount, if_neg apart]
    rfl
  · show chain (unlink w g old.file) t i = []
    rw [unlink_chain, if_neg fun both => other both.1]
    exact counted.alone t other i

def remounts (g : Nat) (new old : Chan) : Nat → List Request
  | 0 => []
  | n + 1 => .cmount g new old MREPL "" (fun _ => true) :: .cunmount g old none ::
      remounts g new old n

/-- It leaves the namespace as it was, and uses up the numbers. -/
theorem Counted.remounts (new old : Chan) (kind : ∀ w, inconsistent w new old MREPL = false)
    (own : new.umh = none) (free : view old.file = []) (times : Nat)
    (counted : Counted w g n view) :
    ∃ w', run step w (Mounts.remounts g new old times) = some w' ∧
      Counted w' g (n + times) view := by
  induction times generalizing w n with
  | zero => exact ⟨w, rfl, counted⟩
  | succ times ih =>
    have mounted := counted.mount new old (kind w) own free
    have unmounted := mounted.unmount old (by
      rw [update_self]
      exact cons_ne_nil _ _)
    rw [update_idem, ← free, update_eq_self] at unmounted
    have ⟨w', is, after⟩ := ih unmounted
    exact ⟨w', is, by rw [show n + (times + 1) = n + 1 + times by omega]; exact after⟩

end Counted

def directory (path : Nat) : Chan where
  file := ⟨0, 0, path⟩
  isdir := true
  mchan := none
  umh := none

end Infernode.Mounts
