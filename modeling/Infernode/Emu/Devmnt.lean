import Infernode.Program.Runs
import Infernode.Table.Bitmap
import Mathlib.Algebra.Group.Nat.Defs

/-!
The tags of 9P requests in `emu/port/devmnt.c`.

Owns: `alloctag` and `freetag` over the mask of tags, `mntralloc` and `mntfree` with the free
list of request headers and their three failures, and the accounts of tags and headers.

Does not own: the requests, their queue, and what is read into their buffers.
-/

namespace Infernode.Devmnt

open Bitmap Runs List

def TAGSHIFT : Nat := 5
def NMASK : Nat := 64 * 1024 / 2 ^ TAGSHIFT
def NOTAG : Nat := 65535

def Enoheader : String := "no free mount rpc header"
def Enobuffer : String := "no free mount rpc buffer"
def Enotags : String := "no free rpc tags"

/-- A request header: its tag, and the length of its buffer, an unsigned word of 32 bits. -/
structure Mntrpc where
  tag : Nat
  rpclen : Nat
deriving DecidableEq, Repr

/-- `mntalloc`, and beside it the headers in use. A word of the mask is a `ulong`, of 32 bits
or more. -/
structure Mntalloc (x : Nat) where
  rpcfree : List Mntrpc
  nrpcfree : Int
  nrpcused : Int
  tagmask : List (Word x)
  inuse : List Mntrpc

variable {x : Nat}

def mntinit (x : Nat) : Mntalloc x where
  rpcfree := []
  nrpcfree := 0
  nrpcused := 0
  tagmask :=
    ((List.replicate NMASK (0 : Word x)).set 0 1).set (NMASK - 1) (BitVec.ofNat _ 0x80000000)
  inuse := []

/-! ### Tags -/

/-- The first number that is not in the word. -/
def freebit (v : Word x) : Option Nat :=
  if v = BitVec.allOnes _ then none
  else (List.range (2 ^ TAGSHIFT)).find? fun j => v &&& mask x j == 0

def freeword : List (Word x) → Nat → Option (Nat × Nat)
  | [], _ => none
  | v :: rest, i =>
    match freebit v with
    | some j => some (i, j)
    | none => freeword rest (i + 1)

def alloctag (tagmask : List (Word x)) : Nat × List (Word x) :=
  match freeword tagmask 0 with
  | none => (NOTAG, tagmask)
  | some (i, j) => (i * 2 ^ TAGSHIFT + j, tagmask.modify i fun v => v ||| mask x j)

def freetag (tagmask : List (Word x)) (t : Nat) : List (Word x) := remove tagmask t

/-! ### Headers -/

def allocated (a : Mntalloc x) (msize : Nat) (header buffer : Bool) :
    Mntalloc x × Except String Mntrpc :=
  if header = false then (a, .error Enoheader)
  else if buffer = false then (a, .error Enobuffer)
  else
    let (tag, tagmask) := alloctag a.tagmask
    if tag = NOTAG then ({ a with tagmask := tagmask }, .error Enotags)
    else
      let new : Mntrpc := { tag := tag, rpclen := msize % 2 ^ 32 }
      ({ a with tagmask := tagmask, nrpcused := a.nrpcused + 1, inuse := new :: a.inuse }, .ok new)

/-- The first header of the free list, before `rest`, with a larger buffer if it needs one. -/
def recycled (a : Mntalloc x) (new : Mntrpc) (rest : List Mntrpc) (msize : Nat) (buffer : Bool) :
    Mntalloc x × Except String Mntrpc :=
  let a := { a with rpcfree := rest, nrpcfree := a.nrpcfree - 1 }
  if new.rpclen < msize then
    -- the header is freed with its tag still allocated
    if buffer = false then ({ a with nrpcused := a.nrpcused - 1 }, .error Enobuffer)
    else
      let new := { new with rpclen := msize % 2 ^ 32 }
      ({ a with nrpcused := a.nrpcused + 1, inuse := new :: a.inuse }, .ok new)
  else ({ a with nrpcused := a.nrpcused + 1, inuse := new :: a.inuse }, .ok new)

/-- A header for a request, whose buffer holds `msize` bytes; `header` and `buffer` say whether
there is memory for a header and for a buffer. -/
def mntralloc (a : Mntalloc x) (msize : Nat) (header buffer : Bool) :
    Mntalloc x × Except String Mntrpc :=
  match a.rpcfree with
  | [] => allocated a msize header buffer
  | new :: rest => recycled a new rest msize buffer

/-- A header in use goes to the free list, or is freed with its tag. -/
def mntfree (a : Mntalloc x) (r : Mntrpc) : Mntalloc x :=
  if 10 ≤ a.nrpcfree then
    { a with
      tagmask := freetag a.tagmask r.tag
      nrpcused := a.nrpcused - 1
      inuse := a.inuse.erase r }
  else
    { a with
      rpcfree := r :: a.rpcfree
      nrpcfree := a.nrpcfree + 1
      nrpcused := a.nrpcused - 1
      inuse := a.inuse.erase r }

/-- A header is asked for, or one in use is given back: the one at that place. -/
inductive Action where
  | mntralloc (msize : Nat) (header buffer : Bool)
  | mntfree (place : Nat)

def act (a : Mntalloc x) : Action → Mntalloc x
  | .mntralloc msize header buffer => (mntralloc a msize header buffer).1
  | .mntfree place =>
    match a.inuse[place]? with
    | none => a
    | some r => mntfree a r

def step (a : Mntalloc x) (action : Action) : Option (Mntalloc x) := some (act a action)

/-! ### The accounts -/

def Mntalloc.tags (a : Mntalloc x) : List Nat :=
  a.inuse.map Mntrpc.tag ++ a.rpcfree.map Mntrpc.tag

/-- The tags allocated are `0`, `NOTAG` and those of the headers, which differ, and the count of
headers in use is right. -/
structure Accounted (a : Mntalloc x) : Prop where
  tagmask : ∀ t < 2 ^ 16, has a.tagmask t = true ↔ t = 0 ∨ t = NOTAG ∨ t ∈ a.tags
  distinct : a.tags.Nodup
  nrpcused : a.nrpcused = a.inuse.length

/-- The header on the free list has too small a buffer, and there is no memory for another. -/
def Regrown (a : Mntalloc x) : Action → Prop
  | .mntralloc msize _ buffer =>
    ∃ new rest, a.rpcfree = new :: rest ∧ new.rpclen < msize ∧ buffer = false
  | .mntfree _ => False

/-- What every action keeps: the tags of the headers are allocated and differ, and none is `0`
or `NOTAG`. -/
structure Framed (a : Mntalloc x) : Prop where
  words : a.tagmask.length = NMASK
  tidy : ∀ v ∈ a.tagmask, Tidy v
  zero : has a.tagmask 0 = true
  notag : has a.tagmask NOTAG = true
  allocated : ∀ t ∈ a.tags, t < 2 ^ 16 ∧ t ≠ 0 ∧ t ≠ NOTAG ∧ has a.tagmask t = true
  distinct : a.tags.Nodup

/-! ### What the tags do -/

theorem freebit_some {v : Word x} {j : Nat} (tidy : Tidy v) (found : freebit v = some j) :
    j < 32 ∧ v.getLsbD j = false := by
  unfold freebit at found
  split at found
  · cases found
  · have low : j < 32 := mem_range.1 (mem_of_find?_eq_some found)
    have unmet := find?_some found
    exact ⟨low, (and_mask_eq_zero low tidy).1 (beq_iff_eq.1 unmet)⟩

variable {i t : Nat}

theorem freeword_some {words : List (Word x)} {k j : Nat} (found : freeword words k = some (i, j)) :
    k ≤ i ∧ ∃ v, words[i - k]? = some v ∧ freebit v = some j := by
  induction words generalizing k with
  | nil => cases found
  | cons v rest ih =>
    unfold freeword at found
    split at found
    · rename_i j' free
      cases found
      exact ⟨Nat.le_refl _, v, by rw [Nat.sub_self]; rfl, free⟩
    have ⟨later, w, is, free⟩ := ih found
    refine ⟨by omega, w, ?_, free⟩
    rw [show i - k = i - (k + 1) + 1 by omega, getElem?_cons_succ]
    exact is

/-- A tag is allocated that was not, and it alone; or there is none. -/
theorem alloctag_spec {tagmask : List (Word x)} (words : tagmask.length = NMASK)
    (tidy : ∀ v ∈ tagmask, Tidy v) :
    alloctag tagmask = (NOTAG, tagmask) ∨
      ∃ t < 2 ^ 16, has tagmask t = false ∧ alloctag tagmask = (t, put tagmask t) := by
  unfold alloctag
  rcases found : freeword tagmask 0 with _ | ⟨i, j⟩
  · exact .inl rfl
  right
  obtain ⟨-, v, is, free⟩ := freeword_some found
  rw [Nat.sub_zero] at is
  have ⟨_, clear⟩ := freebit_some (tidy v (mem_of_getElem? is)) free
  have inside : i < tagmask.length := (List.getElem?_eq_some_iff.1 is).1
  have word : (i * 2 ^ TAGSHIFT + j) / 32 = i := by
    unfold TAGSHIFT
    omega
  have bit : (i * 2 ^ TAGSHIFT + j) % 32 = j := by
    unfold TAGSHIFT
    omega
  refine ⟨i * 2 ^ TAGSHIFT + j, ?_, ?_, ?_⟩
  · rw [words] at inside
    unfold NMASK TAGSHIFT at *
    omega
  · unfold has
    rw [word, bit, getD_eq_getElem?_getD, is]
    exact clear
  · unfold put
    rw [word, bit]

theorem word_of_tag (low : t < 2 ^ 16) : t / 32 < NMASK := by
  unfold NMASK TAGSHIFT
  omega

/-! ### The frame -/

variable {a : Mntalloc x}

variable {b : Mntalloc x}

theorem Framed.perm (framed : Framed a) (same : b.tagmask = a.tagmask) (moved : b.tags.Perm a.tags)
    : Framed b where
  words := same ▸ framed.words
  tidy := same ▸ framed.tidy
  zero := same ▸ framed.zero
  notag := same ▸ framed.notag
  allocated := fun t member => same ▸ framed.allocated t (moved.subset member)
  distinct := moved.nodup_iff.2 framed.distinct

theorem Framed.allocated_one (framed : Framed a) (low : t < 2 ^ 16)
    (fresh : has a.tagmask t = false) (mask : b.tagmask = put a.tagmask t)
    (tags : b.tags = t :: a.tags) : Framed b := by
  have inside : t / 32 < a.tagmask.length := framed.words ▸ word_of_tag low
  have still (u : Nat) (set : has a.tagmask u = true) : has b.tagmask u = true := by
    rw [mask, has_put inside, set]
    rfl
  have other (u : Nat) (set : has a.tagmask u = true) : t ≠ u := by
    rintro rfl
    rw [fresh] at set
    exact Bool.noConfusion set
  refine ⟨?_, ?_, still 0 framed.zero, still NOTAG framed.notag, ?_, ?_⟩
  · rw [mask, length_put]
    exact framed.words
  · rw [mask]
    exact tidy_put t framed.tidy
  · intro u member
    rw [tags] at member
    rcases mem_cons.1 member with new | old
    · subst new
      refine ⟨low, other 0 framed.zero, other NOTAG framed.notag, ?_⟩
      rw [mask, has_put inside, decide_eq_true rfl, Bool.or_true]
    · obtain ⟨below, nonzero, real, set⟩ := framed.allocated u old
      exact ⟨below, nonzero, real, still u set⟩
  · rw [tags]
    refine nodup_cons.2 ⟨fun member => ?_, framed.distinct⟩
    exact other t (framed.allocated t member).2.2.2 rfl

theorem Framed.freed_one (framed : Framed a) (tags : a.tags.Perm (t :: b.tags))
    (mask : b.tagmask = remove a.tagmask t) : Framed b := by
  obtain ⟨low, nonzero, real, -⟩ := framed.allocated t (tags.mem_iff.2 mem_cons_self)
  have inside : t / 32 < a.tagmask.length := framed.words ▸ word_of_tag low
  have still {u : Nat} (other : u ≠ t) (set : has a.tagmask u = true) :
      has b.tagmask u = true := by
    rw [mask, has_remove inside, set, decide_eq_false other]
    rfl
  have distinct := nodup_cons.1 (tags.nodup_iff.1 framed.distinct)
  refine ⟨?_, ?_, still nonzero.symm framed.zero, still real.symm framed.notag, ?_, distinct.2⟩
  · rw [mask, length_remove]
    exact framed.words
  · rw [mask]
    exact tidy_remove t framed.tidy
  intro u member
  obtain ⟨below, nonzero', real', set⟩ :=
    framed.allocated u (tags.mem_iff.2 (mem_cons_of_mem t member))
  refine ⟨below, nonzero', real', still ?_ set⟩
  rintro rfl
  exact distinct.1 member

/-! ### One action -/

theorem mntralloc_nil {a : Mntalloc x} (list : a.rpcfree = []) (msize : Nat)
    (header buffer : Bool) :
    mntralloc a msize header buffer = allocated a msize header buffer := by
  unfold mntralloc
  rw [list]

variable {new : Mntrpc} {rest : List Mntrpc}

theorem mntralloc_cons {a : Mntalloc x} (list : a.rpcfree = new :: rest) (msize : Nat)
    (header buffer : Bool) :
    mntralloc a msize header buffer = recycled a new rest msize buffer := by
  unfold mntralloc
  rw [list]

theorem allocated_cases (framed : Framed a) (msize : Nat) (header buffer : Bool) :
    (allocated a msize header buffer).1 = a ∨
      ∃ r, r.tag < 2 ^ 16 ∧ has a.tagmask r.tag = false ∧
        (allocated a msize header buffer).1 =
          { a with
            tagmask := put a.tagmask r.tag
            nrpcused := a.nrpcused + 1
            inuse := r :: a.inuse } := by
  unfold allocated
  cases header with
  | false => exact .inl rfl
  | true =>
    cases buffer with
    | false => exact .inl rfl
    | true =>
      rcases alloctag_spec framed.words framed.tidy with none | ⟨t, low, fresh, is⟩
      · rw [none]
        exact .inl rfl
      have real : t ≠ NOTAG := by
        rintro rfl
        rw [framed.notag] at fresh
        exact Bool.noConfusion fresh
      rw [is]
      dsimp only
      rw [if_neg real]
      exact .inr ⟨⟨t, msize % 2 ^ 32⟩, low, fresh, rfl⟩

/-- A header of the free list is lost when its buffer cannot be replaced, and handed out
otherwise. -/
theorem recycled_cases (list : a.rpcfree = new :: rest) (msize : Nat) (header buffer : Bool) :
    (Regrown a (.mntralloc msize header buffer) ∧
      (recycled a new rest msize buffer).1 =
        { a with
          rpcfree := rest
          nrpcfree := a.nrpcfree - 1
          nrpcused := a.nrpcused - 1 }) ∨
    (¬ Regrown a (.mntralloc msize header buffer) ∧ ∃ r, r.tag = new.tag ∧
      (recycled a new rest msize buffer).1 =
        { a with
          rpcfree := rest
          nrpcfree := a.nrpcfree - 1
          nrpcused := a.nrpcused + 1
          inuse := r :: a.inuse }) := by
  unfold recycled
  dsimp only
  by_cases small : new.rpclen < msize
  · rw [if_pos small]
    cases buffer with
    | false => exact .inl ⟨⟨new, rest, list, small, rfl⟩, rfl⟩
    | true =>
      refine .inr ⟨?_, ⟨new.tag, msize % 2 ^ 32⟩, rfl, rfl⟩
      rintro ⟨-, -, -, -, none⟩
      exact Bool.noConfusion none
  · rw [if_neg small]
    refine .inr ⟨?_, new, rfl, rfl⟩
    rintro ⟨new', rest', is, small', -⟩
    rw [list] at is
    cases is
    exact small small'

variable {r : Mntrpc}

/-- The tags of a header that is given back, and of the others. -/
theorem tags_erase (member : r ∈ a.inuse) :
    a.tags.Perm (r.tag :: ((a.inuse.erase r).map Mntrpc.tag ++ a.rpcfree.map Mntrpc.tag)) := by
  unfold Mntalloc.tags
  rw [← cons_append, ← map_cons]
  exact (List.Perm.map Mntrpc.tag (perm_cons_erase member)).append_right _

/-- What an action may do, told by the tags: nothing; a tag is allocated for a new header; a
tag is freed with its header; a header moves between use and the free list; or one is lost. -/
inductive Effect (a b : Mntalloc x) : Prop where
  | same (is : b = a)
  | made (t : Nat) (low : t < 2 ^ 16) (fresh : has a.tagmask t = false)
      (mask : b.tagmask = put a.tagmask t) (tags : b.tags = t :: a.tags)
      (used : b.nrpcused = a.nrpcused + 1) (inuse : b.inuse.length = a.inuse.length + 1)
  | freed (t : Nat) (tags : a.tags.Perm (t :: b.tags)) (mask : b.tagmask = remove a.tagmask t)
      (used : b.nrpcused = a.nrpcused - 1) (inuse : b.inuse.length + 1 = a.inuse.length)
  | moved (mask : b.tagmask = a.tagmask) (tags : b.tags.Perm a.tags)
      (used : b.nrpcused - b.inuse.length = a.nrpcused - a.inuse.length)

/-- A header is lost: its tag stays allocated, and it is counted out of use. -/
structure Lost (a b : Mntalloc x) : Prop where
  mask : b.tagmask = a.tagmask
  tags : ∃ t, a.tags.Perm (t :: b.tags)
  used : b.nrpcused = a.nrpcused - 1
  inuse : b.inuse = a.inuse

theorem mntfree_effect (member : r ∈ a.inuse) : Effect a (mntfree a r) := by
  have shorter : (a.inuse.erase r).length + 1 = a.inuse.length := by
    rw [length_erase_of_mem member]
    have := length_pos_of_mem member
    omega
  unfold mntfree
  split
  · exact .freed r.tag (tags_erase member) rfl rfl shorter
  refine .moved rfl ?_ ?_
  · refine List.Perm.trans ?_ (tags_erase member).symm
    exact perm_middle
  · show a.nrpcused - 1 - ((a.inuse.erase r).length : Int) = _
    omega

theorem recycled_tags (list : a.rpcfree = new :: rest) (same : r.tag = new.tag) :
    ((r :: a.inuse).map Mntrpc.tag ++ rest.map Mntrpc.tag).Perm a.tags := by
  unfold Mntalloc.tags
  rw [list, map_cons, map_cons, same]
  exact perm_middle.symm

theorem act_cases (framed : Framed a) (action : Action) :
    (Regrown a action ∧ Lost a (act a action)) ∨ (¬ Regrown a action ∧ Effect a (act a action)) := by
  cases action with
  | mntfree place =>
    refine .inr ⟨not_false, ?_⟩
    unfold act
    dsimp only
    split
    · exact .same rfl
    · rename_i r is
      exact mntfree_effect (mem_of_getElem? is)
  | mntralloc msize header buffer =>
    show _ ∧ Lost a (mntralloc a msize header buffer).1 ∨
      _ ∧ Effect a (mntralloc a msize header buffer).1
    rcases list : a.rpcfree with _ | ⟨new, rest⟩
    · right
      rw [mntralloc_nil list]
      refine ⟨?_, ?_⟩
      · rintro ⟨new, rest, is, -⟩
        rw [list] at is
        cases is
      rcases allocated_cases framed msize header buffer with is | ⟨r, low, fresh, is⟩
      · exact .same is
      · rw [is]
        exact .made r.tag low fresh rfl rfl rfl rfl
    · rw [mntralloc_cons list]
      rcases recycled_cases list msize header buffer with
        ⟨regrown, is⟩ | ⟨kept, r, same, is⟩
      · refine .inl ⟨regrown, ?_⟩
        rw [is]
        refine ⟨rfl, ⟨new.tag, ?_⟩, rfl, rfl⟩
        exact (recycled_tags list rfl).symm
      refine .inr ⟨kept, ?_⟩
      rw [is]
      refine .moved rfl ?_ ?_
      · exact recycled_tags list same
      show a.nrpcused + 1 - ((r :: a.inuse).length : Int) = _
      rw [length_cons]
      push_cast
      omega

theorem Effect.framed (effect : Effect a b) (framed : Framed a) : Framed b := by
  cases effect with
  | same is => exact is ▸ framed
  | made _ low fresh mask tags _ _ => exact framed.allocated_one low fresh mask tags
  | freed _ tags mask _ _ => exact framed.freed_one tags mask
  | moved mask tags _ => exact framed.perm mask tags

theorem Lost.framed (lost : Lost a b) (framed : Framed a) : Framed b := by
  have ⟨t, tags⟩ := lost.tags
  have distinct := nodup_cons.1 (tags.nodup_iff.1 framed.distinct)
  have mask := lost.mask
  refine ⟨mask ▸ framed.words, mask ▸ framed.tidy, mask ▸ framed.zero, mask ▸ framed.notag, ?_,
    distinct.2⟩
  intro u member
  rw [mask]
  exact framed.allocated u (tags.mem_iff.2 (mem_cons_of_mem t member))

theorem Effect.accounted (effect : Effect a b) (framed : Framed a) (accounted : Accounted a) :
    Accounted b := by
  have framed' := effect.framed framed
  cases effect with
  | same is => exact is ▸ accounted
  | made _ low _ mask tags used inuse =>
    refine ⟨fun u below => ?_, framed'.distinct, ?_⟩
    · rw [mask, has_put (framed.words ▸ word_of_tag low), Bool.or_eq_true, decide_eq_true_iff,
        accounted.tagmask u below, tags, mem_cons]
      constructor
      · rintro ((zero | none | old) | new)
        · exact .inl zero
        · exact .inr (.inl none)
        · exact .inr (.inr (.inr old))
        · exact .inr (.inr (.inl new))
      rintro (zero | none | new | old)
      · exact .inl (.inl zero)
      · exact .inl (.inr (.inl none))
      · exact .inr new
      · exact .inl (.inr (.inr old))
    · rw [used, inuse, accounted.nrpcused]
      push_cast
      rfl
  | freed t tags mask used _ =>
    obtain ⟨low, nonzero, real, -⟩ := framed.allocated t (tags.mem_iff.2 mem_cons_self)
    have distinct := nodup_cons.1 (tags.nodup_iff.1 framed.distinct)
    refine ⟨fun u below => ?_, framed'.distinct, ?_⟩
    · rw [mask, has_remove (framed.words ▸ word_of_tag low), Bool.and_eq_true,
        Bool.not_eq_true', decide_eq_false_iff_not, accounted.tagmask u below, tags.mem_iff,
        mem_cons]
      constructor
      · rintro ⟨zero | none | gone | old, other⟩
        · exact .inl zero
        · exact .inr (.inl none)
        · exact absurd gone other
        · exact .inr (.inr old)
      rintro (zero | none | old)
      · exact ⟨.inl zero, fun same => nonzero (same.symm.trans zero)⟩
      · exact ⟨.inr (.inl none), fun same => real (same.symm.trans none)⟩
      · exact ⟨.inr (.inr (.inr old)), fun same => distinct.1 (same ▸ old)⟩
    · rw [used, accounted.nrpcused]
      omega
  | moved mask tags _ =>
    refine ⟨fun u below => ?_, framed'.distinct, ?_⟩
    · rw [mask, accounted.tagmask u below, tags.mem_iff]
    · have count := accounted.nrpcused
      omega

theorem Lost.not_accounted (lost : Lost a b) (accounted : Accounted a) : ¬ Accounted b := by
  intro after
  have used := after.nrpcused
  rw [lost.used, lost.inuse, accounted.nrpcused] at used
  omega

/-! ### Any sequence of actions -/

theorem getLsbD_ofNat_two_pow {w k : Nat} :
    (BitVec.ofNat w (2 ^ i)).getLsbD k = decide (k < w ∧ k = i) := by
  rw [BitVec.getLsbD_ofNat, Nat.testBit_two_pow, Bool.eq_iff_iff, Bool.and_eq_true,
    decide_eq_true_iff, decide_eq_true_iff, decide_eq_true_iff]
  exact and_congr_right fun _ => eq_comm

theorem tidy_ofNat_two_pow (low : i < 32) : Tidy (BitVec.ofNat (32 + x) (2 ^ i)) := by
  intro _ _ set
  rw [getLsbD_ofNat_two_pow, decide_eq_true_iff] at set
  omega

/-- At the start `0` and `NOTAG` are allocated. -/
theorem has_mntinit (below : t < 2 ^ 16) :
    has (mntinit x).tagmask t = decide (t = 0 ∨ t = NOTAG) := by
  have inside := word_of_tag below
  have size : (List.replicate NMASK (0 : Word x)).length = NMASK := length_replicate
  unfold has mntinit
  rw [getD_eq_getElem?_getD, getElem?_set, getElem?_set, length_set, size]
  by_cases last : NMASK - 1 = t / 32
  · rw [if_pos last, if_pos (by unfold NMASK TAGSHIFT; decide), Option.getD_some,
      show (0x80000000 : Nat) = 2 ^ 31 from rfl, getLsbD_ofNat_two_pow, decide_eq_decide]
    unfold NMASK TAGSHIFT NOTAG at *
    omega
  rw [if_neg last]
  by_cases first : 0 = t / 32
  · rw [if_pos first, if_pos (by unfold NMASK TAGSHIFT; decide), Option.getD_some]
    refine (getLsbD_ofNat_two_pow (w := 32 + x) (i := 0)).trans ?_
    rw [decide_eq_decide]
    unfold NMASK TAGSHIFT NOTAG at *
    omega
  rw [if_neg first, getElem?_replicate, if_pos inside, Option.getD_some]
  refine Eq.trans BitVec.getLsbD_zero ?_
  symm
  rw [decide_eq_false_iff_not]
  unfold NMASK TAGSHIFT NOTAG at *
  omega

theorem framed_mntinit (x : Nat) : Framed (mntinit x) := by
  refine ⟨?_, ?_, ?_, ?_, fun t member => (nomatch member), nodup_nil⟩
  · show ((List.set _ _ _).set _ _).length = _
    rw [length_set, length_set, length_replicate]
  · intro _ member
    rcases mem_or_eq_of_mem_set member with member | is
    · rcases mem_or_eq_of_mem_set member with member | is
      · rw [eq_of_mem_replicate member]
        exact tidy_zero
      · rw [is]
        exact tidy_ofNat_two_pow (i := 0) (by decide)
    · rw [is]
      exact tidy_ofNat_two_pow (i := 31) (by decide)
  · rw [has_mntinit (by decide)]
    rfl
  · rw [has_mntinit (by decide)]
    rfl

theorem accounted_mntinit (x : Nat) : Accounted (mntinit x) := by
  refine ⟨fun t below => ?_, nodup_nil, rfl⟩
  rw [has_mntinit below, decide_eq_true_iff]
  constructor
  · rintro (zero | none)
    · exact .inl zero
    · exact .inr (.inl none)
  rintro (zero | none | member)
  · exact .inl zero
  · exact .inr none
  · exact nomatch member

/-- From `mntinit` on the tags and the headers in use are accounted for after every action of a
sequence, exactly when no header is taken from the free list whose buffer cannot be replaced. -/
theorem tags_accounted (x : Nat) (actions : List Action) :
    Always step Accounted (mntinit x) actions ↔
      Each step (fun a action => ¬ Regrown a action) (mntinit x) actions := by
  have total (a : Mntalloc x) (action : Action) : ∃ after, step a action = some after := ⟨_, rfl⟩
  have framed (a : Mntalloc x) (action : Action) (after : Mntalloc x) (framed : Framed a)
      (stepped : step a action = some after) : Framed after := by
    cases stepped
    rcases act_cases framed action with ⟨-, lost⟩ | ⟨-, effect⟩
    · exact lost.framed framed
    · exact effect.framed framed
  have exact (a : Mntalloc x) (action : Action) (after : Mntalloc x) (framed : Framed a)
      (accounted : Accounted a) (stepped : step a action = some after) :
      Accounted after ↔ ¬ Regrown a action := by
    cases stepped
    rcases act_cases framed action with ⟨regrown, lost⟩ | ⟨kept, effect⟩
    · exact iff_of_false (lost.not_accounted accounted) (not_not_intro regrown)
    · exact iff_of_true (effect.accounted framed accounted) kept
  exact always_iff_each total framed exact (framed_mntinit x) (accounted_mntinit x)

/-- A header with a buffer of 100 bytes is given back, and asked for with 200 when there is no
memory: the count of headers in use falls below zero. -/
theorem regrowth_unaccounted :
    ¬ Always step Accounted (mntinit 32)
      [.mntralloc 100 true true, .mntfree 0, .mntralloc 200 true false] := by
  intro always
  have accounted := always _ [] _ (append_nil _).symm rfl
  exact absurd accounted.nrpcused (by decide +kernel)

end Infernode.Devmnt
