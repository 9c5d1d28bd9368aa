import Mathlib.Algebra.BigOperators.Group.List.Basic
import Infernode.Table.Tail

/-!
The blocks of `emu/port/qio.c`.

Owns: a block's buffer with its read and write pointers, `allocb`, `blocklen`,
`blockalloclen`, `pullupblock` on a chain of blocks, `bl2mem`, and what they do to the bytes
and the space of a chain.

Does not own: the queues. The memory of a freed block is not modelled; where a call leaves a
block to nobody, the block is gone.
-/

namespace Infernode.Qio

open Tail List

/-- `Maxatomic` -/
def Maxatomic : Nat := 32 * 1024

/-- A buffer: `lim` and `rp` are counted from `base`, and `bytes` are those from `rp` to
`wp`. -/
structure Block where
  lim : Nat
  rp : Nat
  bytes : List UInt8
  fits : rp + bytes.length ≤ lim
deriving DecidableEq, Repr

/-- `BLEN` -/
def Block.blen (b : Block) : Nat := b.bytes.length

/-- `BALLOC` -/
def Block.balloc (b : Block) : Nat := b.lim

theorem Block.blen_le_balloc (b : Block) : b.blen ≤ b.balloc :=
  Nat.le_trans (Nat.le_add_left _ _) b.fits

/-- A new block with room for `size` bytes. -/
def allocb (size : Nat) : Block where
  lim := size
  rp := 0
  bytes := []
  fits := Nat.zero_le size

def filled (bytes : List UInt8) : Block where
  lim := bytes.length
  rp := 0
  bytes := bytes
  fits := Nat.le_of_eq (Nat.zero_add _)

/-- `rp += n` -/
def Block.advance (b : Block) (n : Nat) : Block where
  lim := b.lim
  rp := b.rp + min n b.blen
  bytes := b.bytes.drop n
  fits := by
    have fits := b.fits
    rw [List.length_drop, Block.blen]
    omega

/-- `wp = rp + n` -/
def Block.truncate (b : Block) (n : Nat) : Block where
  lim := b.lim
  rp := b.rp
  bytes := b.bytes.take n
  fits := by
    have fits := b.fits
    rw [List.length_take]
    omega

/-- `memmove(wp, p, n); wp += n` -/
def Block.extend (b : Block) (more : List UInt8) (room : b.rp + b.blen + more.length ≤ b.lim) :
    Block where
  lim := b.lim
  rp := b.rp
  bytes := b.bytes ++ more
  fits := by
    rw [Block.blen] at room
    rw [List.length_append]
    omega

@[simp] theorem blen_allocb (size : Nat) : (allocb size).blen = 0 := rfl

@[simp] theorem balloc_allocb (size : Nat) : (allocb size).balloc = size := rfl

@[simp] theorem blen_advance (b : Block) (n : Nat) : (b.advance n).blen = b.blen - n :=
  length_drop

@[simp] theorem balloc_advance (b : Block) (n : Nat) : (b.advance n).balloc = b.balloc := rfl

@[simp] theorem blen_extend (b : Block) (more : List UInt8)
    (room : b.rp + b.blen + more.length ≤ b.lim) :
    (b.extend more room).blen = b.blen + more.length :=
  length_append

/-! ### Strings of blocks -/

abbrev Chain := List (Cell Block)

def blocklen : List Block → Nat
  | [] => 0
  | b :: rest => b.blen + blocklen rest

def blockalloclen : List Block → Nat
  | [] => 0
  | b :: rest => b.balloc + blockalloclen rest

@[simp] theorem blocklen_append (front back : List Block) :
    blocklen (front ++ back) = blocklen front + blocklen back := by
  induction front with
  | nil => exact (Nat.zero_add _).symm
  | cons _ _ ih =>
    rw [cons_append, blocklen, blocklen, ih, Nat.add_assoc]

@[simp] theorem blockalloclen_append (front back : List Block) :
    blockalloclen (front ++ back) = blockalloclen front + blockalloclen back := by
  induction front with
  | nil => exact (Nat.zero_add _).symm
  | cons _ _ ih =>
    rw [cons_append, blockalloclen, blockalloclen, ih, Nat.add_assoc]

theorem blocklen_le_blockalloclen (blocks : List Block) :
    blocklen blocks ≤ blockalloclen blocks := by
  induction blocks with
  | nil => exact Nat.le_refl 0
  | cons b _ ih =>
    exact Nat.add_le_add b.blen_le_balloc ih

def blocksOf (cells : Chain) : List Block := cells.map Cell.value

@[simp] theorem blocksOf_nil : blocksOf [] = [] := rfl

@[simp] theorem blocksOf_cons (cell : Cell Block) (cells : Chain) :
    blocksOf (cell :: cells) = cell.value :: blocksOf cells := rfl

@[simp] theorem blocksOf_append (front back : Chain) :
    blocksOf (front ++ back) = blocksOf front ++ blocksOf back := map_append

@[simp] theorem blocksOf_place (made : Nat) (blocks : List Block) :
    blocksOf (place made blocks) = blocks := map_value_place made blocks

/-- `bl2mem`: the bytes copied, and the first block that is not used up, without the blocks
behind it. -/
def bl2mem : List Block → Nat → List UInt8 × Option Block
  | [], _ => ([], none)
  | b :: rest, n =>
    if n < b.blen then (b.bytes.take n, some (b.advance n))
    else
      let (more, left) := bl2mem rest (n - b.blen)
      (b.bytes ++ more, left)

/-! ### pullupblock -/

/-- The loop of `pullupblock`: `n` more bytes go from the blocks behind into `bp`, which has
room for them. -/
def pullup (bp : Block) (n : Nat) (room : bp.rp + bp.blen + n ≤ bp.lim) :
    Chain → Option (Block × Chain)
  | [] => none
  | nbp :: rest =>
    if more : n < nbp.value.blen then
      some (bp.extend (nbp.value.bytes.take n)
          (by
            have taken : (nbp.value.bytes.take n).length ≤ n := List.length_take_le n _
            omega),
        { nbp with value := nbp.value.advance n } :: rest)
    else if same : n = nbp.value.blen then
      some (bp.extend nbp.value.bytes
          (by
            have whole : nbp.value.bytes.length = n := same.symm
            omega),
        rest)
    else
      pullup
        (bp.extend nbp.value.bytes
          (by
            have short : nbp.value.bytes.length ≤ n := Nat.not_lt.1 more
            omega))
        (n - nbp.value.blen)
        (by
          rw [blen_extend]
          have short : nbp.value.blen ≤ n := Nat.not_lt.1 more
          show bp.rp + (bp.blen + nbp.value.blen) + (n - nbp.value.blen) ≤ bp.lim
          omega)
        rest

/-- The chain gets a first block of `n` bytes, or none. `made` names a new first block, for
which there is memory or not. -/
inductive Pulled where
  | chain (cells : Chain)
  | short
  | exhausted
deriving DecidableEq, Repr

def Pulled.of (name : Nat) : Option (Block × Chain) → Pulled
  | none => .short
  | some (bp, rest) => .chain (⟨name, bp⟩ :: rest)

def pullupblock (made : Nat) (memory : Bool) (bp : Cell Block) (next : Chain) (n : Nat) : Pulled :=
  if n ≤ bp.value.blen then .chain (bp :: next)
  else if room : n ≤ bp.value.lim - bp.value.rp then
    .of bp.name (pullup bp.value (n - bp.value.blen)
      (by
        have fits := bp.value.fits
        rw [Block.blen] at *
        omega)
      next)
  else if memory then
    .of made (pullup (allocb n) n (Nat.le_of_eq (by rw [blen_allocb]; exact Nat.zero_add _))
      (bp :: next))
  else .exhausted

/-- The blocks that lie wholly within the first `n` bytes. -/
def usedup : Nat → List Block → List Block
  | 0, _ => []
  | _, [] => []
  | n + 1, b :: rest => if b.blen ≤ n + 1 then b :: usedup (n + 1 - b.blen) rest else []

variable {n made : Nat}

theorem usedup_cons (positive : 0 < n) (b : Block) (rest : List Block) :
    usedup n (b :: rest) = if b.blen ≤ n then b :: usedup (n - b.blen) rest else [] := by
  obtain ⟨_, rfl⟩ := Nat.exists_eq_add_of_lt positive
  rw [Nat.zero_add, usedup]

/-- What the loop leaves: the bytes are all there, the space of the blocks used up is gone, and
the cells behind are the last of those that were there. -/
structure PulledUp (n : Nat) (bp : Block) (cells : Chain) (bp' : Block) (rest : Chain) :
    Prop where
  bytes : bp'.blen + blocklen (blocksOf rest) = bp.blen + blocklen (blocksOf cells)
  first : bp'.balloc = bp.balloc
  space : blockalloclen (blocksOf rest) + blockalloclen (usedup n (blocksOf cells)) =
    blockalloclen (blocksOf cells)
  names : rest.map Cell.name <:+ cells.map Cell.name

theorem pullup_spec {cells : Chain} {bp : Block} (positive : 0 < n)
    (room : bp.rp + bp.blen + n ≤ bp.lim) :
    (n ≤ blocklen (blocksOf cells) →
      ∃ bp' rest, pullup bp n room cells = some (bp', rest) ∧ PulledUp n bp cells bp' rest) ∧
    (blocklen (blocksOf cells) < n → pullup bp n room cells = none) := by
  induction cells generalizing bp n with
  | nil =>
    rw [blocksOf_nil, blocklen]
    exact ⟨fun enough => absurd positive (Nat.not_lt.2 enough), fun _ => rfl⟩
  | cons nbp cells ih =>
    rw [pullup, blocksOf_cons, blocklen]
    by_cases more : n < nbp.value.blen
    · rw [dif_pos more]
      refine ⟨fun _ => ⟨_, _, rfl, ?_⟩, fun short => by omega⟩
      have none : usedup n (nbp.value :: blocksOf cells) = [] := by
        rw [usedup_cons positive, if_neg (Nat.not_le.2 more)]
      have taken : (nbp.value.bytes.take n).length = n := by
        rw [length_take]
        exact Nat.min_eq_left (Nat.le_of_lt more)
      refine ⟨?_, rfl, ?_, suffix_refl _⟩
      · rw [blen_extend, taken, blocksOf_cons, blocksOf_cons, blocklen, blocklen, blen_advance]
        omega
      · rw [blocksOf_cons, blocksOf_cons, none]
        rfl
    · rw [dif_neg more]
      have whole : usedup n (nbp.value :: blocksOf cells) =
          nbp.value :: usedup (n - nbp.value.blen) (blocksOf cells) := by
        rw [usedup_cons positive, if_pos (Nat.not_lt.1 more)]
      by_cases same : n = nbp.value.blen
      · rw [dif_pos same]
        refine ⟨fun _ => ⟨_, _, rfl, ?_⟩, fun short => by omega⟩
        refine ⟨?_, rfl, ?_, suffix_cons _ _⟩
        · rw [blen_extend, blocksOf_cons, blocklen, Nat.add_assoc]
          rfl
        · rw [blocksOf_cons, whole, same, Nat.sub_self, usedup, blockalloclen, blockalloclen,
            blockalloclen]
          omega
      rw [dif_neg same]
      have fits : bp.rp + bp.blen + nbp.value.bytes.length ≤ bp.lim := by
        have short : nbp.value.bytes.length ≤ n := Nat.not_lt.1 more
        omega
      have left : (bp.extend nbp.value.bytes fits).rp +
          (bp.extend nbp.value.bytes fits).blen + (n - nbp.value.blen) ≤ bp.lim := by
        rw [blen_extend]
        show bp.rp + (bp.blen + nbp.value.blen) + (n - nbp.value.blen) ≤ bp.lim
        omega
      have later := ih (Nat.sub_pos_of_lt (by omega)) left
      refine ⟨fun enough => ?_, fun short => later.2 (by omega)⟩
      have ⟨bp', rest, is, pulled⟩ := later.1 (by omega)
      refine ⟨bp', rest, is, ?_, pulled.first, ?_, pulled.names.trans (suffix_cons _ _)⟩
      · rw [pulled.bytes, blen_extend, blocksOf_cons, blocklen, Nat.add_assoc]
        rfl
      · rw [blocksOf_cons, whole, blockalloclen, blockalloclen, ← pulled.space]
        omega
/-- The space that `pullupblock` allocates for `n` bytes: none where they have room behind
the first block's read pointer. -/
def gained (n : Nat) (bp : Block) : Nat := if n ≤ bp.lim - bp.rp then 0 else n

/-- The blocks that `pullupblock` empties: the first block too where it allocates another. -/
def emptied (n : Nat) (bp : Block) (next : List Block) : List Block :=
  if n ≤ bp.lim - bp.rp then usedup (n - bp.blen) next else usedup n (bp :: next)

/-- A first block and the blocks behind it, against the chain before. -/
structure Pullsup (made n : Nat) (bp : Cell Block) (next : Chain) (cells : Chain) : Prop where
  some : cells ≠ []
  bytes : blocklen (blocksOf cells) = blocklen (blocksOf (bp :: next))
  space : blockalloclen (blocksOf cells) + blockalloclen (emptied n bp.value (blocksOf next)) =
    blockalloclen (blocksOf (bp :: next)) + gained n bp.value
  names : (cells.map Cell.name).Sublist (made :: (bp :: next).map Cell.name)

theorem pullupblock_enough {made n : Nat} {memory : Bool} {bp : Cell Block} {next : Chain}
    (less : bp.value.blen < n) (enough : n ≤ blocklen (blocksOf (bp :: next)))
    (allowed : gained n bp.value = 0 ∨ memory = true) :
    ∃ cells, pullupblock made memory bp next n = .chain cells ∧ Pullsup made n bp next cells := by
  rw [pullupblock, if_neg (Nat.not_le.2 less)]
  by_cases room : n ≤ bp.value.lim - bp.value.rp
  · rw [dif_pos room]
    obtain ⟨bp', rest, is, pulled⟩ := (pullup_spec (Nat.sub_pos_of_lt less) _).1
      (by
        rw [blocksOf_cons, blocklen] at enough
        exact Nat.sub_le_iff_le_add'.2 enough)
    rw [is]
    refine ⟨_, rfl, cons_ne_nil _ _, ?_, ?_,
      (pulled.names.sublist.cons_cons bp.name).cons made⟩
    · exact pulled.bytes
    rw [emptied, if_pos room, gained, if_pos room, blocksOf_cons, blocksOf_cons, blockalloclen,
      blockalloclen, ← pulled.space, ← pulled.first]
    show bp'.balloc + _ + _ = _
    omega
  · have positive : 0 < n := Nat.lt_of_le_of_lt (Nat.zero_le _) less
    have memoryTrue : memory = true := by
      rcases allowed with none | memory
      · rw [gained, if_neg room] at none
        exact absurd none (Nat.ne_of_gt positive)
      · exact memory
    rw [dif_neg room, if_pos memoryTrue]
    obtain ⟨bp', _, is, pulled⟩ := (pullup_spec positive _).1 enough
    rw [is]
    refine ⟨_, rfl, cons_ne_nil _ _, ?_, ?_, pulled.names.sublist.cons_cons made⟩
    · have bytes := pulled.bytes
      rw [blen_allocb, Nat.zero_add] at bytes
      exact bytes
    rw [emptied, if_neg room, gained, if_neg room, blocksOf_cons, blockalloclen]
    have space := pulled.space
    have first := pulled.first
    rw [balloc_allocb] at first
    show bp'.balloc + _ + _ = _
    rw [blocksOf_cons] at space
    rw [first, blocksOf_cons, ← space]
    omega

variable {bp : Cell Block} {next : Chain}

theorem pullupblock_short {memory : Bool} (short : blocklen (blocksOf (bp :: next)) < n)
    (allowed : gained n bp.value = 0 ∨ memory = true) :
    pullupblock made memory bp next n = .short := by
  have sum : bp.value.blen + blocklen (blocksOf next) < n := short
  have less : bp.value.blen < n := by omega
  rw [pullupblock, if_neg (Nat.not_le.2 less)]
  by_cases room : n ≤ bp.value.lim - bp.value.rp
  · rw [dif_pos room, (pullup_spec (Nat.sub_pos_of_lt less) _).2 (by omega)]
    rfl
  have positive : 0 < n := Nat.lt_of_le_of_lt (Nat.zero_le _) less
  have memoryTrue : memory = true := by
    rcases allowed with none | memory
    · rw [gained, if_neg room] at none
      exact absurd none (Nat.ne_of_gt positive)
    · exact memory
  rw [dif_neg room, if_pos memoryTrue, (pullup_spec positive _).2 short]
  rfl

theorem pullupblock_exhausted (less : bp.value.blen < n) (needs : gained n bp.value ≠ 0) :
    pullupblock made false bp next n = .exhausted := by
  have room : ¬n ≤ bp.value.lim - bp.value.rp := fun room => needs (if_pos room)
  rw [pullupblock, if_neg (Nat.not_le.2 less), dif_neg room]
  rfl

end Infernode.Qio
