import Infernode.Emu.Qio

/-!
What the operations on a queue do to its accounts.

Owns: the accounts and the order of a queue, and for each operation but `pullupqueue`,
`qclose` and `qflush` that the counters change as the blocks do.
-/

namespace Infernode.Qio

open Tail

/-- The names of the cells are different, and `blast` names the last one. -/
def Ordered (q : Queue) : Prop := Tailed q.blocks q.blast q.made

/-- `dlen` and `len` fall by the bytes and by the space that the queue loses. -/
structure Exact (q q' : Queue) : Prop where
  dlen : q.dlen - q'.dlen = blocklen (blocksOf q.blocks) - blocklen (blocksOf q'.blocks)
  len : q.len - q'.len = blockalloclen (blocksOf q.blocks) - blockalloclen (blocksOf q'.blocks)

/-- The operation keeps the order, and the counters change as the blocks do. -/
def Moves (q q' : Queue) : Prop := Ordered q → Ordered q' ∧ Exact q q'

/-- The operation leaves the chain and the counters alone. -/
structure Same (q q' : Queue) : Prop where
  blocks : q'.blocks = q.blocks
  blast : q'.blast = q.blast
  len : q'.len = q.len
  dlen : q'.dlen = q.dlen
  made : q'.made = q.made

variable {q q' : Queue} {cells : Chain}

theorem Same.moves (same : Same q q') : Moves q q' := by
  intro ordered
  refine ⟨?_, ?_, ?_⟩
  · rw [Ordered, same.blocks, same.blast, same.made]
    exact ordered
  · rw [same.blocks, same.dlen, Int.sub_self, Int.sub_self]
  · rw [same.blocks, same.len, Int.sub_self, Int.sub_self]

theorem Same.trans {q'' : Queue} (first : Same q q') (second : Same q' q'') : Same q q'' where
  blocks := second.blocks.trans first.blocks
  blast := second.blast.trans first.blast
  len := second.len.trans first.len
  dlen := second.dlen.trans first.dlen
  made := second.made.trans first.made

theorem same_refl (q : Queue) : Same q q := ⟨rfl, rfl, rfl, rfl, rfl⟩

theorem moves_refl (q : Queue) : Moves q q := (same_refl q).moves

theorem Moves.trans {q'' : Queue} (first : Moves q q') (second : Moves q' q'') : Moves q q'' := by
  intro ordered
  have ⟨ordered', exact'⟩ := first ordered
  have ⟨ordered'', exact''⟩ := second ordered'
  refine ⟨ordered'', ?_, ?_⟩
  · have before := exact'.dlen
    have after := exact''.dlen
    omega
  · have before := exact'.len
    have after := exact''.len
    omega

theorem Moves.of_eq {α : Type} {answer : α × Queue} {value : α} (moves : Moves q answer.2)
    (is : answer = (value, q')) : Moves q q' := by
  rw [is] at moves
  exact moves

theorem same_starve (q : Queue) (starve : Bool) : Same q (q.starve starve) :=
  ⟨rfl, rfl, rfl, rfl, rfl⟩

theorem same_flow (q : Queue) (flow : Bool) : Same q (q.flow flow) := ⟨rfl, rfl, rfl, rfl, rfl⟩

theorem same_restart (q : Queue) (bound : Int) : Same q (q.restart bound) := by
  rw [Queue.restart]
  split
  · exact same_flow q false
  · exact same_refl q

theorem same_qwait (q : Queue) : Same q (qwait q).2 := by
  rw [qwait]
  dsimp only
  split_ifs
  · exact same_refl q
  · exact ⟨rfl, rfl, rfl, rfl, rfl⟩
  · exact ⟨rfl, rfl, rfl, rfl, rfl⟩
  · exact ⟨rfl, rfl, rfl, rfl, rfl⟩
  · exact same_starve q true

/-! ### Blocks to and from the chain -/

/-- Through `blast` the blocks go to the end. -/
theorem blocks_qaddlist (ordered : Ordered q) (b : Block) (next : List Block) :
    (qaddlist q b next).blocks = q.blocks ++ place q.made (b :: next) := by
  rw [qaddlist]
  dsimp only
  split
  · next empty => rw [empty, List.nil_append]
  · next some => exact link_last ordered.distinct (ordered.last some) some

theorem moves_qaddlist (q : Queue) (b : Block) (next : List Block) :
    Moves q (qaddlist q b next) := by
  intro ordered
  have blocks := blocks_qaddlist ordered b next
  refine ⟨?_, ?_, ?_⟩
  · rw [Ordered, blocks]
    exact ordered.append (List.cons_ne_nil b next)
  · rw [blocks, blocksOf_append, blocksOf_place, blocklen_append]
    simp only [qaddlist]
    push_cast
    omega
  rw [blocks, blocksOf_append, blocksOf_place, blockalloclen_append]
  simp only [qaddlist]
  push_cast
  omega

theorem moves_drop {q : Queue} {b : Cell Block} {next : Chain} (is : q.blocks = b :: next) :
    Moves q (q.drop b.value next) := by
  intro ordered
  rw [Ordered, is] at ordered
  refine ⟨ordered.tail, ?_, ?_⟩
  · rw [is, blocksOf_cons, blocklen]
    simp only [Queue.drop]
    push_cast
    omega
  rw [is, blocksOf_cons, blockalloclen]
  simp only [Queue.drop]
  push_cast
  omega

/-- The first block loses bytes from its front. -/
theorem moves_advance {b : Cell Block} {next : Chain} {n : Nat} (is : q.blocks = b :: next)
    (less : n ≤ b.value.blen) :
    Moves q { q with
      blocks := { b with value := b.value.advance n } :: next
      dlen := q.dlen - n } := by
  intro ordered
  rw [Ordered, is] at ordered
  refine ⟨ordered.congr rfl, ?_, ?_⟩
  · rw [is, blocksOf_cons, blocksOf_cons, blocklen, blocklen, blen_advance]
    push_cast
    omega
  · rw [is, blocksOf_cons, blocksOf_cons, blockalloclen, blockalloclen, balloc_advance,
      Int.sub_self, Int.sub_self]

theorem moves_qremove (q : Queue) : Moves q (qremove q).2 := by
  rw [qremove]
  split
  · exact moves_refl q
  · next is => exact moves_drop is

theorem moves_qputback (q : Queue) (b : Block) : Moves q (qputback q b) := by
  intro ordered
  refine ⟨Tailed.cons ordered b, ?_, ?_⟩
  · simp only [qputback, blocksOf_cons, blocklen]
    push_cast
    omega
  · simp only [qputback, blocksOf_cons, blockalloclen]
    push_cast
    omega

theorem moves_qget (q : Queue) : Moves q (qget q).2 := by
  rw [qget]
  split
  · exact (same_starve q true).moves
  · next is => exact (moves_drop is).trans (same_restart _ _).moves

theorem moves_discard (left : Nat) (is : q.blocks = cells) : Moves q (discard cells left q).2 := by
  induction cells generalizing left q with
  | nil => exact moves_refl q
  | cons _ _ ih =>
    rw [discard]
    split_ifs with none whole
    · exact moves_refl q
    · exact (moves_drop is).trans (ih _ rfl)
    · exact moves_advance is (Nat.le_of_lt (Nat.not_le.1 whole))

theorem moves_qdiscard (q : Queue) (len : Nat) : Moves q (qdiscard q len).2 :=
  (moves_discard len rfl).trans (same_restart _ _).moves

theorem moves_passempty (is : q.blocks = cells) : Moves q (passempty cells q) := by
  induction cells generalizing q with
  | nil => exact moves_refl q
  | cons b _ ih =>
    rw [passempty]
    split_ifs with some
    · exact moves_refl q
    have none : (b.value.blen : Int) = 0 := by omega
    have dropped := moves_drop is
    rw [Queue.drop, none, Int.sub_zero] at dropped
    exact dropped.trans (ih rfl)

theorem moves_qconsume (q : Queue) (len : Nat) : Moves q (qconsume q len).2 := by
  rw [qconsume]
  refine (moves_passempty rfl).trans ?_
  dsimp only
  split
  · exact (same_starve _ true).moves
  rename_i b next is
  have advanced := moves_advance is (Nat.min_le_right len b.value.blen)
  refine Moves.trans ?_ (same_restart _ _).moves
  split
  · refine advanced.trans ?_
    exact @moves_drop _ { b with value := b.value.advance (min len b.value.blen) } next rfl
  · exact advanced

theorem moves_qpassnolim (q : Queue) (b : Block) (next : List Block) :
    Moves q (qpassnolim q b next).2 := by
  rw [qpassnolim]
  split
  · exact moves_refl q
  refine (moves_qaddlist q b next).trans (Same.moves ?_)
  dsimp only
  split
  · exact (same_flow _ true).trans (same_starve _ false)
  · exact same_starve _ false

/-- Below the limit and in an open queue, `qpass` is `qpassnolim`. -/
theorem qpass_eq (room : ¬q.limit ≤ q.len) (isOpen : q.state.closed = false) (b : Block)
    (next : List Block) : qpass q b next = qpassnolim q b next := by
  rw [qpass, qpassnolim, if_neg room, isOpen]
  rfl

theorem moves_qpass (q : Queue) (b : Block) (next : List Block) :
    Moves q (qpass q b next).2 := by
  by_cases room : q.limit ≤ q.len
  · rw [qpass, if_pos room]
    exact moves_refl q
  cases isOpen : q.state.closed with
  | false =>
    rw [qpass_eq room isOpen]
    exact moves_qpassnolim q b next
  | true =>
    rw [qpass, if_neg room, if_pos isOpen]
    exact moves_refl q

theorem moves_qproduce (q : Queue) (p : List UInt8) (memory : Bool) :
    Moves q (qproduce q p memory).2 := by
  rw [qproduce]
  split_ifs
  · exact moves_refl q
  · exact (same_flow q true).moves
  · refine (moves_qaddlist q (filled p) []).trans (Same.moves ?_)
    dsimp only
    split
    · exact (same_starve _ false).trans (same_flow _ true)
    · exact same_starve _ false
  · exact moves_refl q

/-! ### Readers -/

theorem moves_qwakeup (q : Queue) : Moves q (qwakeup q) := (same_restart q _).moves

theorem moves_qbread (q : Queue) (len : Nat) (memory : Bool) :
    Moves q (qbread q len memory).2 := by
  have waited := (same_qwait q).moves
  rw [qbread]
  split
  · next is => exact waited.of_eq is
  · next is => exact waited.of_eq is
  · next is => exact waited.of_eq is
  rename_i q' is
  refine (waited.of_eq is).trans ?_
  have removed := moves_qremove q'
  split
  · next gone => exact removed.of_eq gone
  rename_i b q'' gone
  refine (removed.of_eq gone).trans ?_
  split_ifs
  · exact moves_qwakeup q''
  · exact moves_qwakeup q''
  · exact (moves_qputback q'' _).trans (moves_qwakeup _)
  · exact moves_refl q''

theorem moves_qskip (is : q.blocks = cells) : Moves q (qskip cells q) := by
  induction cells generalizing q with
  | nil => exact moves_refl q
  | cons _ _ ih =>
    rw [qskip]
    split
    · exact (moves_drop is).trans (ih rfl)
    · exact moves_refl q

theorem moves_gather (len : Nat) (n : Nat) (is : q.blocks = cells) :
    Moves q (gather len cells n q).2.2 := by
  induction cells generalizing n q with
  | nil => exact moves_refl q
  | cons _ _ ih =>
    rw [gather]
    split
    · exact moves_refl q
    · exact (moves_drop is).trans (ih _ rfl)

theorem moves_qreadtake (q : Queue) (len : Nat) : Moves q (qreadtake q len).2 := by
  rw [qreadtake]
  have skipped : Moves q (if q.state.coalesce then qskip q.blocks q else q) := by
    split
    · exact moves_qskip rfl
    · exact moves_refl q
  refine skipped.trans ?_
  dsimp only
  generalize (if q.state.coalesce = true then qskip q.blocks q else q) = q
  have waited := (same_qwait q).moves
  split
  · next is => exact waited.of_eq is
  · next is => exact waited.of_eq is
  · next is => exact waited.of_eq is
  rename_i q' is
  refine (waited.of_eq is).trans ?_
  have removed := moves_qremove q'
  split
  · next gone => exact removed.of_eq gone
  rename_i b q'' gone
  refine (removed.of_eq gone).trans ?_
  split
  · exact moves_gather len b.blen rfl
  · exact moves_refl q''

theorem moves_qreadrest (q : Queue) (reading : Reading) : Moves q (qreadrest q reading).2 := by
  rw [qreadrest]
  split
  · exact moves_qwakeup q
  rename_i b _
  refine Moves.trans ?_ (moves_qwakeup _)
  split
  · exact moves_refl q
  · exact moves_qputback q b

/-! ### Writers -/

theorem moves_qbwrite (q : Queue) (b : Block) : Moves q (qbwrite q b).2 := by
  rw [qbwrite]
  split_ifs
  · exact moves_refl q
  · exact moves_refl q
  · exact (moves_qaddlist q b []).trans (same_starve _ false).moves

theorem same_qbwritewait (q : Queue) : Same q (qbwritewait q) := by
  rw [qbwritewait]
  split
  · exact same_refl q
  · exact same_flow q true

theorem moves_qwriteloop (rounds : Nat) (q : Queue) (p : List UInt8) :
    Moves q (qwriteloop rounds q p).2 := by
  induction rounds generalizing q p with
  | zero => exact moves_refl q
  | succ rounds ih =>
    have written := moves_qbwrite q (filled (p.take Maxatomic))
    rw [qwriteloop]
    split
    · next is => exact written.of_eq is
    rename_i q' is
    refine (written.of_eq is).trans ((same_qbwritewait q').moves.trans ?_)
    dsimp only
    split
    · exact ih _ _
    · exact moves_refl _

theorem moves_qwrite (rounds : Nat) (q : Queue) (p : List UInt8) :
    Moves q (qwrite rounds q p).2 := moves_qwriteloop rounds q p

theorem moves_qiwrite (rounds : Nat) (q : Queue) (p : List UInt8) :
    Moves q (qiwrite rounds q p).2 := by
  induction rounds generalizing q p with
  | zero => exact moves_refl q
  | succ _ ih =>
    rw [qiwrite]
    refine (moves_qaddlist q (filled (p.take Maxatomic)) []).trans
      ((same_starve _ false).moves.trans ?_)
    split
    · exact ih _ _
    · exact moves_refl _

/-! ### The queue as a whole -/

theorem same_qhangup (q : Queue) (msg : String) : Same q (qhangup q msg) :=
  ⟨rfl, rfl, rfl, rfl, rfl⟩

theorem same_qreopen (q : Queue) : Same q (qreopen q) := ⟨rfl, rfl, rfl, rfl, rfl⟩

theorem same_qsetlimit (q : Queue) (limit : Int) : Same q (qsetlimit q limit) :=
  ⟨rfl, rfl, rfl, rfl, rfl⟩

theorem same_qnoblock (q : Queue) (onoff : Bool) : Same q (qnoblock q onoff) :=
  ⟨rfl, rfl, rfl, rfl, rfl⟩

/-! ### qcopy -/

def contents (cells : Chain) : List UInt8 := cells.flatMap fun cell => cell.value.bytes

end Infernode.Qio
