import Infernode.Emu.Qstream
import Mathlib.Tactic.Ring

/-!
Writes to a queue as a stream.

Owns: that the answer of every write is right exactly within its condition.
-/

namespace Infernode.Qio

open Tail List

theorem contents_append (front back : Chain) :
    contents (front ++ back) = contents front ++ contents back := flatMap_append

theorem contents_place (made : Nat) (blocks : List Block) :
    contents (place made blocks) = blocks.flatMap Block.bytes := by
  rw [contents, ← flatMap_map Cell.value Block.bytes, map_value_place]

variable {q q' : Queue} {op : Op} {interrupted : Bool} {n : Int}

theorem contents_qaddlist (ordered : Ordered q) (b : Block) (next : List Block) :
    contents (qaddlist q b next).blocks = contents q.blocks ++ (b :: next).flatMap Block.bytes := by
  rw [blocks_qaddlist ordered, contents_append, contents_place]

theorem length_flatMap_bytes (blocks : List Block) :
    (blocks.flatMap Block.bytes).length = blocklen blocks := by
  induction blocks with
  | nil => rfl
  | cons _ _ ih =>
    rw [flatMap_cons, length_append, ih]
    rfl

/-- A writer's answer, when the first `j` of its bytes have been queued. -/
theorem right_wrote {j : Nat} (count : 0 ≤ n) (some : j ≤ op.data.length)
    (queued : contents q'.blocks = contents q.blocks ++ op.data.take j) :
    Right q op q' (wrote interrupted n) ↔
      interrupted = true ∨
        if q.state.msg then n = op.data.length → j = op.data.length else n = j := by
  cases interrupted with
  | true => exact iff_of_true ⟨j, queued⟩ (Or.inl rfl)
  | false =>
    have answer : wrote false n = .wrote n := by
      rw [wrote, if_neg]
      rintro (no | less)
      · exact Bool.noConfusion no
      · omega
    rw [answer, Right, queued]
    simp only [Bool.false_eq_true, false_or]
    have takes (k : Nat) (atMost : k ≤ op.data.length) :
        contents q.blocks ++ op.data.take j = contents q.blocks ++ op.data.take k ↔ j = k := by
      constructor
      · intro same
        have lengths := congrArg List.length (append_cancel_left same)
        rw [length_take, length_take] at lengths
        omega
      · rintro rfl
        rfl
    split
    · have whole := takes op.data.length (Nat.le_refl _)
      rw [take_length] at whole
      rw [whole]
    constructor
    · rintro ⟨k, atMost, is, same⟩
      rw [is, (takes k atMost).1 same]
    · intro is
      exact ⟨j, some, is, rfl⟩

theorem right_wrote_all (count : 0 ≤ n)
    (queued : contents q'.blocks = contents q.blocks ++ op.data) :
    Right q op q' (wrote interrupted n) ↔
      interrupted = true ∨ q.state.msg = true ∨ n = op.data.length := by
  have all : contents q'.blocks = contents q.blocks ++ op.data.take op.data.length := by
    rw [take_length, queued]
  rw [right_wrote count (Nat.le_refl _) all]
  cases q.state.msg with
  | true => exact or_congr_right (iff_of_true (fun _ => rfl) (Or.inl rfl))
  | false => simp

theorem right_wrote_none (count : 0 ≤ n) (queued : contents q'.blocks = contents q.blocks) :
    Right q op q' (wrote interrupted n) ↔
      interrupted = true ∨
        if q.state.msg then n = op.data.length → op.data.length = 0 else n = 0 := by
  have none : contents q'.blocks = contents q.blocks ++ op.data.take 0 := by
    rw [take_zero, append_nil, queued]
  rw [right_wrote count (Nat.zero_le _) none]
  simp only [eq_comm (a := 0), Int.natCast_zero]

/-- A write that answers with -1 or an error has queued nothing. -/
theorem right_failed (queued : contents q'.blocks = contents q.blocks) : Right q op q' .failed :=
  ⟨0, by rw [take_zero, append_nil, queued]⟩

/-! ### Blocks -/

theorem right_qproduce (ordered : Ordered q) (p : List UInt8) (memory : Bool) :
    Right q (.qproduce p memory) (perform q (.qproduce p memory)).2
      (perform q (.qproduce p memory)).1 := by
  rw [perform, qproduce]
  dsimp only
  split
  · exact right_failed rfl
  split
  · exact right_failed rfl
  split
  · refine (right_wrote_all (Int.natCast_nonneg _) ?_).2 (Or.inr (Or.inr rfl))
    have queued := contents_qaddlist ordered (filled p) []
    rw [flatMap_singleton] at queued
    dsimp only
    split
    · exact queued
    · exact queued
  · exact right_failed rfl

theorem right_qpassnolim (ordered : Ordered q) (b : Block) (next : List Block) :
    Right q (.qpassnolim b next) (perform q (.qpassnolim b next)).2
        (perform q (.qpassnolim b next)).1 ↔ Streams q (.qpassnolim b next) := by
  have length : (Op.qpassnolim b next).data.length = blocklen (b :: next) :=
    length_flatMap_bytes (b :: next)
  rw [perform, qpassnolim, Streams]
  dsimp only
  split_ifs with closed msg beyond
  · rw [right_wrote_none (Int.natCast_nonneg _) rfl, length, if_pos msg]
    simp only [Bool.false_eq_true, false_or, Int.natCast_inj]
  · rw [right_wrote_none (Int.natCast_nonneg _) rfl, length, if_neg msg]
    simp only [Bool.false_eq_true, false_or, Int.natCast_eq_zero]
  · rw [right_wrote_all (Int.natCast_nonneg _) (contents_qaddlist ordered b next), length]
    simp only [Bool.false_eq_true, false_or, Int.natCast_inj]
  · rw [right_wrote_all (Int.natCast_nonneg _) (contents_qaddlist ordered b next), length]
    simp only [Bool.false_eq_true, false_or, Int.natCast_inj]

theorem right_qpass (ordered : Ordered q) (b : Block) (next : List Block) :
    Right q (.qpass b next) (perform q (.qpass b next)).2 (perform q (.qpass b next)).1 ↔
      Streams q (.qpass b next) := by
  have length : (Op.qpass b next).data.length = blocklen (b :: next) :=
    length_flatMap_bytes (b :: next)
  rw [perform, qpass, Streams]
  by_cases full : q.limit ≤ q.len
  · rw [if_pos full]
    exact iff_of_true (right_failed rfl) (Or.inl full)
  rw [if_neg full, or_iff_right full]
  dsimp only
  split_ifs with closed beyond
  · rw [right_wrote_none (Int.natCast_nonneg _) rfl, length]
    simp only [Bool.false_eq_true, false_or, Int.natCast_eq_zero, forall_const, ite_self]
  · rw [right_wrote_all (Int.natCast_nonneg _) (contents_qaddlist ordered b next), length]
    simp only [Bool.false_eq_true, false_or, Int.natCast_inj]
  · rw [right_wrote_all (Int.natCast_nonneg _) (contents_qaddlist ordered b next), length]
    simp only [Bool.false_eq_true, false_or, Int.natCast_inj]

theorem contents_qbwrite (ordered : Ordered q) (isOpen : q.state.closed = false) (b : Block) :
    (¬(q.limit ≤ q.len ∧ q.noblock = true) →
      contents (qbwrite q b).2.blocks = contents q.blocks ++ b.bytes) ∧
    (q.limit ≤ q.len ∧ q.noblock = true → (qbwrite q b).2 = q) ∧
    (qbwrite q b).1 = .ok b.blen := by
  rw [qbwrite, isOpen]
  simp only [Bool.false_eq_true, if_false]
  refine ⟨?_, ?_, ?_⟩
  · intro room
    rw [if_neg room]
    have queued := contents_qaddlist ordered b []
    rw [flatMap_singleton] at queued
    exact queued
  · intro full
    rw [if_pos full]
  · split
    · rfl
    · rfl

theorem right_qbwrite (ordered : Ordered q) (interrupted : Bool) (b : Block) :
    Right q (.qbwrite interrupted b) (perform q (.qbwrite interrupted b)).2
        (perform q (.qbwrite interrupted b)).1 ↔ Streams q (.qbwrite interrupted b) := by
  rw [perform, Streams]
  cases closed : q.state.closed with
  | true =>
    have failed : qbwrite q b = (.error q.err, q) := by
      rw [qbwrite, if_pos closed]
    rw [failed]
    exact iff_of_true (right_failed rfl) (Or.inl rfl)
  | false =>
    obtain ⟨queued, dropped, answer⟩ := contents_qbwrite ordered closed b
    have pair : qbwrite q b = (.ok b.blen, (qbwrite q b).2) := Prod.ext answer rfl
    have waits := (same_qbwritewait (qbwrite q b).2).contents
    rw [pair]
    dsimp only
    simp only [Bool.false_eq_true, false_or]
    by_cases full : q.limit ≤ q.len ∧ q.noblock = true
    · have same : contents (qbwritewait (qbwrite q b).2).blocks = contents q.blocks := by
        rw [waits, dropped full]
      rw [right_wrote_none (Int.natCast_nonneg _) same]
      apply or_congr_right
      have length : (Op.qbwrite interrupted b).data.length = b.blen := rfl
      rw [length]
      simp only [forall_const, Int.natCast_eq_zero, ite_self, full.2, Int.not_lt.2 full.1,
        or_false]
    · rw [right_wrote_all (Int.natCast_nonneg _) (by rw [waits, queued full]; rfl)]
      refine or_congr_right (iff_of_true (Or.inr rfl) ?_)
      intro noblock
      exact Or.inr (Int.not_le.1 fun beyond => full ⟨beyond, noblock⟩)

/-! ### Memory -/

theorem Maxatomic_pos : 0 < Maxatomic := by decide

/-- A round of `qwrite` that queues its block. -/
structure Queued (q : Queue) (c : List UInt8) (q' : Queue) : Prop where
  ordered : Ordered q'
  bytes : contents q'.blocks = contents q.blocks ++ c
  len : q'.len = q.len + c.length
  limit : q'.limit = q.limit
  noblock : q'.noblock = q.noblock
  closed : q'.state.closed = q.state.closed
  msg : q'.state.msg = q.state.msg

theorem queued_qaddlist (ordered : Ordered q) (c : List UInt8) :
    Queued q c ((qaddlist q (filled c) []).starve false) where
  ordered := (((moves_qaddlist q (filled c) []).trans (same_starve _ false).moves) ordered).1
  bytes := by
    have queued := contents_qaddlist ordered (filled c) []
    rw [flatMap_singleton] at queued
    exact queued
  len := rfl
  limit := rfl
  noblock := rfl
  closed := rfl
  msg := rfl

theorem Queued.waits {c : List UInt8} (queued : Queued q c q') : Queued q c (qbwritewait q') := by
  rw [qbwritewait]
  split
  · exact queued
  · exact ⟨queued.ordered, queued.bytes, queued.len, queued.limit, queued.noblock,
      queued.closed, queued.msg⟩

theorem lastround_more {length : Nat} (more : Maxatomic < length) :
    lastround false length = lastround false (length - Maxatomic) + 1 := by
  rw [lastround, lastround, if_neg Bool.false_ne_true, if_neg Bool.false_ne_true,
    Nat.div_eq_sub_div Maxatomic_pos (by omega), Nat.sub_right_comm]

theorem lastround_only {msg : Bool} {length : Nat} (only : ¬(Maxatomic < length ∧ ¬msg = true)) :
    lastround msg length = 0 := by
  cases msg with
  | true => rfl
  | false =>
    have positive := Maxatomic_pos
    have least : length ≤ Maxatomic := Nat.not_lt.1 fun more => only ⟨more, Bool.false_ne_true⟩
    rw [lastround, if_neg Bool.false_ne_true, Nat.div_eq_of_lt (by omega)]

/-- A full queue that does not block loses what is written. -/
theorem qwriteloop_full (isOpen : q.state.closed = false) (full : q.limit ≤ q.len)
    (noblock : q.noblock = true) (rounds : Nat) (p : List UInt8) :
    (qwriteloop rounds q p).2 = q ∧
      ((qwriteloop rounds q p).1 = true ↔ lastround q.state.msg p.length < rounds) := by
  induction rounds generalizing p with
  | zero => exact ⟨rfl, iff_of_false Bool.false_ne_true (Nat.not_lt_zero _)⟩
  | succ rounds ih =>
    have lost : qbwrite q (filled (p.take Maxatomic)) =
        (.ok (filled (p.take Maxatomic)).blen, q) := by
      rw [qbwrite, if_neg (by rw [isOpen]; exact Bool.false_ne_true), if_pos ⟨full, noblock⟩]
    have waits : qbwritewait q = q := if_pos (Or.inl noblock)
    rw [qwriteloop, lost]
    dsimp only
    rw [waits]
    by_cases more : Maxatomic < p.length ∧ ¬q.state.msg = true
    · obtain ⟨same, done⟩ := ih (p.drop Maxatomic)
      have stream : q.state.msg = false := Bool.eq_false_of_not_eq_true more.2
      rw [if_pos more]
      refine ⟨same, done.trans ?_⟩
      rw [length_drop, stream, lastround_more more.1]
      omega
    · rw [if_neg more, lastround_only more]
      exact ⟨rfl, iff_of_true rfl (Nat.succ_pos rounds)⟩

theorem qwriteloop_spec (ordered : Ordered q) (isOpen : q.state.closed = false) (rounds : Nat)
    (p : List UInt8) :
    ∃ j, j ≤ p.length ∧
      contents (qwriteloop rounds q p).2.blocks = contents q.blocks ++ p.take j ∧
      ((qwriteloop rounds q p).1 = true ↔ lastround q.state.msg p.length < rounds) ∧
      (lastround q.state.msg p.length < rounds →
        (j = p.length ↔ (q.state.msg = true → p.length ≤ Maxatomic) ∧
          (q.noblock = true → p = [] ∨
            q.len + Maxatomic * lastround q.state.msg p.length < q.limit))) := by
  induction rounds generalizing q p with
  | zero =>
    refine ⟨0, Nat.zero_le _, ?_, iff_of_false Bool.false_ne_true (Nat.not_lt_zero _),
      fun none => absurd none (Nat.not_lt_zero _)⟩
    rw [take_zero, append_nil]
    rfl
  | succ rounds ih =>
    by_cases full : q.limit ≤ q.len ∧ q.noblock = true
    · obtain ⟨same, done⟩ := qwriteloop_full isOpen full.1 full.2 (rounds + 1) p
      refine ⟨0, Nat.zero_le _, by rw [same, take_zero, append_nil], done, ?_⟩
      intro _
      constructor
      · intro none
        have empty : p = [] := eq_nil_of_length_eq_zero none.symm
        subst empty
        exact ⟨fun _ => Nat.zero_le _, fun _ => Or.inl rfl⟩
      rintro ⟨-, room⟩
      rcases room full.2 with empty | room
      · rw [empty]
        rfl
      have beyond := full.1
      have blocks : 0 ≤ (Maxatomic : Int) * lastround q.state.msg p.length :=
        Int.mul_nonneg (Int.natCast_nonneg _) (Int.natCast_nonneg _)
      omega
    · have written : qbwrite q (filled (p.take Maxatomic)) =
          (.ok (filled (p.take Maxatomic)).blen,
            (qaddlist q (filled (p.take Maxatomic)) []).starve false) := by
        rw [qbwrite, if_neg (by rw [isOpen]; exact Bool.false_ne_true), if_neg full]
      have queued := (queued_qaddlist ordered (p.take Maxatomic)).waits
      rw [qwriteloop, written]
      dsimp only
      generalize qbwritewait ((qaddlist q (filled (p.take Maxatomic)) []).starve false) = q'
        at queued ⊢
      rw [queued.msg]
      by_cases more : Maxatomic < p.length ∧ ¬q.state.msg = true
      · rw [if_pos more]
        have stream : q.state.msg = false := Bool.eq_false_of_not_eq_true more.2
        obtain ⟨j, some, bytes, done, whole⟩ := ih queued.ordered
          (queued.closed.trans isOpen) (p.drop Maxatomic)
        have rounds' := lastround_more more.1
        have taken : (p.take Maxatomic).length = Maxatomic := by
          rw [length_take]
          exact Nat.min_eq_left (Nat.le_of_lt more.1)
        rw [length_drop] at some
        rw [queued.msg, stream, length_drop] at done whole
        refine ⟨Maxatomic + j, by omega, ?_, ?_, ?_⟩
        · rw [bytes, queued.bytes, append_assoc, take_add]
        · rw [done, stream, rounds']
          omega
        rw [stream, rounds']
        intro _
        have ends : j = p.length - Maxatomic ↔ Maxatomic + j = p.length := by omega
        have space : q'.len + Maxatomic * lastround false (p.length - Maxatomic) =
            q.len + Maxatomic * (lastround false (p.length - Maxatomic) + 1 : Nat) := by
          rw [queued.len, taken, Nat.cast_add, Nat.cast_one]
          ring
        have left : p.drop Maxatomic ≠ [] := by
          rw [ne_eq, drop_eq_nil_iff]
          exact Nat.not_le.2 more.1
        have notEmpty : p ≠ [] := by
          rintro rfl
          exact left rfl
        rw [← ends, whole (by omega), space, queued.noblock, queued.limit]
        simp only [Bool.false_eq_true, false_implies, true_and, left, notEmpty, false_or]
      · rw [if_neg more, lastround_only more]
        refine ⟨min Maxatomic p.length, Nat.min_le_right _ _, ?_,
          iff_of_true rfl (Nat.succ_pos _), ?_⟩
        · rw [queued.bytes, take_eq_take_min]
        intro _
        have room : q.noblock = true → p = [] ∨ q.len + Maxatomic * (0 : Nat) < q.limit := by
          intro noblock
          refine Or.inr ?_
          have within : ¬q.limit ≤ q.len := fun beyond => full ⟨beyond, noblock⟩
          omega
        rw [and_iff_left room]
        constructor
        · intro _ _
          omega
        intro short
        cases msg : q.state.msg with
        | true =>
          have least := short msg
          omega
        | false =>
          have least : ¬Maxatomic < p.length := fun beyond =>
            more ⟨beyond, by rw [msg]; exact Bool.false_ne_true⟩
          omega

theorem right_qwrite (ordered : Ordered q) (rounds : Nat) (interrupted : Bool) (p : List UInt8) :
    Right q (.qwrite rounds interrupted p) (perform q (.qwrite rounds interrupted p)).2
        (perform q (.qwrite rounds interrupted p)).1 ↔
      Streams q (.qwrite rounds interrupted p) := by
  rw [perform, qwrite, Streams]
  cases closed : q.state.closed with
  | true =>
    have failed : qwriteloop rounds q p = (false, q) := by
      cases rounds with
      | zero => rfl
      | succ _ =>
        have refused : qbwrite q (filled (p.take Maxatomic)) = (.error q.err, q) :=
          if_pos closed
        rw [qwriteloop, refused]
    rw [failed]
    exact iff_of_true (right_failed rfl) (Or.inl rfl)
  | false =>
    obtain ⟨j, some, bytes, done, whole⟩ := qwriteloop_spec ordered closed rounds p
    simp only [Bool.false_eq_true, false_or]
    by_cases ends : lastround q.state.msg p.length < rounds
    · rw [if_pos (done.2 ends)]
      dsimp only
      rw [right_wrote (Int.natCast_nonneg _) some bytes, or_iff_right (Nat.not_le.2 ends),
        ← whole ends]
      apply or_congr_right
      have length : (Op.qwrite rounds interrupted p).data.length = p.length := rfl
      rw [length]
      simp only [forall_const, Int.natCast_inj, eq_comm, ite_self]
    · rw [if_neg (fun is => ends (done.1 is))]
      exact iff_of_true ⟨j, bytes⟩ (Or.inr (Or.inl (Nat.not_lt.1 ends)))

theorem qiwrite_spec (ordered : Ordered q) (rounds : Nat) (p : List UInt8) :
    (qiwrite rounds q p).1 ≤ p.length ∧
      contents (qiwrite rounds q p).2.blocks =
        contents q.blocks ++ p.take (qiwrite rounds q p).1 := by
  induction rounds generalizing q p with
  | zero =>
    refine ⟨Nat.zero_le _, ?_⟩
    rw [qiwrite, take_zero, append_nil]
  | succ rounds ih =>
    have queued := queued_qaddlist ordered (p.take Maxatomic)
    rw [qiwrite]
    dsimp only
    generalize (qaddlist q (filled (p.take Maxatomic)) []).starve false = q' at queued ⊢
    split
    · rename_i more
      obtain ⟨some, bytes⟩ := ih queued.ordered (p.drop Maxatomic)
      rw [length_drop] at some
      refine ⟨by omega, ?_⟩
      rw [bytes, queued.bytes, append_assoc, take_add]
    · refine ⟨Nat.min_le_left _ _, ?_⟩
      rw [queued.bytes, take_eq_take_min, Nat.min_comm]

theorem right_qiwrite (ordered : Ordered q) (rounds : Nat) (p : List UInt8) :
    Right q (.qiwrite rounds p) (perform q (.qiwrite rounds p)).2
      (perform q (.qiwrite rounds p)).1 := by
  obtain ⟨some, bytes⟩ := qiwrite_spec ordered rounds p
  have queued : contents (qiwrite rounds q p).2.blocks =
      contents q.blocks ++ (Op.qiwrite rounds p).data.take (qiwrite rounds q p).1 := bytes
  rw [perform]
  dsimp only
  rw [right_wrote (Int.natCast_nonneg _) some queued]
  refine Or.inr ?_
  split
  · intro all
    exact Int.natCast_inj.1 all
  · rfl

end Infernode.Qio
