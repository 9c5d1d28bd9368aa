import Infernode.Emu.Qstream

/-!
Removals from a queue as a stream.

Owns: that the answer of every removal is right exactly under its condition.
-/

namespace Infernode.Qio

open Tail List

theorem contents_cons (b : Cell Block) (next : Chain) :
    contents (b :: next) = b.value.bytes ++ contents next := flatMap_cons

theorem messages_cons (b : Cell Block) (next : Chain) :
    messages (b :: next) = b.value.bytes :: messages next := rfl

/-- A read that answers with the first `k` bytes of the next message. -/
theorem right_read {q q' : Queue} {op : Op} {m : List UInt8} {k : Nat} {n : Int}
    (count : n = (m.take k).length)
    (asked : ∀ len, op.asked = some len → (m.take k).length ≤ len)
    (message : q.state.msg = true → messages q.blocks = m :: messages q'.blocks)
    (stream : q.state.msg = false → contents q.blocks = m.take k ++ contents q'.blocks) :
    Right q op q' (.read (m.take k) n) := by
  refine ⟨count, asked, ?_⟩
  cases msg : q.state.msg with
  | true =>
    rw [if_pos rfl]
    exact ⟨m, message msg, List.take_prefix k m⟩
  | false =>
    rw [if_neg Bool.false_ne_true]
    exact stream msg

variable {q q' : Queue} {op : Op}

theorem right_read_whole {b : Cell Block} {next : Chain} (is : q.blocks = b :: next)
    (asked : ∀ len, op.asked = some len → b.value.blen ≤ len) (left : q'.blocks = next) :
    Right q op q' (.read b.value.bytes b.value.blen) := by
  have whole := @right_read q q' op b.value.bytes b.value.blen b.value.blen
  rw [Block.blen, take_length] at whole
  exact whole rfl asked (fun _ => by rw [is, left]; rfl)
    (fun _ => by rw [is, left, contents_cons])

theorem right_nothing (same : q'.blocks = q.blocks) : Right q op q' .nothing := by
  rw [Right, same]
  split
  · rfl
  · rfl

theorem right_qremove (q : Queue) :
    Right q .qremove (perform q .qremove).2 (perform q .qremove).1 := by
  rw [perform, qremove]
  split
  · rename_i b q' taken
    split at taken
    · cases taken
    · rename_i is
      cases taken
      exact right_read_whole is (fun len asked => by cases asked) rfl
  · rename_i q' taken
    split at taken
    · cases taken
      exact right_nothing rfl
    · cases taken

theorem right_qget (q : Queue) : Right q .qget (perform q .qget).2 (perform q .qget).1 := by
  rw [perform, qget]
  split
  · rename_i b q' taken
    split at taken
    · cases taken
    · rename_i is
      cases taken
      exact right_read_whole is (fun len asked => by cases asked) (same_restart _ _).blocks
  · rename_i q' taken
    split at taken
    · cases taken
      exact right_nothing rfl
    · cases taken

theorem right_qremoveback (q : Queue) (used : Nat) :
    Right q (.qremoveback used) (perform q (.qremoveback used)).2
      (perform q (.qremoveback used)).1 := by
  rw [perform, qremove]
  split
  · rename_i b q' taken
    split at taken
    · cases taken
    rename_i c next is
    cases taken
    refine ⟨c.value.bytes.drop used, messages next, ?_, rfl⟩
    rw [is, messages_cons, take_append_drop]
  · rename_i q' taken
    split at taken
    · cases taken
      exact right_nothing rfl
    · cases taken

/-! ### qdiscard -/

theorem discard_spec {cells : Chain} (left : Nat) {q : Queue} (is : q.blocks = cells) :
    (discard cells left q).1 ≤ left ∧ (discard cells left q).1 ≤ (contents cells).length ∧
      contents (discard cells left q).2.blocks =
        (contents cells).drop (discard cells left q).1 := by
  induction cells generalizing left q with
  | nil =>
    refine ⟨Nat.zero_le _, Nat.zero_le _, ?_⟩
    rw [discard, is]
    rfl
  | cons b next ih =>
    rw [discard, contents_cons]
    split
    · refine ⟨Nat.zero_le _, Nat.zero_le _, ?_⟩
      rw [is, contents_cons]
      rfl
    split
    · rename_i whole
      obtain ⟨atMost, there, bytes⟩ := @ih (left - b.value.blen)
        (q.drop b.value next) rfl
      dsimp only
      rw [length_append]
      refine ⟨by omega, Nat.add_le_add (Nat.le_refl _) there, ?_⟩
      rw [bytes, Block.blen, drop_append]
      rw [drop_eq_nil_of_le (Nat.le_add_right _ _), Nat.add_sub_cancel_left,
        nil_append]
    · rename_i part
      have less : left < b.value.bytes.length := Nat.not_le.1 part
      rw [length_append]
      refine ⟨Nat.le_refl _, by omega, ?_⟩
      rw [contents_cons, drop_append, Nat.sub_eq_zero_of_le (Nat.le_of_lt less)]
      rfl

theorem right_qdiscard (q : Queue) (len : Nat) :
    Right q (.qdiscard len) (perform q (.qdiscard len)).2 (perform q (.qdiscard len)).1 := by
  have ⟨atMost, there, bytes⟩ := @discard_spec q.blocks len q rfl
  refine ⟨?_, there, ?_⟩
  · intro _ is
    cases is
    exact atMost
  · have blocks := (same_restart (discard q.blocks len q).2 (discard q.blocks len q).2.limit).blocks
    exact (congrArg contents blocks).trans bytes

/-! ### Blocks of no bytes -/

/-- The chain without the blocks of no bytes before the first one of some. -/
def dropempty : Chain → Chain
  | [] => []
  | b :: next => if 0 < b.value.blen then b :: next else dropempty next

theorem contents_dropempty (cells : Chain) : contents (dropempty cells) = contents cells := by
  induction cells with
  | nil => rfl
  | cons b next ih =>
    rw [dropempty]
    split
    · rfl
    rename_i none
    have empty : b.value.bytes = [] :=
      eq_nil_of_length_eq_zero (Nat.eq_zero_of_not_pos none)
    rw [ih, contents_cons, empty, nil_append]

theorem dropempty_eq {cells : Chain} (nonempty : Nonempty cells) : dropempty cells = cells := by
  cases cells with
  | nil => rfl
  | cons _ _ => exact if_pos nonempty

theorem length_dropempty_le (cells : Chain) : (dropempty cells).length ≤ cells.length := by
  induction cells with
  | nil => exact Nat.le_refl 0
  | cons _ _ ih =>
    rw [dropempty]
    split
    · exact Nat.le_refl _
    · exact Nat.le_succ_of_le ih

theorem length_dropempty_lt {cells : Chain} (empty : ¬Nonempty cells) :
    (dropempty cells).length < cells.length := by
  cases cells with
  | nil => exact absurd trivial empty
  | cons b next =>
    have none : ¬0 < b.value.blen := empty
    rw [dropempty, if_neg none]
    exact Nat.lt_succ_of_le (length_dropempty_le next)

theorem passempty_spec {cells : Chain} {q : Queue} (is : q.blocks = cells) :
    (passempty cells q).blocks = dropempty cells ∧ (passempty cells q).state = q.state := by
  induction cells generalizing q with
  | nil => exact ⟨is, rfl⟩
  | cons _ _ ih =>
    rw [passempty, dropempty]
    split
    · exact ⟨is, rfl⟩
    · exact ih rfl

theorem qskip_spec {cells : Chain} {q : Queue} (is : q.blocks = cells) :
    (qskip cells q).blocks = dropempty cells ∧ (qskip cells q).state = q.state := by
  induction cells generalizing q with
  | nil => exact ⟨is, rfl⟩
  | cons b _ ih =>
    rw [qskip, dropempty]
    by_cases none : b.value.blen = 0
    · rw [if_pos none, if_neg (by omega)]
      exact ih rfl
    · rw [if_neg none, if_pos (Nat.pos_of_ne_zero none)]
      exact ⟨is, rfl⟩

theorem wrong_read {p : List UInt8} {n : Int} (msg : q.state.msg = true)
    (lost : q'.blocks.length + 1 < q.blocks.length) : ¬Right q op q' (.read p n) := by
  rintro ⟨-, -, next⟩
  rw [if_pos msg] at next
  obtain ⟨_, is, -⟩ := next
  have lengths := congrArg List.length is
  rw [length_cons, messages, messages, length_map, length_map] at lengths
  omega

/-- A queue of messages has lost some, and none was read. -/
theorem wrong_nothing (msg : q.state.msg = true) (lost : q'.blocks.length < q.blocks.length) :
    ¬Right q op q' .nothing := by
  intro same
  rw [Right, if_pos msg] at same
  have lengths := congrArg List.length same
  rw [messages, messages, length_map, length_map] at lengths
  omega

theorem right_qconsume (q : Queue) (len : Nat) :
    Right q (.qconsume len) (perform q (.qconsume len)).2 (perform q (.qconsume len)).1 ↔
      Streams q (.qconsume len) := by
  obtain ⟨blocks, state⟩ := @passempty_spec q.blocks q rfl
  have bytes := contents_dropempty q.blocks
  rw [perform, qconsume, Streams]
  dsimp only
  generalize passempty q.blocks q = skipped at blocks state ⊢
  cases is : skipped.blocks with
  | nil =>
    rw [is] at blocks
    dsimp only
    have none : (skipped.starve true).blocks = [] := is
    by_cases nonempty : q.state.msg = true → Nonempty q.blocks
    · refine iff_of_true ?_ nonempty
      rw [Right]
      split
      · rename_i msg
        rw [none, ← dropempty_eq (nonempty msg), ← blocks]
      · rw [none, ← bytes, ← blocks]
    · obtain ⟨msg, empty⟩ := Classical.not_imp.1 nonempty
      refine iff_of_false (wrong_nothing msg ?_) nonempty
      rw [none]
      have shorter := length_dropempty_lt empty
      rw [← blocks] at shorter
      exact shorter
  | cons b next =>
    rw [is] at blocks
    dsimp only
    have least : (b.value.bytes.take (min len b.value.blen)).length ≤ len := by
      rw [length_take]
      omega
    have after (q' : Queue) (left : q'.blocks =
          if skipped.state.msg = true ∨ min len b.value.blen = b.value.blen then next
          else { b with value := b.value.advance (min len b.value.blen) } :: next) :
        Right q (.qconsume len) q' (.read (b.value.bytes.take (min len b.value.blen))
            (b.value.bytes.take (min len b.value.blen)).length) ↔
          (q.state.msg = true → Nonempty q.blocks) := by
      rw [state] at left
      by_cases nonempty : q.state.msg = true → Nonempty q.blocks
      · refine iff_of_true (right_read rfl ?_ ?_ ?_) nonempty
        · intro asked is
          cases is
          exact least
        · intro msg
          rw [if_pos (Or.inl msg)] at left
          rw [← dropempty_eq (nonempty msg), ← blocks, left, messages_cons]
        intro stream
        rw [← bytes, ← blocks, contents_cons, left]
        by_cases whole : min len b.value.blen = b.value.blen
        · rw [if_pos (Or.inr whole), whole, Block.blen, take_length]
        have part : ¬(q.state.msg = true ∨ min len b.value.blen = b.value.blen) := by
          rw [stream]
          exact fun either => either.elim Bool.false_ne_true whole
        rw [if_neg part, contents_cons, ← append_assoc]
        congr 1
        exact (take_append_drop _ _).symm
      · obtain ⟨msg, empty⟩ := Classical.not_imp.1 nonempty
        refine iff_of_false (wrong_read msg ?_) nonempty
        have shorter := length_dropempty_lt empty
        rw [if_pos (Or.inl msg)] at left
        rw [← blocks] at shorter
        rw [left]
        exact shorter
    apply after
    rw [(same_restart _ _).blocks]
    split
    · rfl
    · rfl

/-! ### qbread -/

theorem qwait_ready (some : q.blocks ≠ []) : qwait q = (.ready, q) := if_pos some

theorem qwait_empty (empty : q.blocks = []) : (qwait q).1 ≠ .ready := by
  rw [qwait, if_neg (fun some => some empty)]
  dsimp only
  split_ifs
  · exact fun is => by cases is
  · exact fun is => by cases is
  · exact fun is => by cases is
  · exact fun is => by cases is

theorem right_qbread (q : Queue) (len : Nat) (memory : Bool) :
    Right q (.qbread len memory) (perform q (.qbread len memory)).2
        (perform q (.qbread len memory)).1 ↔ Streams q (.qbread len memory) := by
  rw [perform, qbread, Streams]
  cases is : q.blocks with
  | nil =>
    have waits := qwait_empty is
    have same := (same_qwait q).blocks
    refine iff_of_true ?_ (Or.inr (Or.inr trivial))
    cases answer : qwait q with
    | mk wait _ =>
      rw [answer] at waits same
      cases wait with
      | ready => exact absurd rfl waits
      | closed => exact right_nothing same
      | failed => exact right_nothing same
      | asleep => exact right_nothing same
  | cons b next =>
    have removed : qremove q = (some b.value, q.drop b.value next) := by
      rw [qremove, is]
    rw [qwait_ready (by rw [is]; exact cons_ne_nil b next)]
    dsimp only
    rw [removed]
    dsimp only
    by_cases fits : b.value.blen ≤ len
    · rw [if_pos fits]
      refine iff_of_true (right_read_whole is ?_ (same_restart _ _).blocks)
        (Or.inr (Or.inr fits))
      intro asked same
      cases same
      exact fits
    rw [if_neg fits]
    have more := Nat.not_le.1 fits
    have taken : (b.value.bytes.take len).length = len := by
      rw [length_take]
      exact Nat.min_eq_left (Nat.le_of_lt more)
    have atMost (asked : Nat) (same : (Op.qbread len memory).asked = some asked) :
        (b.value.bytes.take len).length ≤ asked := by
      cases same
      exact Nat.le_of_eq taken
    have msgs : (q.drop b.value next).state.msg = q.state.msg := rfl
    rw [msgs]
    cases msg : q.state.msg with
    | true =>
      rw [if_pos rfl]
      dsimp only
      refine iff_of_true (right_read rfl atMost ?_ ?_) (Or.inl rfl)
      · intro _
        rw [qwakeup, (same_restart _ _).blocks, is]
        rfl
      · rw [msg]
        exact fun stream => absurd stream.symm Bool.false_ne_true
    | false =>
      rw [if_neg Bool.false_ne_true]
      cases memory with
      | true =>
        rw [if_pos rfl]
        dsimp only
        refine iff_of_true (right_read rfl atMost ?_ ?_) (Or.inr (Or.inl rfl))
        · rw [msg]
          exact fun no => absurd no Bool.false_ne_true
        intro _
        have put := contents_cons
          ⟨(q.drop b.value next).made, filled (b.value.bytes.drop len)⟩ next
        have blocks := (same_restart (qputback (q.drop b.value next)
          (filled (b.value.bytes.drop len))) (q.limit.tdiv 2)).contents
        rw [is, contents_cons]
        refine Eq.trans ?_ (congrArg (b.value.bytes.take len ++ ·) blocks.symm)
        refine Eq.trans ?_ (congrArg (b.value.bytes.take len ++ ·) put.symm)
        rw [← append_assoc]
        congr 1
        exact (take_append_drop len _).symm
      | false =>
        rw [if_neg Bool.false_ne_true]
        dsimp only
        refine iff_of_false ?_ ?_
        · intro same
          rw [Right, msg, if_neg Bool.false_ne_true, is,
            contents_cons] at same
          have lengths := congrArg List.length same
          have left : ((q.drop b.value next).blocks) = next := rfl
          rw [left, length_append] at lengths
          rw [Block.blen] at more
          omega
        · rintro (no | no | no)
          · exact Bool.false_ne_true no
          · exact Bool.false_ne_true no
          · exact fits no

/-! ### qread -/

theorem gather_spec (len : Nat) {cells : Chain} (n : Nat) {q : Queue} (is : q.blocks = cells) :
    ∃ taken, cells = taken ++ (gather len cells n q).2.2.blocks ∧
      (gather len cells n q).1 = blocksOf taken ∧
      (gather len cells n q).2.1 = n + blocklen (blocksOf taken) ∧
      (taken = [] ∨ (gather len cells n q).2.1 ≤ len) ∧
      (gather len cells n q).2.2.state = q.state ∧
      (taken = [] ↔ match cells with
        | [] => True
        | c :: _ => len < n + c.value.blen) := by
  induction cells generalizing n q with
  | nil =>
    refine ⟨[], ?_, rfl, rfl, Or.inl rfl, rfl, iff_of_true rfl trivial⟩
    rw [gather, is, append_nil]
  | cons b next ih =>
    by_cases stops : len < n + b.value.blen
    · have none : gather len (b :: next) n q = ([], n, q) := by
        rw [gather, if_pos stops]
      rw [none]
      exact ⟨[], is.symm, rfl, rfl, Or.inl rfl, rfl, iff_of_true rfl stops⟩
    obtain ⟨taken, parts, blocks, count, fits, state, -⟩ :=
      @ih (n + b.value.blen) (q.drop b.value next) rfl
    have more : gather len (b :: next) n q =
        (b.value :: (gather len next (n + b.value.blen) (q.drop b.value next)).1,
          (gather len next (n + b.value.blen) (q.drop b.value next)).2) := by
      rw [gather, if_neg stops]
    rw [more]
    dsimp only
    refine ⟨b :: taken, ?_, ?_, ?_, Or.inr ?_, state, iff_of_false (cons_ne_nil _ _) stops⟩
    · rw [cons_append, ← parts]
    · rw [blocks, blocksOf_cons]
    · rw [count, blocksOf_cons, blocklen, Nat.add_assoc]
    rcases fits with rfl | fits
    · rw [count, blocksOf_nil, blocklen]
      omega
    · exact fits

theorem bl2mem_all {blocks : List Block} {n : Nat} (fits : blocklen blocks ≤ n) :
    bl2mem blocks n = (blocks.flatMap Block.bytes, none) := by
  induction blocks generalizing n with
  | nil => rfl
  | cons _ _ ih =>
    rw [blocklen] at fits
    rw [bl2mem, if_neg (by omega), ih (by omega), flatMap_cons]

theorem contents_eq_flatMap (cells : Chain) :
    contents cells = (blocksOf cells).flatMap Block.bytes := by
  rw [contents, blocksOf, flatMap_map]

/-- What a read does, when the first block that it sees is `b`. -/
theorem qread_spec (q : Queue) (len : Nat) {b : Cell Block} {next : Chain}
    (is : (if q.state.coalesce = true then dropempty q.blocks else q.blocks) = b :: next) :
    ∃ taken rest q', next = taken ++ rest ∧
      (q.state.coalesce = false → taken = []) ∧
      (q.state.coalesce = true → (taken = [] ↔ Alone len (b :: next))) ∧
      ((blocklen (blocksOf (b :: taken)) ≤ len ∧ q'.blocks = rest ∧
          qread q len = (.done (contents (b :: taken), blocklen (blocksOf (b :: taken))), q')) ∨
        (taken = [] ∧ len < b.value.blen ∧
          contents q'.blocks =
            (if q.state.msg = true then [] else b.value.bytes.drop len) ++ contents rest ∧
          (q.state.msg = true → q'.blocks = rest) ∧
          qread q len = (.done (b.value.bytes.take len, len), q'))) := by
  obtain ⟨skipped, skips, sees, state⟩ : ∃ skipped,
      (if q.state.coalesce = true then qskip q.blocks q else q) = skipped ∧
        skipped.blocks = b :: next ∧ skipped.state = q.state := by
    refine ⟨_, rfl, ?_⟩
    split
    · rename_i coalesce
      rw [if_pos coalesce] at is
      obtain ⟨blocks, state⟩ := @qskip_spec q.blocks q rfl
      exact ⟨blocks.trans is, state⟩
    · rename_i coalesce
      rw [if_neg coalesce] at is
      exact ⟨is, rfl⟩
  have ready : qwait skipped = (.ready, skipped) :=
    qwait_ready (by rw [sees]; exact cons_ne_nil b next)
  have removed : qremove skipped = (some b.value, skipped.drop b.value next) := by
    rw [qremove, sees]
  have stateDrop : (skipped.drop b.value next).state = q.state := state
  -- the blocks taken, and the queue when the lock is given up
  obtain ⟨taken, rest, q₂, parts, single, alone, fits, left, state₂, took⟩ :
      ∃ taken rest q₂, next = taken ++ rest ∧ (q.state.coalesce = false → taken = []) ∧
        (q.state.coalesce = true → (taken = [] ↔ Alone len (b :: next))) ∧
        (taken = [] ∨ blocklen (blocksOf (b :: taken)) ≤ len) ∧ q₂.blocks = rest ∧
        q₂.state = q.state ∧
        qreadtake q len =
          (.done ⟨blocksOf (b :: taken), blocklen (blocksOf (b :: taken)), len⟩, q₂) := by
    cases coalesce : q.state.coalesce with
    | true =>
      obtain ⟨taken, parts, blocks, count, fits, state', none⟩ :=
        @gather_spec len next b.value.blen (skipped.drop b.value next) rfl
      refine ⟨taken, _, _, parts, fun no => Bool.noConfusion no, fun _ => ?_, ?_, rfl,
        state'.trans stateDrop, ?_⟩
      · rw [none]
        cases next with
        | nil => exact Iff.rfl
        | cons c rest => exact Iff.rfl
      · rw [blocksOf_cons, blocklen, ← count]
        exact fits
      rw [qreadtake, skips, ready]
      dsimp only
      rw [removed]
      dsimp only
      rw [stateDrop, coalesce, if_pos rfl]
      have dropped : (skipped.drop b.value next).blocks = next := rfl
      rw [dropped, blocks, count, blocksOf_cons, blocklen]
    | false =>
      refine ⟨[], next, skipped.drop b.value next, rfl, fun _ => rfl,
        fun no => Bool.noConfusion no, Or.inl rfl, rfl, stateDrop, ?_⟩
      rw [qreadtake, skips, ready]
      dsimp only
      rw [removed]
      dsimp only
      rw [stateDrop, coalesce, if_neg Bool.false_ne_true]
      rfl
  by_cases whole : blocklen (blocksOf (b :: taken)) ≤ len
  · refine ⟨taken, rest, qwakeup q₂, parts, single, alone, Or.inl ⟨whole, ?_, ?_⟩⟩
    · rw [qwakeup, (same_restart _ _).blocks, left]
    · rw [qread, took]
      dsimp only
      rw [qreadrest, bl2mem_all whole, contents_eq_flatMap]
  have one : taken = [] := fits.resolve_right whole
  subst one
  have more : len < b.value.blen := Nat.not_le.1 whole
  refine ⟨[], rest, qwakeup (if q₂.state.msg then q₂ else qputback q₂ (b.value.advance len)),
    parts, single, alone, Or.inr ⟨rfl, more, ?_, ?_, ?_⟩⟩
  · rw [qwakeup, (same_restart _ _).blocks, state₂]
    split
    · rw [left, nil_append]
    · rw [qputback, left, contents_cons]
      rfl
  · intro msg
    rw [qwakeup, (same_restart _ _).blocks, state₂, if_pos msg, left]
  have copied : bl2mem (blocksOf [b]) len =
      (b.value.bytes.take len, some (b.value.advance len)) := by
    rw [blocksOf_cons, bl2mem, if_pos more]
  rw [qread, took]
  dsimp only
  rw [qreadrest, copied]
  dsimp only
  have count : (blocklen (blocksOf [b]) : Int) - (b.value.advance len).blen = len := by
    rw [blocksOf_cons, blocksOf_nil, blocklen, blocklen, blen_advance]
    omega
  rw [count]

theorem length_contents (cells : Chain) : (contents cells).length = blocklen (blocksOf cells) := by
  induction cells with
  | nil => rfl
  | cons _ _ ih =>
    rw [contents_cons, length_append, ih, blocksOf_cons, blocklen]
    rfl

theorem qread_empty (len : Nat)
    (none : (if q.state.coalesce = true then dropempty q.blocks else q.blocks) = []) :
    ∃ answer q', qread q len = (answer, q') ∧ (∀ value, answer ≠ .done value) ∧
      q'.blocks = [] := by
  have empty : (if q.state.coalesce = true then qskip q.blocks q else q).blocks = [] := by
    rw [← none]
    split
    · exact (@qskip_spec q.blocks q rfl).1
    · rfl
  rw [qread, qreadtake]
  dsimp only
  generalize (if q.state.coalesce = true then qskip q.blocks q else q) = skipped at empty ⊢
  have waits := qwait_empty empty
  have same := (same_qwait skipped).blocks
  cases answer : qwait skipped with
  | mk wait q' =>
    rw [answer] at waits same
    cases wait with
    | ready => exact absurd rfl waits
    | closed => exact ⟨_, q', rfl, (fun _ is => by cases is), same.trans empty⟩
    | failed => exact ⟨_, q', rfl, (fun _ is => by cases is), same.trans empty⟩
    | asleep => exact ⟨_, q', rfl, (fun _ is => by cases is), same.trans empty⟩

theorem right_qread (q : Queue) (len : Nat) :
    Right q (.qread len) (perform q (.qread len)).2 (perform q (.qread len)).1 ↔
      Streams q (.qread len) := by
  have bytes : contents (if q.state.coalesce = true then dropempty q.blocks else q.blocks) =
      contents q.blocks := by
    split
    · exact contents_dropempty q.blocks
    · rfl
  rw [Streams]
  cases is : (if q.state.coalesce = true then dropempty q.blocks else q.blocks) with
  | nil =>
    have ⟨answer, q', reads, notDone, empty⟩ := qread_empty len is
    rw [is] at bytes
    have result : perform q (.qread len) = (.nothing, q') := by
      rw [perform, reads]
      cases answer with
      | done value => exact absurd rfl (notDone value)
      | asleep => rfl
      | eof => rfl
      | error err => rfl
    rw [result]
    by_cases nonempty : q.state.msg = true → q.state.coalesce = true → Nonempty q.blocks
    · have right : Right q (.qread len) q' .nothing := by
        rw [Right]
        split
        · rename_i msg
          cases coalesce : q.state.coalesce with
          | true =>
            rw [coalesce, if_pos rfl, dropempty_eq (nonempty msg coalesce)] at is
            rw [is, empty]
          | false =>
            rw [coalesce, if_neg Bool.false_ne_true] at is
            rw [is, empty]
        · rw [empty, bytes]
      refine iff_of_true right ?_
      intro msg coalesce
      refine ⟨nonempty msg coalesce, ?_⟩
      rw [coalesce, if_pos rfl, dropempty_eq (nonempty msg coalesce)] at is
      rw [is]
      exact trivial
    · have ⟨msg, notNonempty⟩ := Classical.not_imp.1 nonempty
      have ⟨coalesce, empties⟩ := Classical.not_imp.1 notNonempty
      refine iff_of_false (wrong_nothing msg ?_) ?_
      · have shorter := length_dropempty_lt empties
        rw [empty]
        exact Nat.lt_of_le_of_lt (Nat.zero_le _) shorter
      · intro both
        exact empties (both msg coalesce).1
  | cons b next =>
    have ⟨taken, rest, q', parts, single, alone, reads⟩ := qread_spec q len is
    rw [is] at bytes
    -- one message is taken, and it is the first
    have first (one : taken = []) (clean : q.state.msg = true → q.state.coalesce = true →
        Nonempty q.blocks) (msg : q.state.msg = true) (left : q'.blocks = rest) :
        messages q.blocks = b.value.bytes :: messages q'.blocks := by
      rw [one, nil_append] at parts
      rw [left, ← parts, ← messages_cons, ← is]
      split
      · next coalesce => rw [dropempty_eq (clean msg coalesce)]
      · rfl
    -- where more is taken, or blocks of no bytes are passed over, messages are lost
    have lost (msg : q.state.msg = true) (coalesce : q.state.coalesce = true)
        (wrong : ¬(Nonempty q.blocks ∧ Alone len q.blocks)) (left : q'.blocks = rest) :
        q'.blocks.length + 1 < q.blocks.length := by
      rw [coalesce, if_pos rfl] at is
      have lengths := congrArg List.length is
      have partLengths := congrArg List.length parts
      rw [length_cons] at lengths
      rw [length_append] at partLengths
      rw [left]
      by_cases nonempty : Nonempty q.blocks
      · rw [dropempty_eq nonempty] at is lengths
        have notAlone : ¬Alone len (b :: next) := fun here => wrong ⟨nonempty, is ▸ here⟩
        have some : 0 < taken.length := by
          rw [length_pos_iff]
          exact fun none => notAlone ((alone coalesce).1 none)
        omega
      · have shorter := length_dropempty_lt nonempty
        omega
    rcases reads with ⟨fits, left, answer⟩ | ⟨one, more, stream, message, answer⟩
    · rw [perform, answer]
      dsimp only
      by_cases clean : q.state.msg = true → q.state.coalesce = true →
          Nonempty q.blocks ∧ Alone len q.blocks
      · refine iff_of_true ⟨?_, ?_, ?_⟩ clean
        · rw [length_contents]
        · intro asked same
          cases same
          rw [length_contents]
          exact fits
        split
        · rename_i msg
          have one : taken = [] := by
            cases coalesce : q.state.coalesce with
            | true =>
              apply (alone coalesce).2
              have ⟨nonempty, here⟩ := clean msg coalesce
              rw [coalesce, if_pos rfl, dropempty_eq nonempty] at is
              exact is ▸ here
            | false => exact single coalesce
          refine ⟨b.value.bytes,
            first one (fun msg coalesce => (clean msg coalesce).1) msg left, ?_⟩
          rw [one, contents_cons]
          exact (append_nil _) ▸ prefix_refl _
        · rw [left, ← bytes, parts, ← cons_append]
          exact flatMap_append
      · have ⟨msg, notClean⟩ := Classical.not_imp.1 clean
        have ⟨coalesce, wrong⟩ := Classical.not_imp.1 notClean
        exact iff_of_false (wrong_read msg (lost msg coalesce wrong left)) clean
    · rw [perform, answer]
      dsimp only
      have taken' : (b.value.bytes.take len).length = len := by
        rw [length_take]
        exact Nat.min_eq_left (Nat.le_of_lt more)
      by_cases clean : q.state.msg = true → q.state.coalesce = true →
          Nonempty q.blocks ∧ Alone len q.blocks
      · refine iff_of_true (right_read (by rw [taken']) ?_ ?_ ?_) clean
        · intro asked same
          cases same
          exact Nat.le_of_eq taken'
        · intro msg
          exact first one (fun msg coalesce => (clean msg coalesce).1) msg (message msg)
        intro noMsg
        rw [one, nil_append] at parts
        rw [stream, noMsg, if_neg Bool.false_ne_true, ← append_assoc,
          take_append_drop, ← bytes, contents_cons, parts]
      · have ⟨msg, notClean⟩ := Classical.not_imp.1 clean
        have ⟨coalesce, wrong⟩ := Classical.not_imp.1 notClean
        exact iff_of_false (wrong_read msg (lost msg coalesce wrong (message msg))) clean

end Infernode.Qio
