import Infernode.Emu.Qbytes
import Infernode.Emu.Qremovals
import Infernode.Program.Runs

/-!
A queue as a stream over any sequence of operations.

Owns: the bytes accepted and the bytes given over a run, and that every answer is right and
the two agree exactly as long as every operation meets its condition.
-/

namespace Infernode.Qio

open Runs List

/-- A queue, the bytes that writes have put behind the others, and the bytes that removals have
answered with or thrown away. -/
structure Traffic where
  q : Queue
  accepted : List UInt8
  given : List UInt8
deriving DecidableEq, Repr

def accepts (q q' : Queue) : Answer → List UInt8
  | .wrote _ => (contents q'.blocks).drop (contents q.blocks).length
  | .added => (contents q'.blocks).drop (contents q.blocks).length
  | .failed => (contents q'.blocks).drop (contents q.blocks).length
  | .read _ _ => []
  | .part _ => []
  | .discarded _ => []
  | .nothing => []

def gives (q : Queue) : Answer → List UInt8
  | .read p _ => p
  | .part p => p
  | .discarded n => (contents q.blocks).take n
  | .wrote _ => []
  | .added => []
  | .failed => []
  | .nothing => []

def carry (t : Traffic) (op : Op) : Option Traffic :=
  some ⟨(perform t.q op).2, t.accepted ++ accepts t.q (perform t.q op).2 (perform t.q op).1,
    t.given ++ gives t.q (perform t.q op).1⟩

/-- A queue that has been opened, and has carried nothing. -/
def fresh (limit : Int) (msg : Qstate) : Traffic := ⟨qopen limit msg, [], []⟩

/-- Without `Qmsg`, the bytes given and then the bytes queued are those accepted. -/
def Stream (t : Traffic) : Prop :=
  t.q.state.msg = false → t.given ++ contents t.q.blocks = t.accepted

def Answers (t : Traffic) (op : Op) (t' : Traffic) : Prop := Right t.q op t'.q (perform t.q op).1

def Carries (t : Traffic) (op : Op) : Prop := Streams t.q op

/-! ### Messages stay messages -/

theorem msg_restart (q : Queue) (bound : Int) : (q.restart bound).state.msg = q.state.msg := by
  rw [Queue.restart]
  split
  · rfl
  · rfl

theorem msg_qwait (q : Queue) : (qwait q).2.state.msg = q.state.msg := by
  rw [qwait]
  dsimp only
  split_ifs
  · rfl
  · rfl
  · rfl
  · rfl
  · rfl

theorem msg_qremove (q : Queue) : (qremove q).2.state.msg = q.state.msg := by
  rw [qremove]
  split
  · rfl
  · rfl

theorem msg_qbwrite (q : Queue) (b : Block) : (qbwrite q b).2.state.msg = q.state.msg := by
  rw [qbwrite]
  split_ifs
  · rfl
  · rfl
  · rfl

theorem msg_qbwritewait (q : Queue) : (qbwritewait q).state.msg = q.state.msg := by
  rw [qbwritewait]
  split
  · rfl
  · rfl

theorem msg_qwriteloop (rounds : Nat) (q : Queue) (p : List UInt8) :
    (qwriteloop rounds q p).2.state.msg = q.state.msg := by
  induction rounds generalizing q p with
  | zero => rfl
  | succ rounds ih =>
    have written := msg_qbwrite q (filled (p.take Maxatomic))
    rw [qwriteloop]
    split
    · rename_i is
      rw [is] at written
      exact written
    rename_i q' is
    rw [is] at written
    have waits := (msg_qbwritewait q').trans written
    dsimp only
    split
    · exact (ih _ _).trans waits
    · exact waits

theorem msg_qiwrite (rounds : Nat) (q : Queue) (p : List UInt8) :
    (qiwrite rounds q p).2.state.msg = q.state.msg := by
  induction rounds generalizing q p with
  | zero => rfl
  | succ _ ih =>
    rw [qiwrite]
    dsimp only
    split
    · exact ih _ _
    · rfl

theorem msg_discard (cells : Chain) (left : Nat) (q : Queue) :
    (discard cells left q).2.state.msg = q.state.msg := by
  induction cells generalizing left q with
  | nil => rfl
  | cons _ _ ih =>
    rw [discard]
    split_ifs
    · rfl
    · exact ih _ _
    · rfl

theorem msg_qbread (q : Queue) (len : Nat) (memory : Bool) :
    (qbread q len memory).2.state.msg = q.state.msg := by
  have waited := msg_qwait q
  rw [qbread]
  split
  · next is => rw [is] at waited; exact waited
  · next is => rw [is] at waited; exact waited
  · next is => rw [is] at waited; exact waited
  rename_i q' is
  rw [is] at waited
  have removed := msg_qremove q'
  split
  · next gone => rw [gone] at removed; exact removed.trans waited
  rename_i b q'' gone
  rw [gone] at removed
  have both := removed.trans waited
  split_ifs
  · exact (msg_restart _ _).trans both
  · exact (msg_restart _ _).trans both
  · exact (msg_restart _ _).trans both
  · exact both

theorem msg_qconsume (q : Queue) (len : Nat) :
    (qconsume q len).2.state.msg = q.state.msg := by
  have passed := congrArg Qstate.msg (@passempty_spec q.blocks q rfl).2
  rw [qconsume]
  dsimp only
  split
  · exact passed
  rw [msg_restart]
  split
  · exact passed
  · exact passed

theorem msg_qreadtake (q : Queue) (len : Nat) :
    (qreadtake q len).2.state.msg = q.state.msg := by
  have skipped : (if q.state.coalesce then qskip q.blocks q else q).state.msg = q.state.msg := by
    split
    · exact congrArg Qstate.msg (@qskip_spec q.blocks q rfl).2
    · rfl
  rw [qreadtake]
  dsimp only
  generalize (if q.state.coalesce = true then qskip q.blocks q else q) = q₁ at skipped ⊢
  have waited := (msg_qwait q₁).trans skipped
  split
  · next is => rw [is] at waited; exact waited
  · next is => rw [is] at waited; exact waited
  · next is => rw [is] at waited; exact waited
  rename_i q' is
  rw [is] at waited
  have removed := msg_qremove q'
  split
  · next gone => rw [gone] at removed; exact removed.trans waited
  rename_i b q'' gone
  rw [gone] at removed
  have both := removed.trans waited
  split
  · obtain ⟨_, _, _, _, _, state, _⟩ := @gather_spec len q''.blocks b.blen q'' rfl
    exact (congrArg Qstate.msg state).trans both
  · exact both

theorem msg_qread (q : Queue) (len : Nat) : (qread q len).2.state.msg = q.state.msg := by
  have took := msg_qreadtake q len
  rw [qread]
  split
  · rename_i reading q' is
    rw [is] at took
    dsimp only
    rw [qreadrest]
    split
    · exact (msg_restart _ _).trans took
    refine (msg_restart _ _).trans ?_
    split
    · exact took
    · exact took
  · next is => rw [is] at took; exact took
  · next is => rw [is] at took; exact took
  · next is => rw [is] at took; exact took

/-! ### One operation -/

theorem both_of_eq {α : Type} {q q' : Queue} {answer : α × Queue} {value : α}
    (moves : Moves q answer.2) (msg : answer.2.state.msg = q.state.msg)
    (is : answer = (value, q')) : Moves q q' ∧ q'.state.msg = q.state.msg := by
  rw [is] at moves msg
  exact ⟨moves, msg⟩

/-- What the operations do to the queue, whatever they answer. -/
theorem perform_cases (q : Queue) (op : Op) :
    Moves q (perform q op).2 ∧ (perform q op).2.state.msg = q.state.msg := by
  cases op with
  | qwrite rounds interrupted p =>
    have moves := moves_qwrite rounds q p
    have msg : (qwrite rounds q p).2.state.msg = q.state.msg := msg_qwriteloop rounds q p
    rw [perform]
    split
    · next is => exact both_of_eq moves msg is
    · next is => exact both_of_eq moves msg is
  | qbwrite interrupted b =>
    have moves := moves_qbwrite q b
    have msg := msg_qbwrite q b
    rw [perform]
    split
    · rename_i n q' is
      rw [is] at msg
      exact ⟨(moves.of_eq is).trans (same_qbwritewait q').moves,
        (msg_qbwritewait q').trans msg⟩
    · next is => exact both_of_eq moves msg is
  | qiwrite rounds p => exact ⟨moves_qiwrite rounds q p, msg_qiwrite rounds q p⟩
  | qproduce p memory =>
    refine ⟨moves_qproduce q p memory, ?_⟩
    rw [perform, qproduce]
    dsimp only
    split_ifs
    · rfl
    · rfl
    · rfl
    · rfl
    · rfl
  | qpass b next =>
    refine ⟨moves_qpass q b next, ?_⟩
    rw [perform, qpass]
    dsimp only
    split_ifs
    · rfl
    · rfl
    · rfl
    · rfl
  | qpassnolim b next =>
    refine ⟨moves_qpassnolim q b next, ?_⟩
    rw [perform, qpassnolim]
    dsimp only
    split_ifs
    · rfl
    · rfl
    · rfl
  | qaddlist b next => exact ⟨moves_qaddlist q b next, rfl⟩
  | qread len =>
    have moves := moves_qreadtake q len
    have msg := msg_qread q len
    have both : Moves q (qread q len).2 := by
      rw [qread]
      split
      · next reading q' is => exact (moves.of_eq is).trans (moves_qreadrest q' reading)
      · next is => exact moves.of_eq is
      · next is => exact moves.of_eq is
      · next is => exact moves.of_eq is
    rw [perform]
    split
    · next is => exact both_of_eq both msg is
    · next is => exact both_of_eq both msg is
  | qbread len memory =>
    have moves := moves_qbread q len memory
    have msg := msg_qbread q len memory
    rw [perform]
    split
    · next is => exact both_of_eq moves msg is
    · next is => exact both_of_eq moves msg is
  | qconsume len =>
    have moves := moves_qconsume q len
    have msg := msg_qconsume q len
    rw [perform]
    split
    · next is => exact both_of_eq moves msg is
    · next is => exact both_of_eq moves msg is
  | qget =>
    have moves := moves_qget q
    have msg : (qget q).2.state.msg = q.state.msg := by
      rw [qget]
      split
      · rfl
      · exact msg_restart _ _
    rw [perform]
    split
    · next is => exact both_of_eq moves msg is
    · next is => exact both_of_eq moves msg is
  | qremove =>
    have moves := moves_qremove q
    have msg := msg_qremove q
    rw [perform]
    split
    · next is => exact both_of_eq moves msg is
    · next is => exact both_of_eq moves msg is
  | qremoveback used =>
    have moves := moves_qremove q
    have msg := msg_qremove q
    rw [perform]
    split
    · rename_i b q' is
      rw [is] at msg
      exact ⟨(moves.of_eq is).trans (moves_qputback q' _), msg⟩
    · next is => exact both_of_eq moves msg is
  | qdiscard len => exact ⟨moves_qdiscard q len, (msg_restart _ _).trans (msg_discard _ len q)⟩
  | qhangup msg => exact ⟨(same_qhangup q msg).moves, rfl⟩
  | qreopen => exact ⟨(same_qreopen q).moves, rfl⟩
  | qsetlimit limit => exact ⟨(same_qsetlimit q limit).moves, rfl⟩
  | qnoblock onoff => exact ⟨(same_qnoblock q onoff).moves, rfl⟩

/-- The answer to an operation is right exactly under its condition. -/
theorem right_iff {q : Queue} (ordered : Ordered q) (op : Op) :
    Right q op (perform q op).2 (perform q op).1 ↔ Streams q op := by
  cases op with
  | qwrite rounds interrupted p => exact right_qwrite ordered rounds interrupted p
  | qbwrite interrupted b => exact right_qbwrite ordered interrupted b
  | qiwrite rounds p => exact iff_of_true (right_qiwrite ordered rounds p) trivial
  | qproduce p memory => exact iff_of_true (right_qproduce ordered p memory) trivial
  | qpass b next => exact right_qpass ordered b next
  | qpassnolim b next => exact right_qpassnolim ordered b next
  | qaddlist b next => exact iff_of_true (contents_qaddlist ordered b next) trivial
  | qread len => exact right_qread q len
  | qbread len memory => exact right_qbread q len memory
  | qconsume len => exact right_qconsume q len
  | qget => exact iff_of_true (right_qget q) trivial
  | qremove => exact iff_of_true (right_qremove q) trivial
  | qremoveback used => exact iff_of_true (right_qremoveback q used) trivial
  | qdiscard len => exact iff_of_true (right_qdiscard q len) trivial
  | qhangup _ => exact iff_of_true (right_nothing rfl) trivial
  | qreopen => exact iff_of_true (right_nothing rfl) trivial
  | qsetlimit _ => exact iff_of_true (right_nothing rfl) trivial
  | qnoblock _ => exact iff_of_true (right_nothing rfl) trivial

/-- Bytes put behind the others are accepted, and those taken from the front are given. -/
theorem stream_of_right {q q' : Queue} {op : Op} {answer : Answer} (stream : q.state.msg = false)
    (right : Right q op q' answer) :
    gives q answer ++ contents q'.blocks = contents q.blocks ++ accepts q q' answer := by
  have behind (more : List UInt8) (is : contents q'.blocks = contents q.blocks ++ more) :
      contents q'.blocks =
        contents q.blocks ++ (contents q'.blocks).drop (contents q.blocks).length := by
    rw [is, drop_left]
  cases answer with
  | wrote _ =>
    rw [Right, stream, if_neg Bool.false_ne_true] at right
    obtain ⟨k, -, -, is⟩ := right
    exact behind _ is
  | added => exact behind _ right
  | failed =>
    obtain ⟨_, is⟩ := right
    exact behind _ is
  | read _ _ =>
    obtain ⟨-, -, is⟩ := right
    rw [stream, if_neg Bool.false_ne_true] at is
    rw [is, accepts, gives, append_nil]
  | part _ =>
    obtain ⟨_, _, is, after⟩ := right
    rw [contents_eq, contents_eq, is, after, accepts, gives, append_nil,
      flatten_cons, flatten_cons, append_assoc]
  | discarded _ =>
    obtain ⟨-, -, is⟩ := right
    rw [is, accepts, gives, append_nil, take_append_drop]
  | nothing =>
    rw [Right, stream, if_neg Bool.false_ne_true] at right
    rw [right, accepts, gives, append_nil, nil_append]

/-! ### Runs -/

/-- In every run from `qopen`, the bytes given and then the bytes queued are those accepted, and
every answer is right, if and only if every operation meets its condition. -/
theorem byte_stream (limit : Int) (msg : Qstate) (ops : List Op) :
    Always carry Stream (fresh limit msg) ops ∧ Steps carry Answers (fresh limit msg) ops ↔
      Each carry Carries (fresh limit msg) ops := by
  refine @always_steps_iff_each Traffic Op carry (fun t => Ordered t.q) Stream Answers Carries
    ?_ ?_ ?_ _ _ (Tail.tailed_nil _ _) ?_
  · exact fun t op => ⟨_, rfl⟩
  · rintro t op after ordered stepped
    cases stepped
    exact ((perform_cases t.q op).1 ordered).1
  · rintro t op after ordered stream stepped
    cases stepped
    have right := right_iff ordered op
    refine ⟨fun both => right.1 both.2, fun carries => ⟨?_, right.2 carries⟩⟩
    intro noMsg
    have before : t.q.state.msg = false := (perform_cases t.q op).2.symm.trans noMsg
    show (t.given ++ gives t.q (perform t.q op).1) ++ contents (perform t.q op).2.blocks =
      t.accepted ++ accepts t.q (perform t.q op).2 (perform t.q op).1
    rw [List.append_assoc, stream_of_right before (right.2 carries), ← List.append_assoc,
      stream before]
  · exact fun _ => rfl

/-- A block with room behind its bytes: `qpass` answers with the size of its buffer. -/
theorem passed_miscounted :
    ¬∀ (limit : Int) (msg : Qstate) (ops : List Op),
      Always carry Stream (fresh limit msg) ops ∧ Steps carry Answers (fresh limit msg) ops := by
  intro all
  have right := (all 100 ⟨false, false, false, false, false, false⟩
    [.qpass ⟨8, 0, [1, 2, 3], by decide⟩ []]).2 [] _ [] _ _ rfl rfl rfl
  obtain ⟨k, atMost, count, -⟩ := right
  have least : k ≤ 3 := atMost
  have eight : (8 : Int) = k := count
  omega

end Infernode.Qio
