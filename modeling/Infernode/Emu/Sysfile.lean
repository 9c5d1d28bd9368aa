import Infernode.Program.Runs
import Mathlib.Tactic.Common

/-!
Reads, writes and seeks of an open file in `emu/port/sysfile.c`, and where its offset stands.

Owns: `rread`, `rwrite` and `kseek` with their checks and errors, the reference that moves a
position by what the calls returned, and the calls after which the two part.

Does not own: the table of descriptors, what a device does with the bytes, how a union of
directories is read, and the locks.
-/

namespace Infernode.Sysfile

open Runs BitVec

/-! ### Channels -/

/-- A `vlong`, and a `long` of a 64-bit host. -/
abbrev Vlong := BitVec 64

def OREAD : BitVec 32 := 0
def OWRITE : BitVec 32 := 1
def ORDWR : BitVec 32 := 2
def OTRUNC : BitVec 32 := 16

def CMSG : BitVec 16 := 2

def Etoosmall : String := "read or write too small"
def Enegoff : String := "negative i/o offset"
def Eisdir : String := "file is a directory"
def Eisstream : String := "seek on a stream"
def Ebadarg : String := "bad arg in system call"
def Ebadusefd : String := "inappropriate use of fd"
def Estat : String := "internal error: stat error in seek"

/-- What reads, writes and seeks look at: `isdir` is the bit `QTDIR` of the qid, `umh` whether
the channel was derived from a mount point, `dc` the character of the device. -/
structure Chan where
  mode : BitVec 16
  flag : BitVec 16
  dc : Char
  isdir : Bool
  umh : Bool
  offset : Vlong
  uri : Int
  dri : Int
deriving DecidableEq, Repr

/-- What a device answers: an error, or a number. -/
abbrev Answer := Except String Vlong

/-- The `long` that a kernel call hands back. -/
def value : Answer → Vlong
  | .ok n => n
  | .error _ => -1

/-- The part of `fdtochan` that follows the look up: may the channel be used in this mode? -/
def fdtochan (c : Chan) (mode : BitVec 32) (chkmnt : Bool) : Bool :=
  if chkmnt && c.flag &&& CMSG != 0 then false
  else if mode.slt 0 || c.mode.setWidth 32 == ORDWR then true
  else if mode &&& OTRUNC != 0 && c.mode.setWidth 32 == OREAD then false
  else mode &&& ~~~OTRUNC == c.mode.setWidth 32

def unionrewind (c : Chan) : Chan := { c with uri := 0 }

/-! ### The calls -/

def restart (c : Chan) (offp : Option Vlong) : Chan :=
  if offp.getD c.offset = 0 then
    unionrewind (if offp.isNone then { c with offset := 0, dri := 0 } else c)
  else c

/-- A read at the channel's offset when there is no `offp`. A union of directories is read by
`unionread`. -/
def rread (unionread : Chan → Vlong → Chan × Vlong) (c : Chan) (n : Vlong) (offp : Option Vlong)
    (device : Answer) : Chan × Answer :=
  if fdtochan c OREAD true = false then (c, .error Ebadusefd)
  else if n.slt 0 then (c, .error Etoosmall)
  else if c.isdir && c.umh then ((unionread c n).1, .ok (unionread c n).2)
  else if (offp.getD c.offset).slt 0 then (c, .error Enegoff)
  else
    match device with
    | .error e => (restart c offp, .error e)
    -- the offset moves whether or not the caller gave one
    | .ok n => ({ restart c offp with offset := (restart c offp).offset + n }, .ok n)

def advance (c : Chan) (offp : Option Vlong) (n : Vlong) : Chan :=
  if offp.isNone then { c with offset := c.offset + n } else c

/-- A write moves the offset by all it was asked to before the device is called, and back by
what was not written. -/
def rwrite (c : Chan) (n : Vlong) (offp : Option Vlong) (device : Answer) : Chan × Answer :=
  if fdtochan c OWRITE true = false then (c, .error Ebadusefd)
  else if c.isdir then (c, .error Eisdir)
  else if n.slt 0 then (c, .error Etoosmall)
  else if (offp.getD c.offset).slt 0 then (advance (advance c offp n) offp (-n), .error Enegoff)
  else
    match device with
    | .error e => (advance (advance c offp n) offp (-n), .error e)
    | .ok m =>
      if m.slt n then (advance (advance c offp n) offp (-(n - m)), .ok m)
      else (advance c offp n, .ok m)

/-- The offset that a seek asks for, given the length that `chandirstat` finds. -/
def seekto (c : Chan) (off : Vlong) (whence : Int) (dirstat : Option Vlong) :
    Except String Vlong :=
  if whence = 0 then
    if c.isdir then if off ≠ 0 then .error Eisdir else .ok off
    else if off.slt 0 then .error Enegoff
    else .ok off
  else if whence = 1 then
    if c.isdir then .error Eisdir
    else if (off + c.offset).slt 0 then .error Enegoff
    else .ok (off + c.offset)
  else if whence = 2 then
    if c.isdir then .error Eisdir
    else
      match dirstat with
      | none => .error Estat
      | some length => if (off + length).slt 0 then .error Enegoff else .ok (off + length)
  else .error Ebadarg

def kseek (c : Chan) (off : Vlong) (whence : Int) (dirstat : Option Vlong) : Chan × Answer :=
  if fdtochan c (-1) true = false then (c, .error Ebadusefd)
  else if c.dc = '|' then (c, .error Eisstream)
  else
    match seekto c off whence dirstat with
    | .error e => (c, .error e)
    | .ok off =>
      ({ (if whence = 0 && c.isdir then unionrewind c else c) with offset := off, dri := 0 },
        .ok off)

/-- A call, with what the device answers if the call gets as far. -/
inductive Call where
  | kread (n : Vlong) (device : Answer)
  | kpread (n off : Vlong) (device : Answer)
  | kwrite (n : Vlong) (device : Answer)
  | kpwrite (n off : Vlong) (device : Answer)
  | kseek (off : Vlong) (whence : Int) (dirstat : Option Vlong)

def perform (unionread : Chan → Vlong → Chan × Vlong) (c : Chan) : Call → Chan × Answer
  | .kread n device => rread unionread c n none device
  | .kpread n off device => rread unionread c n (some off) device
  | .kwrite n device => rwrite c n none device
  | .kpwrite n off device => rwrite c n (some off) device
  | .kseek off whence dirstat => kseek c off whence dirstat

/-! ### The reference -/

def target (position off : Vlong) (whence : Int) (dirstat : Option Vlong) : Vlong :=
  if whence = 0 then off
  else if whence = 1 then position + off
  else dirstat.getD 0 + off

def moved (position : Vlong) (call : Call) (returned : Vlong) : Vlong :=
  if returned.slt 0 then position
  else
    match call with
    | .kread _ _ | .kwrite _ _ => position + returned
    | .kpread _ _ _ | .kpwrite _ _ _ => position
    | .kseek off whence dirstat => target position off whence dirstat

/-- A file and the reference's position, each after one more call. -/
def step (unionread : Chan → Vlong → Chan × Vlong) (s : Chan × Vlong) (call : Call) :
    Option (Chan × Vlong) :=
  some ((perform unionread s.1 call).1, moved s.2 call (value (perform unionread s.1 call).2))

def Lawful (s : Chan × Vlong) : Prop := s.1.offset = s.2

/-! ### The calls that keep the law -/

/-- A read with these arguments gets as far as the device. -/
def readable (c : Chan) (n off : Vlong) : Bool :=
  fdtochan c OREAD true && !n.slt 0 && !off.slt 0

/-- A write with these arguments gets as far as the device. -/
def writable (c : Chan) (n off : Vlong) : Bool :=
  fdtochan c OWRITE true && !n.slt 0 && !off.slt 0

/-- No read at a given offset transfers anything, no read or write at the file's own offset is
answered with a negative number, and no such write with more than it was given. -/
def Plain (c : Chan) : Call → Prop
  | .kread n device =>
    readable c n c.offset = true → ∀ m, device = .ok m → m.slt 0 = false
  | .kpread n off device => readable c n off = true → ∀ m, device = .ok m → m = 0
  | .kwrite n device =>
    writable c n c.offset = true → ∀ m, device = .ok m → m.slt 0 = false ∧ n.slt m = false
  | .kpwrite _ _ _ => True
  | .kseek _ _ _ => True

/-! ### What a call does to the offset -/

theorem moved_of_neg {position returned : Vlong} (call : Call) (negative : returned.slt 0 = true) :
    moved position call returned = position := if_pos negative

theorem moved_error (position : Vlong) (call : Call) (e : String) :
    moved position call (value (.error e)) = position := moved_of_neg call (by decide : (-1 : Vlong).slt 0 = true)

theorem ne_zero_of_slt {m : Vlong} (negative : m.slt 0 = true) : m ≠ 0 := by
  rintro rfl
  exact absurd negative (by decide)

theorem add_eq_self {position m : Vlong} : position + m = position ↔ m = 0 := by
  constructor
  · intro same
    exact (BitVec.add_right_inj position).1 (same.trans (BitVec.add_zero position).symm)
  · rintro rfl
    exact BitVec.add_zero position

theorem restart_isdir (c : Chan) (offp : Option Vlong) : (restart c offp).isdir = c.isdir := by
  unfold restart
  split
  · split <;> rfl
  · rfl

/-- The offset that a read sets to zero is zero already. -/
theorem restart_offset (c : Chan) (offp : Option Vlong) :
    (restart c offp).offset = c.offset := by
  unfold restart
  split
  · cases offp with
    | none =>
      rename_i zero
      exact zero.symm
    | some off => rfl
  · rfl

theorem advance_isdir (c : Chan) (offp : Option Vlong) (n : Vlong) :
    (advance c offp n).isdir = c.isdir := by
  unfold advance
  split <;> rfl

variable {unionread : Chan → Vlong → Chan × Vlong} {c : Chan}

theorem rread_file (n : Vlong) (offp : Option Vlong) (device : Answer) (file : c.isdir = false) :
    (readable c n (offp.getD c.offset) = false ∧
      ∃ e, rread unionread c n offp device = (c, .error e)) ∨
    (readable c n (offp.getD c.offset) = true ∧
      rread unionread c n offp device =
        match device with
        | .error e => (restart c offp, .error e)
        | .ok n => ({ restart c offp with offset := (restart c offp).offset + n }, .ok n)) := by
  unfold rread readable
  rw [file, Bool.false_and, if_neg Bool.false_ne_true]
  cases fdtochan c OREAD true with
  | false => exact .inl ⟨rfl, _, rfl⟩
  | true =>
    cases n.slt 0 with
    | true => exact .inl ⟨rfl, _, rfl⟩
    | false =>
      cases (offp.getD c.offset).slt 0 with
      | true => exact .inl ⟨rfl, _, rfl⟩
      | false => exact .inr ⟨rfl, rfl⟩

theorem advance_back (offp : Option Vlong) (n : Vlong) :
    (advance (advance c offp n) offp (-n)).offset = c.offset := by
  cases offp with
  | some _ => rfl
  | none =>
    show c.offset + n + -n = c.offset
    rw [BitVec.add_assoc, add_right_neg, BitVec.add_zero]

theorem rwrite_file (n : Vlong) (offp : Option Vlong) (device : Answer) (file : c.isdir = false) :
    (writable c n (offp.getD c.offset) = false ∧
      ∃ d e, d.offset = c.offset ∧ rwrite c n offp device = (d, .error e)) ∨
    (writable c n (offp.getD c.offset) = true ∧
      rwrite c n offp device =
        match device with
        | .error e => (advance (advance c offp n) offp (-n), .error e)
        | .ok m =>
          if m.slt n then (advance (advance c offp n) offp (-(n - m)), .ok m)
          else (advance c offp n, .ok m)) := by
  unfold rwrite writable
  rw [file, if_neg Bool.false_ne_true]
  cases fdtochan c OWRITE true with
  | false => exact .inl ⟨rfl, _, _, rfl, rfl⟩
  | true =>
    cases n.slt 0 with
    | true => exact .inl ⟨rfl, _, _, rfl, rfl⟩
    | false =>
      cases (offp.getD c.offset).slt 0 with
      | true => exact .inl ⟨rfl, _, _, advance_back offp n, rfl⟩
      | false => exact .inr ⟨rfl, rfl⟩

/-! ### One call -/

theorem read_exact (n : Vlong) (device : Answer) (file : c.isdir = false) :
    (rread unionread c n none device).1.offset =
        moved c.offset (.kread n device) (value (rread unionread c n none device).2) ↔
      Plain c (.kread n device) := by
  rcases @rread_file unionread c n none device file with
    ⟨refused, e, is⟩ | ⟨reached, is⟩
  · rw [is, moved_error]
    exact iff_of_true rfl fun reached => absurd (refused.symm.trans reached) Bool.false_ne_true
  rw [is]
  cases device with
  | error _ =>
    rw [moved_error]
    exact iff_of_true (restart_offset c none) (fun _ m given => by cases given)
  | ok m =>
    show (restart c none).offset + m = moved c.offset (.kread n (.ok m)) m ↔ _
    rw [restart_offset]
    cases negative : m.slt 0 with
    | true =>
      rw [moved_of_neg _ negative, add_eq_self]
      refine iff_of_false (ne_zero_of_slt negative) fun plain => ?_
      exact absurd ((plain reached m rfl).symm.trans negative) Bool.false_ne_true
    | false =>
      refine iff_of_true ?_ fun _ given is => ?_
      · rw [moved, negative]
        rfl
      · cases is
        exact negative

theorem pread_exact (n off : Vlong) (device : Answer) (file : c.isdir = false) :
    (rread unionread c n (some off) device).1.offset =
        moved c.offset (.kpread n off device)
          (value (rread unionread c n (some off) device).2) ↔
      Plain c (.kpread n off device) := by
  have stays (returned : Vlong) : moved c.offset (.kpread n off device) returned = c.offset := by
    unfold moved
    split <;> rfl
  rw [stays]
  rcases @rread_file unionread c n (some off) device file with
    ⟨refused, e, is⟩ | ⟨reached, is⟩
  · rw [is]
    exact iff_of_true rfl fun reached => absurd (refused.symm.trans reached) Bool.false_ne_true
  rw [is]
  cases device with
  | error _ => exact iff_of_true (restart_offset c (some off)) (fun _ m given => by cases given)
  | ok m =>
    show (restart c (some off)).offset + m = c.offset ↔ _
    rw [restart_offset, add_eq_self]
    constructor
    · intro zero _ _ given
      cases given
      exact zero
    · intro plain
      exact plain reached m rfl

/-- A write that moves the offset as far as it was asked, and back, leaves what was written. -/
theorem forth_back (position n m : Vlong) : position + n + -(n - m) = position + m := by
  rw [BitVec.add_assoc]
  congr 1
  rw [BitVec.neg_sub]
  grind

theorem slt_asymm {m n : Vlong} (less : m.slt n = true) : n.slt m = false := by
  rw [slt_eq_decide, decide_eq_true_iff] at less
  rw [slt_eq_decide, decide_eq_false_iff_not]
  exact Int.not_lt.2 (Int.le_of_lt less)

theorem slt_antisymm {m n : Vlong} (left : m.slt n = false) (right : n.slt m = false) :
    m = n := by
  rw [slt_eq_decide, decide_eq_false_iff_not] at left right
  exact eq_of_toInt_eq (Int.le_antisymm (Int.not_lt.1 right) (Int.not_lt.1 left))

theorem write_exact (n : Vlong) (device : Answer) (file : c.isdir = false) :
    (rwrite c n none device).1.offset =
        moved c.offset (.kwrite n device) (value (rwrite c n none device).2) ↔
      Plain c (.kwrite n device) := by
  rcases rwrite_file n none device file with ⟨refused, d, e, same, is⟩ | ⟨reached, is⟩
  · rw [is, moved_error]
    exact iff_of_true same fun reached => absurd (refused.symm.trans reached) Bool.false_ne_true
  rw [is]
  cases device with
  | error _ =>
    rw [moved_error]
    exact iff_of_true (advance_back none n) (fun _ m given => by cases given)
  | ok m =>
    have plain_iff : Plain c (.kwrite n (.ok m)) ↔ m.slt 0 = false ∧ n.slt m = false :=
      ⟨fun plain => plain reached m rfl, fun bounds _ m' given => by cases given; exact bounds⟩
    rw [plain_iff]
    have long : n.slt 0 = false := by
      rw [writable, Bool.and_eq_true, Bool.and_eq_true, Bool.not_eq_true'] at reached
      exact reached.1.2
    dsimp only
    cases short : m.slt n with
    | true =>
      rw [if_pos rfl]
      show c.offset + n + -(n - m) = moved c.offset _ m ↔ _
      rw [forth_back, slt_asymm short]
      cases negative : m.slt 0 with
      | true =>
        rw [moved_of_neg _ negative, add_eq_self]
        exact iff_of_false (ne_zero_of_slt negative) fun bounds => nomatch bounds.1
      | false =>
        rw [moved, negative]
        exact iff_of_true rfl ⟨rfl, rfl⟩
    | false =>
      rw [if_neg Bool.false_ne_true]
      show c.offset + n = moved c.offset _ m ↔ _
      have nonneg : m.slt 0 = false := by
        rw [slt_eq_decide, decide_eq_false_iff_not] at short long ⊢
        omega
      rw [moved, nonneg]
      show c.offset + n = c.offset + m ↔ _
      rw [BitVec.add_right_inj]
      constructor
      · rintro rfl
        exact ⟨rfl, short⟩
      · intro bounds
        exact slt_antisymm bounds.2 short

theorem pwrite_lawful (n off : Vlong) (device : Answer) (file : c.isdir = false) :
    (rwrite c n (some off) device).1.offset =
      moved c.offset (.kpwrite n off device) (value (rwrite c n (some off) device).2) := by
  have stays (returned : Vlong) : moved c.offset (.kpwrite n off device) returned = c.offset := by
    unfold moved
    split <;> rfl
  rw [stays]
  rcases rwrite_file n (some off) device file with ⟨refused, d, e, same, is⟩ | ⟨reached, is⟩
  · rw [is]
    exact same
  rw [is]
  cases device with
  | error _ => rfl
  | ok _ =>
    dsimp only
    split <;> rfl

theorem ok_of_nonneg {off at' : Vlong} {e : String}
    (is : (if off.slt 0 then Except.error e else .ok off) = .ok at') :
    at' = off ∧ at'.slt 0 = false := by
  split at is
  · cases is
  · rename_i nonneg
    cases is
    exact ⟨rfl, Bool.not_eq_true _ |>.mp nonneg⟩

theorem seekto_target {off at' : Vlong} {whence : Int} {dirstat : Option Vlong}
    (file : c.isdir = false) (is : seekto c off whence dirstat = .ok at') :
    at' = target c.offset off whence dirstat ∧ at'.slt 0 = false := by
  unfold seekto at is
  unfold target
  simp only [file, Bool.false_eq_true, if_false] at is
  by_cases start : whence = 0
  · rw [if_pos start] at is ⊢
    exact ok_of_nonneg is
  rw [if_neg start] at is ⊢
  by_cases here : whence = 1
  · rw [if_pos here] at is ⊢
    rw [BitVec.add_comm]
    exact ok_of_nonneg is
  rw [if_neg here] at is ⊢
  by_cases ending : whence = 2
  · rw [if_pos ending] at is
    cases dirstat with
    | none => cases is
    | some _ =>
      rw [Option.getD_some, BitVec.add_comm]
      exact ok_of_nonneg is
  · rw [if_neg ending] at is
    cases is

theorem seek_lawful (off : Vlong) (whence : Int) (dirstat : Option Vlong)
    (file : c.isdir = false) :
    (kseek c off whence dirstat).1.offset =
      moved c.offset (.kseek off whence dirstat) (value (kseek c off whence dirstat).2) := by
  unfold kseek
  split
  · exact (moved_error _ _ _).symm
  split
  · exact (moved_error _ _ _).symm
  rcases asked : seekto c off whence dirstat with e | at'
  · exact (moved_error _ _ _).symm
  have ⟨is, nonneg⟩ := seekto_target file asked
  show at' = moved c.offset _ at'
  rw [moved, nonneg]
  exact is

/-! ### Any sequence of calls -/

theorem perform_exact (call : Call) (file : c.isdir = false) :
    (perform unionread c call).1.offset =
        moved c.offset call (value (perform unionread c call).2) ↔ Plain c call := by
  cases call with
  | kread n device => exact read_exact n device file
  | kpread n off device => exact pread_exact n off device file
  | kwrite n device => exact write_exact n device file
  | kpwrite n off device => exact iff_of_true (pwrite_lawful n off device file) trivial
  | kseek off whence dirstat => exact iff_of_true (seek_lawful off whence dirstat file) trivial

theorem rread_isdir (n : Vlong) (offp : Option Vlong) (device : Answer) (file : c.isdir = false) :
    (rread unionread c n offp device).1.isdir = false := by
  rcases @rread_file unionread c n offp device file with ⟨-, e, is⟩ | ⟨-, is⟩
  · rw [is]
    exact file
  · rw [is]
    cases device <;> exact (restart_isdir c offp).trans file

theorem rwrite_isdir (n : Vlong) (offp : Option Vlong) (device : Answer) :
    (rwrite c n offp device).1.isdir = c.isdir := by
  unfold rwrite
  repeat' split
  all_goals simp only [advance_isdir]

theorem kseek_isdir (off : Vlong) (whence : Int) (dirstat : Option Vlong) :
    (kseek c off whence dirstat).1.isdir = c.isdir := by
  unfold kseek
  repeat' split
  all_goals rfl

theorem perform_isdir (call : Call) (file : c.isdir = false) :
    (perform unionread c call).1.isdir = false := by
  cases call with
  | kread n device => exact rread_isdir n none device file
  | kpread n off device => exact rread_isdir n (some off) device file
  | kwrite n device => exact (rwrite_isdir n none device).trans file
  | kpwrite n off device => exact (rwrite_isdir n (some off) device).trans file
  | kseek off whence dirstat => exact (kseek_isdir off whence dirstat).trans file

/-- After every call of a sequence on a file the offset is the reference's, exactly when every
call of it is plain. -/
theorem offset_law (unionread : Chan → Vlong → Chan × Vlong) (c : Chan) (calls : List Call)
    (file : c.isdir = false) :
    Always (step unionread) Lawful (c, c.offset) calls ↔
      Each (step unionread) (fun s call => Plain s.1 call) (c, c.offset) calls := by
  have total (s : Chan × Vlong) (call : Call) : ∃ after, step unionread s call = some after :=
    ⟨_, rfl⟩
  have framed (s : Chan × Vlong) (call : Call) (after : Chan × Vlong) (held : s.1.isdir = false)
      (stepped : step unionread s call = some after) : after.1.isdir = false := by
    cases stepped
    exact perform_isdir call held
  have exact (s : Chan × Vlong) (call : Call) (after : Chan × Vlong) (held : s.1.isdir = false)
      (lawful : Lawful s) (stepped : step unionread s call = some after) :
      Lawful after ↔ Plain s.1 call := by
    have ⟨d, position⟩ := s
    cases stepped
    have same : d.offset = position := lawful
    subst same
    exact perform_exact call held
  have initial : Lawful (c, c.offset) := rfl
  exact always_iff_each total framed exact file initial

/-- A short read, a short write, a write at an offset, a seek and a read that fails. -/
theorem offset_law_holds :
    Always (step fun c n => (c, n)) Lawful (⟨2, 0, 'M', false, false, 7, 0, 0⟩, 7)
      [.kread 5 (.ok 3), .kwrite 4 (.ok 1), .kpwrite 9 0 (.ok 9), .kseek 2 1 none,
        .kread 5 (.error Ebadarg)] := by
  apply (offset_law (fun c n => (c, n)) ⟨2, 0, 'M', false, false, 7, 0, 0⟩ _ rfl).2
  refine Each.cons ?_ rfl (Each.cons ?_ rfl (Each.cons trivial rfl
    (Each.cons trivial rfl (Each.cons ?_ rfl (each_nil _)))))
  · intro _ m given
    cases given
    decide
  · intro _ m given
    cases given
    decide
  · intro _ _ given
    cases given

/-- A read of three bytes at offset seven moves a file that stood at zero. -/
theorem kpread_moves :
    ¬ Always (step fun c n => (c, n)) Lawful (⟨0, 0, 'M', false, false, 0, 0, 0⟩, 0)
      [.kpread 3 7 (.ok 3)] := by
  intro always
  have after : (3 : Vlong) = 0 := always [.kpread 3 7 (.ok 3)] [] _ rfl rfl
  exact absurd after (by decide)

end Infernode.Sysfile
