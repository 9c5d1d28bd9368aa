import Infernode.Net.Octal

/-!
The text that `eipfmt` of `emu/port/ipaux.c` prints for an address, and the memory that `parseip`
of that file writes.

Owns: `%I`; `parseip` and `v4parseip` over the sixteen bytes of their result and the text up to its
NUL, where an access outside has no result; when there is a result, and what it then is; and that
an address is parsed from its text.
-/

namespace Infernode.Ipmemory

open Text Inet Option
open Ipaux (strtoul strtoulBase digitOf valueOf ULONG_MAX v4bytes v4tov6 nhgetl)
open List

/-! ### Memory -/

/-- `p++`. There is nothing to read behind the NUL of a text. -/
def advance : Str → Option Str
  | [] => none
  | _ :: rest => some rest

/-- `to[i] = v` -/
def store (mem : List Nat) (i v : Nat) : Option (List Nat) :=
  if i < mem.length then some (mem.set i v) else none

/-- `to[i] = to[j]` -/
def copy (mem : List Nat) (i j : Nat) : Option (List Nat) := mem[j]?.bind (store mem i)

/-- `memmove(&to[i], &to[j], n)` -/
def memmove (mem : List Nat) (i j : Nat) (n : Int) : Option (List Nat) :=
  if 0 ≤ n ∧ i + n ≤ mem.length ∧ j + n ≤ mem.length then
    some (mem.take i ++ (mem.drop j).take n.toNat ++ mem.drop (i + n.toNat))
  else none

/-- `memset(&to[i], 0, n)` -/
def memset (mem : List Nat) (i n : Nat) : Option (List Nat) :=
  if i + n ≤ mem.length then some (mem.take i ++ List.replicate n 0 ++ mem.drop (i + n)) else none

/-! ### The parser -/

/-- The loop of `v4parseip`, for at most so many bytes, of which the first is at `i`. -/
def v4loop : Nat → List Nat → Nat → Str → Option (List Nat × Nat × Str)
  | 0, mem, i, p => some (mem, i, p)
  | _ + 1, mem, i, [] => some (mem, i, [])
  | n + 1, mem, i, c :: rest =>
    let (value, p) := strtoul (c :: rest) 0
    (store mem i (value % 256)).bind fun mem =>
      (if p.head? = some dot then advance p else some p).bind (v4loop n mem (i + 1))

/-- The switch on the class of the network, after `i` bytes. -/
def v4class (mem : List Nat) (base i : Nat) : Option (List Nat) :=
  mem[base]?.bind fun a =>
    if a / 64 < 2 then
      if i = 3 then
        ((copy mem (base + 3) (base + 2)).bind fun mem => copy mem (base + 2) (base + 1)).bind fun mem =>
          store mem (base + 1) 0
      else if i = 2 then (copy mem (base + 3) (base + 1)).bind fun mem => store mem (base + 1) 0
      else some mem
    else if a / 64 = 2 ∧ i = 3 then
      (copy mem (base + 3) (base + 2)).bind fun mem => store mem (base + 2) 0
    else some mem

def v4parseip (mem : List Nat) (base : Nat) (p : Str) : Option (List Nat) :=
  (v4loop 4 mem base p).bind fun (mem, i, _) => v4class mem base (i - base)

structure Parse where
  mem : List Nat
  i : Nat
  elipsis : Nat
  v4 : Bool

/-- The loop of `parseip`, for at most so many groups. -/
def groups : Nat → Parse → Str → Option Parse
  | 0, s, _ => some s
  | _ + 1, s, [] => some s
  | n + 1, s, c :: rest =>
    let (x, p) := strtoul (c :: rest) 16
    if p.head? = some dot ∨ (p = [] ∧ s.i = 0) then
      (v4parseip s.mem s.i (c :: rest)).map fun mem => { s with mem, i := s.i + 4 }
    else
      ((store s.mem s.i (x / 256 % 256)).bind fun mem => store mem (s.i + 1) (x % 256)).bind fun mem =>
        if p.head? = some colon then
          (advance p).bind fun p =>
            if p.head? = some colon then
              (advance p).bind (groups n ⟨mem, s.i + 2, s.i + 2, false⟩)
            else groups n ⟨mem, s.i + 2, s.elipsis, false⟩ p
        else groups n ⟨mem, s.i + 2, s.elipsis, s.v4⟩ p

def parseip (p : Str) : Option (List Nat × Nat) :=
  (groups 8 ⟨List.replicate 16 0, 0, 0, true⟩ p).bind fun s =>
    (if s.i < 16 then
      (memmove s.mem (s.elipsis + 16 - s.i) s.elipsis ((s.i : Int) - s.elipsis)).bind fun mem =>
        memset mem s.elipsis (16 - s.i)
    else some s.mem).bind fun mem =>
      if s.v4 then
        ((store mem 11 0xff).bind fun mem => store mem 10 0xff).map fun mem =>
          (mem, nhgetl (mem.drop 12))
      else some (mem, 6)

/-! ### The printer -/

def uxdigit (d : Nat) : Nat := if d < 10 then 48 + d else 87 + d

/-- `%ux` -/
def ux (x : Nat) : Str :=
  if x < 16 then [uxdigit x] else ux (x / 16) ++ [uxdigit (x % 16)]

/-- The bytes of an address, two by two. -/
def pairs : List Nat → List (Nat × Nat)
  | a :: b :: rest => (a, b) :: pairs rest
  | _ => []

/-- How many pairs are zero before one that is not. -/
def zeros (ps : List (Nat × Nat)) : Nat := (ps.takeWhile (· = (0, 0))).length

/-- `eli` and `eln`, in pairs, from the pair `i` on. -/
def longest : Nat → Option (Nat × Nat) → List (Nat × Nat) → Option (Nat × Nat)
  | _, best, [] => best
  | i, best, p :: ps =>
    let n := zeros (p :: ps)
    longest (i + 1) (if 0 < n ∧ best.all (·.2 < n) then some (i, n) else best) ps

/-- `s = (p[i]<<8) + p[i+1]`, printed. -/
def word (p : Nat × Nat) : Str := ux (p.1 * 256 + p.2)

/-- The second loop, from the pair `i` on. -/
def print (best : Option (Nat × Nat)) (i : Nat) : List (Nat × Nat) → Str
  | [] => []
  | p :: ps =>
    match best.filter (·.1 = i) with
    | none => (if i = 0 then [] else [colon]) ++ word p ++ print best (i + 1) ps
    | some (_, n) =>
      match _left : (p :: ps).drop n with
      | [] => [colon, colon]
      | q :: qs => [colon, colon] ++ word q ++ print best (i + n + 1) qs
  termination_by ps => ps.length
  decreasing_by
    · exact Nat.lt_succ_self _
    · have length := congrArg List.length _left
      simp only [length_drop, length_cons] at length ⊢
      omega

def v4prefix : List Nat := [0, 0, 0, 0, 0, 0, 0, 0, 0, 0, 0xff, 0xff]

def eipfmt (p : List Nat) : Str :=
  if p.take 12 = v4prefix then [dot].intercalate ((p.drop 12).map fun b : Nat => decimal b)
  else print (longest 0 none (pairs p)) 0 (pairs p)

/-! ### The memory that is written -/

theorem store_behind (done rest : List Nat) (j v : Nat) :
    store (done ++ rest) (done.length + j) v = (store rest j v).map (done ++ ·) := by
  unfold store
  simp only [length_append, Nat.add_lt_add_iff_left,
    set_append_right _ _ (Nat.le_add_right ..), Nat.add_sub_cancel_left]
  split
  · rfl
  · rfl

theorem v4loop_eq (n : Nat) : ∀ (done : List Nat) (m : Nat) (p : Str),
    v4loop n (done ++ List.replicate m 0) done.length p =
      if (v4bytes n p).1.length ≤ m then
        some (done ++ ((v4bytes n p).1 ++ List.replicate (m - (v4bytes n p).1.length) 0),
          done.length + (v4bytes n p).1.length, (v4bytes n p).2)
      else none := by
  induction n with
  | zero => exact fun done m p => (if_pos (Nat.zero_le m)).symm
  | succ _ ih =>
    intro done m p
    cases p with
    | nil => exact (if_pos (Nat.zero_le m)).symm
    | cons c rest =>
      have first := store_behind done (List.replicate m 0) 0 ((strtoul (c :: rest) 0).1 % 256)
      rw [Nat.add_zero] at first
      have ⟨q, advanced, same⟩ : ∃ q, (if (strtoul (c :: rest) 0).2.head? = some dot
          then advance (strtoul (c :: rest) 0).2 else some (strtoul (c :: rest) 0).2) = some q ∧
          (if (strtoul (c :: rest) 0).2.head? = some dot then (strtoul (c :: rest) 0).2.tail
            else (strtoul (c :: rest) 0).2) = q := by
        refine ⟨_, ?_, rfl⟩
        cases (strtoul (c :: rest) 0).2 with
        | nil => rfl
        | cons _ _ =>
          split
          · rfl
          · rfl
      rw [v4loop, v4bytes]
      simp only [first, advanced, same, bind_some]
      cases m with
      | zero => rfl
      | succ m =>
        have later := ih (done ++ [(strtoul (c :: rest) 0).1 % 256]) m q
        rw [length_append, append_assoc, append_assoc] at later
        simp only [replicate_succ, store, length_cons, Nat.zero_lt_succ, if_true,
          set_cons_zero, map_some, bind_some, Nat.add_le_add_iff_right,
          Nat.add_sub_add_right, cons_append]
        refine later.trans ?_
        split
        · simp [Nat.add_assoc, Nat.add_comm 1]
        · rfl

variable {p : Str} {n : Nat}

theorem v4bytes_cons (some' : p ≠ []) :
    ∃ a more, (v4bytes 4 p).1 = a :: more ∧ more.length ≤ 3 := by
  have atMost (n : Nat) : ∀ p, (v4bytes n p).1.length ≤ n := by
    induction n with
    | zero => exact fun p => Nat.le_refl 0
    | succ _ ih =>
      intro p
      cases p with
      | nil => exact Nat.zero_le _
      | cons _ _ => exact Nat.succ_le_succ (ih _)
  cases p with
  | nil => exact absurd rfl some'
  | cons _ _ => exact ⟨_, _, rfl, atMost 3 _⟩

/-- An IPv4 part starts here. -/
def Dotted (p : Str) : Prop := (strtoul p 16).2.head? = some dot

/-- The IPv4 part takes more than two bytes: it has three numbers, or two in a network of class A. -/
def Long (p : Str) : Prop :=
  match (v4bytes 4 p).1 with
  | [] | [_] => False
  | [a, _] => a / 64 < 2
  | _ => True

/-- In the last two bytes there is room for no long part. -/
theorem v4parseip_two (some' : p ≠ []) (done : List Nat) :
    (Long p → v4parseip (done ++ [0, 0]) done.length p = none) ∧
      (¬Long p → v4parseip (done ++ [0, 0]) done.length p =
        some (done ++ (Ipaux.v4parseip p).1.take 2)) := by
  have loop := v4loop_eq 4 done 2 p
  have ⟨a, more, read, _⟩ := v4bytes_cons some'
  unfold v4parseip Long Ipaux.v4parseip
  rw [show done ++ [0, 0] = done ++ List.replicate 2 0 from rfl, loop]
  generalize v4bytes 4 p = bytes at read ⊢
  have ⟨_, _⟩ := bytes
  dsimp only at read ⊢
  subst read
  match more with
  | [] =>
    refine ⟨False.elim, fun _ => ?_⟩
    simp [v4class]
  | [b] =>
    constructor
    · intro (classA : a / 64 < 2)
      simp [v4class, classA, Nat.le_of_lt_succ classA, copy, store]
    · intro (other : ¬a / 64 < 2)
      simp [v4class, other, Nat.not_le.2 (Nat.not_lt.1 other)]
  | b :: c :: more =>
    refine ⟨fun _ => ?_, fun short => absurd trivial (by cases more <;> exact short)⟩
    rw [if_neg (by simp)]
    rfl

theorem v4parseip_four (some' : p ≠ []) (done : List Nat) (m : Nat) :
    v4parseip (done ++ List.replicate (m + 4) 0) done.length p =
      some (done ++ ((Ipaux.v4parseip p).1 ++ List.replicate m 0)) := by
  have loop := v4loop_eq 4 done (m + 4) p
  have ⟨_, more, read, atMost⟩ := v4bytes_cons some'
  unfold v4parseip Ipaux.v4parseip
  rw [loop]
  generalize v4bytes 4 p = bytes at read ⊢
  have ⟨_, _⟩ := bytes
  dsimp only at read ⊢
  subst read
  match more, atMost with
  | [], _ => simp [v4class, replicate_succ]
  | [b], _ =>
    simp [v4class, copy, store, replicate_succ]
    split_ifs <;> simp
  | [b, c], _ =>
    simp [v4class, copy, store, replicate_succ]
    split_ifs <;> simp
  | [b, c, d], _ => simp [v4class]

theorem length_v4parseip (some' : p ≠ []) : (Ipaux.v4parseip p).1.length = 4 := by
  have ⟨_, more, read, atMost⟩ := v4bytes_cons some'
  unfold Ipaux.v4parseip
  generalize v4bytes 4 p = bytes at read ⊢
  have ⟨_, _⟩ := bytes
  dsimp only at read ⊢
  subst read
  match more, atMost with
  | [], _ => rfl
  | [b], _ =>
    dsimp only
    split <;> rfl
  | [b, c], _ =>
    dsimp only
    split_ifs <;> rfl
  | [b, c, d], _ => rfl

def behind (p : Str) : Str :=
  let q := (strtoul p 16).2
  if q.head? = some colon then if q.tail.head? = some colon then q.tail.tail else q.tail else q

/-- Of at most so many groups, the last is an IPv4 part of more than two bytes. -/
def Overruns : Nat → Str → Prop
  | 0, _ => False
  | 1, p => Dotted p ∧ Long p
  | n + 2, p => ¬Dotted p ∧ Overruns (n + 1) (behind p)

theorem overruns_nil (n : Nat) : ¬Overruns n [] := by
  induction n using Nat.twoStepInduction with
  | zero => exact id
  | one => exact fun both => nomatch both.1
  | more _ _ ih => exact fun both => ih both.2

theorem overruns_succ (notDotted : ¬Dotted p) : Overruns (n + 1) p ↔ Overruns n (behind p) := by
  cases n with
  | zero => exact ⟨fun both => notDotted both.1, False.elim⟩
  | succ _ => exact ⟨And.right, fun later => ⟨notDotted, later⟩⟩

/-- What a group that is no IPv4 part makes of the address. -/
def grouped (s : Ipaux.Parse) (p : Str) : Ipaux.Parse :=
  let (x, q) := strtoul p 16
  let written := s.to ++ [x / 256 % 256, x % 256]
  if q.head? = some colon then
    ⟨written, if q.tail.head? = some colon then written.length else s.elipsis, false⟩
  else ⟨written, s.elipsis, s.v4⟩

theorem parsegroups_grouped {s : Ipaux.Parse} (notDotted : ¬Dotted p)
    (notEnd : ¬((strtoul p 16).2 = [] ∧ s.to = [])) (some' : p ≠ []) :
    Ipaux.parsegroups (n + 1) s p = Ipaux.parsegroups n (grouped s p) (behind p) := by
  unfold Dotted at notDotted
  cases p with
  | nil => exact absurd rfl some'
  | cons _ _ =>
    unfold grouped behind
    rw [Ipaux.parsegroups]
    simp only [if_neg (not_or.2 ⟨notDotted, notEnd⟩)]
    split_ifs <;> rfl

/-- The memory when so much of the address is written. -/
def stored (s : Ipaux.Parse) : Parse :=
  ⟨(s.to ++ List.replicate (16 - s.to.length) 0).take 16, s.to.length, s.elipsis, s.v4⟩

theorem stored_mem {s : Ipaux.Parse} {n : Nat} (room : s.to.length + n = 16) :
    (stored s).mem = s.to ++ List.replicate n 0 := by
  have left : 16 - s.to.length = n := by omega
  unfold stored
  rw [left]
  exact take_of_length_le (by rw [length_append, length_replicate, room])

theorem groups_grouped {s : Ipaux.Parse} (notDotted : ¬Dotted p)
    (notEnd : ¬((strtoul p 16).2 = [] ∧ s.to = [])) (some' : p ≠ [])
    (room : s.to.length + 2 * (n + 1) = 16) :
    groups (n + 1) (stored s) p = groups n (stored (grouped s p)) (behind p) := by
  have mem := stored_mem room
  have notEnd' : ¬((strtoul p 16).2 = [] ∧ (stored s).i = 0) := fun both =>
    notEnd ⟨both.1, length_eq_zero_iff.1 both.2⟩
  have twice (x : Nat) : ((store (stored s).mem (stored s).i (x / 256 % 256)).bind fun mem =>
      store mem ((stored s).i + 1) (x % 256)) =
      some (s.to ++ [x / 256 % 256, x % 256] ++ List.replicate (2 * n) 0) := by
    rw [mem, show 2 * (n + 1) = 2 * n + 1 + 1 from rfl]
    simp [store, stored, replicate_succ]
  unfold Dotted at notDotted
  cases p with
  | nil => exact absurd rfl some'
  | cons c rest =>
    have later (x e : Nat) (v4 : Bool) :
        (⟨s.to ++ [x / 256 % 256, x % 256] ++ List.replicate (2 * n) 0, (stored s).i + 2, e, v4⟩ :
          Parse) = stored ⟨s.to ++ [x / 256 % 256, x % 256], e, v4⟩ := by
      have room' : (s.to ++ [x / 256 % 256, x % 256]).length + 2 * n = 16 := by
        rw [length_append, length_cons, length_singleton]
        omega
      have mem' := @stored_mem ⟨s.to ++ [x / 256 % 256, x % 256], e, v4⟩ _ room'
      rw [← mem']
      simp [stored]
    unfold grouped behind
    rw [groups]
    simp only [if_neg (not_or.2 ⟨notDotted, notEnd'⟩), twice, bind_some]
    generalize (strtoul (c :: rest) 16).1 = x, (strtoul (c :: rest) 16).2 = q
    cases q with
    | nil => exact congrArg (groups n · []) (later ..)
    | cons d q =>
      by_cases single : (d :: q).head? = some colon
      · simp only [if_pos single, advance, bind_some, tail_cons]
        cases q with
        | nil => exact congrArg (groups n · []) (later ..)
        | cons e q =>
          by_cases double : (e :: q).head? = some colon
          · simp only [double, if_true, bind_some, tail_cons]
            refine congrArg (groups n · q) ((later ..).trans ?_)
            simp [stored]
          · simp only [double, if_false]
            exact congrArg (groups n · (e :: q)) (later ..)
      · simp only [if_neg single]
        exact congrArg (groups n · (d :: q)) (later ..)

/-- The loop has a result where it does not overrun, and leaves what it should in memory. -/
theorem groups_eq (n : Nat) : ∀ (s : Ipaux.Parse) (p : Str), s.to.length + 2 * n = 16 →
    s.elipsis ≤ s.to.length →
    (Overruns n p → groups n (stored s) p = none) ∧
      (¬Overruns n p → groups n (stored s) p = some (stored (Ipaux.parsegroups n s p)) ∧
        (Ipaux.parsegroups n s p).elipsis ≤ (Ipaux.parsegroups n s p).to.length) := by
  induction n with
  | zero => exact fun s p _ within => ⟨False.elim, fun _ => ⟨rfl, within⟩⟩
  | succ n ih =>
    intro s p room within
    have mem := stored_mem room
    rcases Decidable.em (p = []) with rfl | some'
    · exact ⟨fun past => absurd past (overruns_nil _), fun _ => ⟨rfl, within⟩⟩
    by_cases part : Dotted p ∨ (strtoul p 16).2 = [] ∧ s.to = []
    · have code : groups (n + 1) (stored s) p = (v4parseip (stored s).mem s.to.length p).map
          fun mem => { stored s with mem, i := s.to.length + 4 } := by
        cases p with
        | nil => exact absurd rfl some'
        | cons _ _ =>
          rw [groups]
          exact if_pos (part.imp id fun both => ⟨both.1, length_eq_zero_iff.2 both.2⟩)
      have reference : Ipaux.parsegroups (n + 1) s p =
          { s with «to» := s.to ++ (Ipaux.v4parseip p).1 } := by
        cases p with
        | nil => exact absurd rfl some'
        | cons _ _ =>
          rw [Ipaux.parsegroups]
          exact if_pos part
      obtain ⟨filled, isFilled, four⟩ : ∃ filled, (Ipaux.v4parseip p).1 = filled ∧
          filled.length = 4 := ⟨_, rfl, length_v4parseip some'⟩
      rw [code, mem, reference, isFilled]
      have within' : s.elipsis ≤ (s.to ++ filled).length := by
        rw [length_append]
        omega
      cases n with
      | zero =>
        obtain ⟨long, short⟩ := v4parseip_two some' s.to
        have dotted : Dotted p := part.resolve_right fun both => by
          rw [both.2] at room
          exact absurd room (by decide)
        refine ⟨fun past => ?_, fun fits => ⟨?_, within'⟩⟩
        · rw [show List.replicate (2 * (0 + 1)) 0 = [0, 0] from rfl, long past.2]
          rfl
        · rw [show List.replicate (2 * (0 + 1)) 0 = [0, 0] from rfl,
            short fun isLong => fits ⟨dotted, isLong⟩, isFilled]
          simp [stored, four, take_append, show s.to.length = 14 by omega,
            take_of_length_le (show s.to.length ≤ 16 by omega)]
      | succ n =>
        have fits : ¬Overruns (n + 1 + 1) p := by
          rcases part with dotted | ⟨ended, _⟩
          · exact fun past => past.1 dotted
          · intro past
            have nothing : behind p = [] := by
              unfold behind
              rw [ended]
              rfl
            rw [Overruns, nothing] at past
            exact overruns_nil _ past.2
        refine ⟨fun past => absurd past fits, fun _ => ⟨?_, within'⟩⟩
        rw [show 2 * (n + 1 + 1) = 2 * n + 4 by omega, v4parseip_four some', isFilled]
        have after := @stored_mem { s with «to» := s.to ++ filled } (2 * n)
          (by rw [length_append]; omega)
        rw [append_assoc] at after
        rw [map_some, ← after]
        simp [stored, four]
    · obtain ⟨notDotted, notEnd⟩ := not_or.1 part
      have longer : (grouped s p).to.length = s.to.length + 2 := by
        unfold grouped
        dsimp only
        split <;> simp
      have later := ih (grouped s p) (behind p) (by omega) (by
        unfold grouped
        dsimp only
        split_ifs <;> simp <;> omega)
      rw [groups_grouped notDotted notEnd some' room, parsegroups_grouped notDotted notEnd some',
        overruns_succ notDotted]
      exact later

/-- What is behind a `::` goes to the end. -/
theorem moved (front back : List Nat) (k : Nat) :
    ((memmove (front ++ back ++ List.replicate k 0) (front.length + k) front.length
      (back.length : Int)).bind fun mem => memset mem front.length k) =
        some (front ++ List.replicate k 0 ++ back) := by
  have long : (front ++ back ++ List.replicate k 0).length = front.length + back.length + k := by
    simp [Nat.add_assoc]
  have ⟨kept, isKept, length, starts⟩ : ∃ kept,
      (front ++ back ++ List.replicate k 0).take (front.length + k) = kept ∧
        kept.length = front.length + k ∧ kept.take front.length = front := by
    refine ⟨_, rfl, by rw [length_take, long]; omega, ?_⟩
    rw [take_take, Nat.min_eq_left (Nat.le_add_right ..), append_assoc, take_left]
  have first : memmove (front ++ back ++ List.replicate k 0) (front.length + k) front.length
      (back.length : Int) = some (kept ++ back) := by
    rw [memmove, if_pos (by rw [long]; omega), Int.toNat_natCast, isKept, append_assoc front,
      drop_left, take_left, drop_eq_nil_of_le (by simp; omega), append_nil]
  rw [first, bind_some, memset, if_pos (by rw [length_append, length]; omega),
    take_append_of_le_length (by omega), starts, ← length, drop_left]

/-- There is a result where no IPv4 part overruns, and it is then the one of the text. -/
theorem parseip_eq (p : Str) :
    (Overruns 8 p → parseip p = none) ∧ (¬Overruns 8 p → parseip p = some (Ipaux.parseip p)) := by
  have ⟨past, fits⟩ := groups_eq 8 ⟨[], 0, true⟩ p rfl (Nat.le_refl 0)
  have start : stored ⟨[], 0, true⟩ = ⟨List.replicate 16 0, 0, 0, true⟩ := rfl
  rw [start] at past fits
  refine ⟨fun over' => ?_, fun notOver => ?_⟩
  · rw [parseip, past over']
    rfl
  have ⟨run, within⟩ := fits notOver
  rw [parseip, run, Ipaux.parseip]
  generalize Ipaux.parsegroups 8 ⟨[], 0, true⟩ p = s at within ⊢
  have length : s.spread.length = 16 := by
    simp only [Ipaux.Parse.spread, length_take, length_append, length_replicate,
      length_drop]
    omega
  have spread : (if (stored s).i < 16 then
      (memmove (stored s).mem ((stored s).elipsis + 16 - (stored s).i) (stored s).elipsis
        (((stored s).i : Int) - (stored s).elipsis)).bind fun mem =>
          memset mem (stored s).elipsis (16 - (stored s).i)
      else some (stored s).mem) = some s.spread := by
    by_cases room : s.to.length < 16
    · have mem := @stored_mem s (16 - s.to.length) (by omega)
      have moves := moved (s.to.take s.elipsis) (s.to.drop s.elipsis) (16 - s.to.length)
      have counts : ((s.to.length : Int) - s.elipsis) = ((s.to.length - s.elipsis : Nat) : Int) := by
        omega
      have same : s.spread =
          s.to.take s.elipsis ++ List.replicate (16 - s.to.length) 0 ++ s.to.drop s.elipsis :=
        take_of_length_le (by
          simp only [length_append, length_take, length_replicate, length_drop]
          omega)
      rw [take_append_drop, length_take, Nat.min_eq_left within, length_drop,
        ← same, ← Nat.add_sub_assoc (by omega)] at moves
      rw [← counts] at moves
      rw [if_pos (show (stored s).i < 16 from room), mem]
      exact moves
    · rw [if_neg (show ¬(stored s).i < 16 from room)]
      have none' : 16 - s.to.length = 0 := by omega
      simp [stored, Ipaux.Parse.spread, none']
  simp only [spread, bind_some]
  have same : (stored s).v4 = s.v4 := rfl
  rw [same]
  cases s.v4 with
  | true =>
    simp only [store, length, length_set, show 10 < 16 by decide, show 11 < 16 by decide, if_true,
      bind_some, map_some, set_comm _ _ (show 11 ≠ 10 by decide)]
  | false => rfl

/-! ### The words of the text -/

theorem ux_spec (x : Nat) :
    ux x ≠ [] ∧ (∀ c ∈ ux x, digitOf 16 c = true) ∧ valueOf 16 (ux x) = x := by
  have digits : ∀ d < 16, Ipaux.digitOf 16 (uxdigit d) = true ∧
      (digitValue (uxdigit d)).getD 0 = d := by decide
  induction x using ux.induct with
  | case1 x small =>
    rw [ux, if_pos small]
    refine ⟨cons_ne_nil _ _, fun c member => ?_, ?_⟩
    · rw [mem_singleton.1 member]
      exact (digits x small).1
    · exact (Nat.zero_add _).trans (digits x small).2
  | case2 x large ih =>
    have ⟨some', all, value⟩ := ih
    have last := digits (x % 16) (Nat.mod_lt _ (by decide))
    rw [ux, if_neg large]
    refine ⟨append_ne_nil_of_left_ne_nil some' _, fun c member => ?_, ?_⟩
    · rcases mem_append.1 member with early | late
      · exact all c early
      · rw [mem_singleton.1 late]
        exact last.1
    · unfold valueOf at value ⊢
      rw [foldl_append, value, foldl_cons, last.2]
      exact Nat.div_add_mod' x 16

theorem hex_bounds {c : Nat} (hex : digitOf 16 c = true) :
    48 ≤ c ∧ c ≤ 57 ∨ 97 ≤ c ∧ c ≤ 102 ∨ 65 ≤ c ∧ c ≤ 70 := by
  unfold Ipaux.digitOf digitValue at hex
  split_ifs at hex
  · omega
  · omega
  · omega

/-- A number is read up to the end, a colon or a dot. -/
theorem strtoul_hex {ds rest : Str} (some' : ds ≠ []) (hex : ∀ c ∈ ds, digitOf 16 c = true)
    (stops : ∀ c ∈ rest.head?, c = colon ∨ c = dot) (small : valueOf 16 ds ≤ ULONG_MAX) :
    strtoul (ds ++ rest) 16 = (valueOf 16 ds, rest) := by
  obtain ⟨c, t, rfl⟩ := exists_cons_of_ne_nil some'
  have first := hex_bounds (hex c mem_cons_self)
  have noSpace : (c :: t ++ rest).dropWhile isSpace = c :: (t ++ rest) := by
    rw [cons_append, dropWhile_cons_of_neg]
    simp only [isSpace, Bool.or_eq_true, beq_iff_eq, Bool.and_eq_true, decide_eq_true_eq]
    omega
  have noSign : takeSign (c :: (t ++ rest)) = (false, c :: (t ++ rest)) := by
    unfold takeSign
    split
    · rename_i same
      have := (List.cons.inj same).1
      omega
    · rename_i same
      have := (List.cons.inj same).1
      omega
    · rfl
  have plain : ∀ x ∈ (t ++ rest).head?, x ≠ 120 ∧ x ≠ 88 := by
    intro x isHead
    cases t with
    | nil =>
      rcases stops x isHead with is | is
      · exact is ▸ (by decide)
      · exact is ▸ (by decide)
    | cons d later =>
      cases isHead
      have next := hex_bounds (hex x (by simp))
      omega
  have ends : rest.takeWhile (digitOf 16) = [] ∧ rest.dropWhile (digitOf 16) = rest := by
    cases rest with
    | nil => exact ⟨rfl, rfl⟩
    | cons d rest =>
      rcases stops d rfl with is | is
      · exact is ▸ ⟨rfl, rfl⟩
      · exact is ▸ ⟨rfl, rfl⟩
  have taken : (c :: (t ++ rest)).takeWhile (digitOf 16) = c :: t := by
    rw [← cons_append, takeWhile_append_of_pos hex, ends.1, append_nil]
  have dropped : (c :: (t ++ rest)).dropWhile (digitOf 16) = rest := by
    rw [← cons_append, dropWhile_append_of_pos hex, ends.2]
  have base := @Publicnet.strtoulBase_digit c 16 _ plain
  simp only [strtoul, noSpace, noSign, base, show ¬16 = 0 by decide, if_false, taken, dropped,
    cons_ne_nil, if_neg (Nat.not_lt.2 small), Bool.false_eq_true]

def join : List (Nat × Nat) → Str
  | [] => []
  | p :: ps => word p ++ ps.flatMap fun q => colon :: word q

def Elided (ps : List (Nat × Nat)) (block : Nat × Nat) : Prop :=
  ∃ front back, ps = front ++ (List.replicate block.2 (0, 0) ++ back) ∧
    front.length = block.1 ∧ 0 < block.2

theorem longest_elided (ps : List (Nat × Nat)) : ∀ (done : List (Nat × Nat))
    (best : Option (Nat × Nat)), (∀ b ∈ best, Elided (done ++ ps) b) →
      ∀ b ∈ longest done.length best ps, Elided (done ++ ps) b := by
  induction ps with
  | nil => exact fun _ _ known => known
  | cons p ps ih =>
    intro done best known
    have here : 0 < zeros (p :: ps) → Elided (done ++ p :: ps) (done.length, zeros (p :: ps)) := by
      refine fun positive => ⟨done, (p :: ps).dropWhile (· = (0, 0)), ?_, rfl, positive⟩
      have all : (p :: ps).takeWhile (· = (0, 0)) = List.replicate (zeros (p :: ps)) (0, 0) := by
        refine eq_replicate_of_mem fun q member => ?_
        have zero := mem_takeWhile_imp member
        simpa using zero
      rw [← all, takeWhile_append_dropWhile]
    have later := ih (done ++ [p])
    rw [append_assoc, length_append] at later
    refine later _ ?_
    split
    · rename_i longer
      intro b is
      cases is
      exact here longer.1
    · exact known

theorem print_behind {best : Option (Nat × Nat)} (ps : List (Nat × Nat)) :
    ∀ i, 0 < i → (∀ b ∈ best, b.1 < i) → print best i ps = ps.flatMap fun q => colon :: word q := by
  induction ps with
  | nil =>
    intro i _ _
    rw [print]
    rfl
  | cons _ _ ih =>
    intro i positive before
    have past : best.filter (·.1 = i) = none := by
      cases best with
      | none => rfl
      | some b => exact if_neg (by simpa using Nat.ne_of_lt (before b rfl))
    have later := ih (i + 1) (Nat.succ_pos i)
      fun b is => Nat.lt_succ_of_lt (before b is)
    rw [print, past]
    simp only [later, if_neg (Nat.ne_of_gt positive), flatMap_cons]
    rfl

theorem print_front {best : Option (Nat × Nat)} (rest front : List (Nat × Nat)) :
    ∀ i, (∀ b ∈ best, i + front.length ≤ b.1) → print best i (front ++ rest) =
      (if i = 0 then join front else front.flatMap fun q => colon :: word q) ++
        print best (i + front.length) rest := by
  induction front with
  | nil =>
    intro i _
    split <;> rfl
  | cons _ front ih =>
    intro i behind
    have past : best.filter (·.1 = i) = none := by
      cases best with
      | none => rfl
      | some b =>
        have after := behind b rfl
        rw [length_cons] at after
        exact if_neg (by simp; omega)
    have later := ih (i + 1) fun b is => by
      have after := behind b is
      rw [length_cons] at after
      omega
    rw [cons_append, print, past]
    simp only [later, if_neg (Nat.succ_ne_zero i), length_cons]
    rw [show i + (front.length + 1) = i + 1 + front.length by omega]
    split <;> simp [join]

/-- What is printed: all words, or those before and behind a block of zeros. -/
theorem print_cases (ps : List (Nat × Nat)) :
    print (longest 0 none ps) 0 ps = join ps ∨ ∃ front n back,
      ps = front ++ (List.replicate (n + 1) (0, 0) ++ back) ∧
        print (longest 0 none ps) 0 ps = join front ++ colon :: colon :: join back := by
  have elided := longest_elided ps [] none nofun
  cases best : longest 0 none ps with
  | none =>
    left
    have all := @print_front none [] ps 0 nofun
    rw [append_nil, if_pos rfl, print, append_nil] at all
    exact all
  | some b =>
    right
    have ⟨front, back, shape, first, positive⟩ := elided b best
    have ⟨n, is⟩ := Nat.exists_eq_succ_of_ne_zero (Nat.ne_of_gt positive)
    have ⟨i, m⟩ := b
    dsimp only at first is shape
    subst is
    refine ⟨front, n, back, shape, ?_⟩
    have start := @print_front (some (i, n + 1)) (List.replicate (n + 1) (0, 0) ++ back) front 0
      fun b is => by cases is; exact Nat.le_of_eq ((Nat.zero_add _).trans first)
    rw [nil_append] at shape
    conv_lhs => rw [shape]
    rw [start, if_pos rfl, Nat.zero_add, first]
    congr 1
    have here : (some (i, n + 1)).filter (·.1 = i) = some (i, n + 1) := by simp
    have drop : (((0, 0) : Nat × Nat) :: (List.replicate n (0, 0) ++ back)).drop (n + 1) = back := by
      simp
    rw [replicate_succ, cons_append, print, here]
    dsimp only
    split
    · rename_i none'
      rw [← drop, none']
      rfl
    · rename_i q qs some'
      rw [drop] at some'
      have later := @print_behind (some (i, n + 1)) qs (i + (n + 1) + 1) (Nat.succ_pos _)
        fun b is => by cases is; omega
      rw [later, some']
      rfl

/-! ### The words are parsed -/

theorem not_dotted (noDot : dot ∉ p) : ¬Dotted p := by
  intro dotted
  have ⟨_, shape, _⟩ := Publicnet.strtoul_suffix p 16
  rw [shape] at noDot
  exact noDot (mem_append_right _ (mem_of_head? dotted))

theorem not_overruns (noDot : dot ∉ p) (n : Nat) : ¬Overruns n p := by
  induction n generalizing p with
  | zero => exact id
  | succ _ ih =>
    rw [overruns_succ (not_dotted noDot)]
    apply ih
    have ⟨_, shape, _⟩ := Publicnet.strtoul_suffix p 16
    have left : dot ∉ (strtoul p 16).2 := fun member =>
      noDot (shape ▸ mem_append_right _ member)
    unfold behind
    dsimp only
    split_ifs
    · exact fun member => left (mem_of_mem_tail (mem_of_mem_tail member))
    · exact fun member => left (mem_of_mem_tail member)
    · exact left

def bytesOf (ps : List (Nat × Nat)) : List Nat := ps.flatMap fun p => [p.1, p.2]

def IsPair (p : Nat × Nat) : Prop := p.1 < 256 ∧ p.2 < 256

theorem word_spec {p : Nat × Nat} (isPair : IsPair p) {rest : Str}
    (stops : ∀ c ∈ rest.head?, c = colon) :
    strtoul (word p ++ rest) 16 = (p.1 * 256 + p.2, rest) ∧ word p ++ rest ≠ [] ∧
      (word p ++ rest).head? ≠ some colon := by
  have ⟨some', hex, value⟩ := ux_spec (p.1 * 256 + p.2)
  have ⟨_, _⟩ := isPair
  have small : valueOf 16 (word p) ≤ ULONG_MAX := by
    unfold word ULONG_MAX
    omega
  have read := strtoul_hex some' hex (fun c is => Or.inl (stops c is)) small
  rw [value] at read
  refine ⟨read, append_ne_nil_of_left_ne_nil some' _, fun isColon => ?_⟩
  rw [word, head?_append_of_ne_nil _ some'] at isColon
  exact absurd (hex colon (mem_of_head? isColon)) (by decide)

theorem parse_word {p : Nat × Nat} (isPair : IsPair p) {s : Ipaux.Parse} (n : Nat) :
    (s.to ≠ [] → Ipaux.parsegroups (n + 1) s (word p) =
      Ipaux.parsegroups n ⟨s.to ++ [p.1, p.2], s.elipsis, s.v4⟩ []) ∧
    (∀ t : Str, t.head? ≠ some colon → Ipaux.parsegroups (n + 1) s (word p ++ colon :: t) =
      Ipaux.parsegroups n ⟨s.to ++ [p.1, p.2], s.elipsis, false⟩ t) ∧
    ∀ t, Ipaux.parsegroups (n + 1) s (word p ++ colon :: colon :: t) =
      Ipaux.parsegroups n ⟨s.to ++ [p.1, p.2], s.to.length + 2, false⟩ t := by
  have high : (p.1 * 256 + p.2) / 256 % 256 = p.1 := by
    have ⟨first, second⟩ := isPair
    omega
  have low : (p.1 * 256 + p.2) % 256 = p.2 := by
    have ⟨_, _⟩ := isPair
    omega
  have step {rest : Str} (stops : ∀ c ∈ rest.head?, c = colon) (more : ¬(rest = [] ∧ s.to = [])) :
      Ipaux.parsegroups (n + 1) s (word p ++ rest) =
        Ipaux.parsegroups n (grouped s (word p ++ rest)) (behind (word p ++ rest)) := by
    have ⟨read, some', _⟩ := word_spec isPair stops
    refine parsegroups_grouped (fun dotted => ?_) (by rw [read]; exact more) some'
    unfold Dotted at dotted
    rw [read] at dotted
    exact absurd (stops dot dotted) (by decide)
  refine ⟨fun some' => ?_, fun t single => ?_, fun t => ?_⟩
  · have whole := @step [] nofun fun both => some' both.2
    have ⟨read, _, _⟩ := @word_spec p isPair [] nofun
    unfold grouped behind at whole
    rw [read] at whole
    simpa [high, low] using whole
  · have stops : ∀ c ∈ (colon :: t).head?, c = colon := fun c is => (Option.some.inj is).symm
    have whole := step stops fun both => nomatch both.1
    have ⟨read, _, _⟩ := word_spec isPair stops
    unfold grouped behind at whole
    rw [read] at whole
    simpa [high, low, single] using whole
  · have stops : ∀ c ∈ (colon :: colon :: t).head?, c = colon :=
      fun c is => (Option.some.inj is).symm
    have whole := step stops fun both => nomatch both.1
    have ⟨read, _, _⟩ := word_spec isPair stops
    unfold grouped behind at whole
    rw [read] at whole
    simpa [high, low] using whole

theorem head_join {p : Nat × Nat} (isPair : IsPair p) (ps : List (Nat × Nat)) (rest : Str) :
    (join (p :: ps) ++ rest).head? ≠ some colon := by
  have ⟨_, some', other⟩ := @word_spec p isPair [] nofun
  rw [append_nil] at some' other
  rw [join, append_assoc, head?_append_of_ne_nil _ some']
  exact other

theorem join_cons (p q : Nat × Nat) (ps : List (Nat × Nat)) :
    join (p :: q :: ps) = word p ++ colon :: join (q :: ps) := rfl

theorem parse_join (ps : List (Nat × Nat)) : ∀ (n e : Nat) (bytes : List Nat), ps.length ≤ n →
    bytes ≠ [] → (∀ p ∈ ps, IsPair p) →
      Ipaux.parsegroups n ⟨bytes, e, false⟩ (join ps) = ⟨bytes ++ bytesOf ps, e, false⟩ := by
  induction ps with
  | nil =>
    intro n e bytes _ _ _
    rw [bytesOf, flatMap_nil, append_nil]
    cases n <;> rfl
  | cons p ps ih =>
    intro _ e bytes enough some' each
    have ⟨m, is⟩ := Nat.exists_eq_succ_of_ne_zero (Nat.ne_of_gt (Nat.lt_of_lt_of_le
      (Nat.succ_pos _) enough))
    subst is
    have ⟨last, next, _⟩ := @parse_word p (each p mem_cons_self) ⟨bytes, e, false⟩ m
    have later := ih m e (bytes ++ [p.1, p.2]) (Nat.le_of_succ_le_succ enough)
      (append_ne_nil_of_left_ne_nil some' _) (forall_mem_cons.1 each).2
    rw [append_assoc] at later
    cases ps with
    | nil =>
      rw [join, flatMap_nil, append_nil, last some']
      exact later
    | cons q ps =>
      have other := head_join (each q (by simp)) ps []
      rw [append_nil] at other
      rw [join_cons, next _ other]
      exact later

theorem parse_front {t : Str} (ps : List (Nat × Nat)) : ∀ (p : Nat × Nat) (n e : Nat)
    (bytes : List Nat) (v4 : Bool), (∀ q ∈ p :: ps, IsPair q) →
      Ipaux.parsegroups (n + ps.length + 1) ⟨bytes, e, v4⟩ (join (p :: ps) ++ colon :: colon :: t) =
        Ipaux.parsegroups n ⟨bytes ++ bytesOf (p :: ps), (bytes ++ bytesOf (p :: ps)).length, false⟩
          t := by
  induction ps with
  | nil =>
    intro p n e bytes v4 each
    have ⟨_, _, double⟩ := @parse_word p (each p mem_cons_self) ⟨bytes, e, v4⟩ n
    rw [join, flatMap_nil, append_nil]
    refine (double t).trans ?_
    simp [bytesOf]
  | cons q ps ih =>
    intro p n e bytes v4 each
    have ⟨_, next, _⟩ := @parse_word p (each p mem_cons_self) ⟨bytes, e, v4⟩
      (n + ps.length + 1)
    have later := ih q n e (bytes ++ [p.1, p.2]) false
      (forall_mem_cons.1 each).2
    rw [append_assoc] at later
    rw [join_cons, append_assoc, cons_append]
    exact (next _ (head_join (each q (by simp)) ps _)).trans later

/-! ### Addresses -/

structure Address where
  bytes : List Nat
  length : bytes.length = 16
  isBytes : ∀ b ∈ bytes, b < 256

theorem pairs_spec (a : List Nat) : ∀ n, a.length = 2 * n → (∀ b ∈ a, b < 256) →
    bytesOf (pairs a) = a ∧ (pairs a).length = n ∧ ∀ p ∈ pairs a, IsPair p := by
  induction a using pairs.induct with
  | case1 x y _ ih =>
    intro n length each
    rw [length_cons, length_cons] at length
    have ⟨same, counted, pair⟩ := ih (n - 1) (by omega)
      fun b member => each b (by simp [member])
    refine ⟨congrArg (fun l => x :: y :: l) same, ?_, ?_⟩
    · rw [pairs, length_cons, counted]
      omega
    · exact forall_mem_cons.2 ⟨⟨each x (by simp), each y (by simp)⟩, pair⟩
  | case2 a short =>
    intro n length _
    match a, short with
    | [], _ =>
      have none' : n = 0 := by simpa using length.symm
      exact ⟨rfl, none'.symm, nofun⟩
    | [x], _ =>
      rw [length_singleton] at length
      omega
    | x :: y :: rest, short => exact absurd rfl (short x y rest)

theorem dot_notMem_join {ps : List (Nat × Nat)} : dot ∉ join ps := by
  have clean (p : Nat × Nat) : dot ∉ word p := fun member =>
    absurd ((ux_spec _).2.1 dot member) (by decide)
  cases ps with
  | nil => exact not_mem_nil
  | cons p _ =>
    intro member
    rcases mem_append.1 member with first | later
    · exact clean p first
    · have ⟨q, _, inside⟩ := mem_flatMap.1 later
      exact clean q ((mem_cons.1 inside).resolve_left (by decide))

theorem length_bytesOf (ps : List (Nat × Nat)) : (bytesOf ps).length = 2 * ps.length := by
  simp [bytesOf, Nat.mul_comm]

theorem bytesOf_zeros (n : Nat) : bytesOf (List.replicate n (0, 0)) = List.replicate (2 * n) 0 := by
  induction n with
  | zero => rfl
  | succ _ ih =>
    rw [replicate_succ, Nat.mul_succ, replicate_succ, replicate_succ,
      ← ih]
    rfl

theorem spread_eq {x y : List Nat} {k : Nat} {v4 : Bool}
    (sixteen : x.length + (k + y.length) = 16) : Ipaux.Parse.spread ⟨x ++ y, x.length, v4⟩ =
      x ++ (List.replicate k 0 ++ y) := by
  have left : 16 - (x ++ y).length = k := by
    rw [length_append]
    omega
  unfold Ipaux.Parse.spread
  rw [take_left, drop_left, left, append_assoc]
  exact take_of_length_le (by simp [sixteen])

/-- An address that is printed in words is parsed from its words. -/
theorem parse_words (ps : List (Nat × Nat)) (eight : ps.length = 8) (each : ∀ p ∈ ps, IsPair p) :
    Ipaux.parseip (print (longest 0 none ps) 0 ps) = (bytesOf ps, 6) ∧
      dot ∉ print (longest 0 none ps) 0 ps := by
  have whole {s : Ipaux.Parse} {p : Str} (run : Ipaux.parsegroups 8 ⟨[], 0, true⟩ p = s)
      (v6 : s.v4 = false) (spread : s.spread = bytesOf ps) : Ipaux.parseip p = (bytesOf ps, 6) := by
    rw [Ipaux.parseip, run, if_neg (by rw [v6]; exact Bool.false_ne_true), spread]
  rcases print_cases ps with all | ⟨front, n, back, shape, elided⟩
  · rw [all]
    refine ⟨?_, dot_notMem_join⟩
    obtain _ | ⟨p, _ | ⟨q, ps⟩⟩ := ps
    · cases eight
    · cases eight
    obtain ⟨_, next, _⟩ := @parse_word p (each p (by simp)) ⟨[], 0, true⟩ 7
    have other := head_join (each q (by simp)) ps []
    rw [append_nil] at other
    have later := parse_join (q :: ps) 7 0 [p.1, p.2]
      (Nat.le_of_succ_le_succ (Nat.le_of_eq eight)) (by simp) (forall_mem_cons.1 each).2
    have length := length_bytesOf (p :: q :: ps)
    rw [eight] at length
    exact whole ((next _ other).trans later) rfl
      (@spread_eq [] (bytesOf (p :: q :: ps)) 0 _ (by rw [length]; rfl))
  · rw [elided]
    have parts := congrArg List.length shape
    simp only [length_append, length_replicate, eight] at parts
    have backPairs : ∀ p ∈ back, IsPair p := fun p member => each p (by rw [shape]; simp [member])
    have bytes : bytesOf ps =
        bytesOf front ++ (List.replicate (2 * (n + 1)) 0 ++ bytesOf back) := by
      rw [shape, ← bytesOf_zeros, bytesOf, flatMap_append, flatMap_append]
      rfl
    have lengths := length_bytesOf front
    have lengths' := length_bytesOf back
    refine ⟨?_, ?_⟩
    · cases front with
      | nil =>
        rw [length_nil, Nat.zero_add] at parts
        have read : strtoul (colon :: colon :: join back) 16 = (0, colon :: colon :: join back) := by
          unfold strtoul
          exact if_pos rfl
        have first : Ipaux.parsegroups 8 ⟨[], 0, true⟩ (colon :: colon :: join back) =
            Ipaux.parsegroups 7 ⟨[0, 0], 2, false⟩ (join back) := by
          have plain : ¬Dotted (colon :: colon :: join back) := by
            unfold Dotted
            rw [read]
            exact fun dotted => absurd (Option.some.inj dotted) (by decide)
          rw [parsegroups_grouped plain (by rw [read]; exact fun both => by cases both.1) (by simp)]
          unfold grouped behind
          rw [read]
          rfl
        have later := parse_join back 7 2 [0, 0] (by omega) (by simp) backPairs
        refine whole (first.trans later) rfl (.trans (@spread_eq [0, 0] (bytesOf back) (2 * n) _ ?_) ?_)
        · rw [lengths', length_cons, length_singleton]
          omega
        · rw [bytes]
          rfl
      | cons p front =>
        have frontPairs : ∀ q ∈ p :: front, IsPair q := fun q member =>
          each q (by rw [shape]; exact mem_append_left _ member)
        rw [length_cons] at parts lengths
        have first := @parse_front (join back) front p (7 - front.length) 0 [] true frontPairs
        rw [show 7 - front.length + front.length + 1 = 8 by omega] at first
        have later := parse_join back (7 - front.length) (bytesOf (p :: front)).length
          (bytesOf (p :: front)) (by omega) (ne_nil_of_length_pos (by omega)) backPairs
        refine whole (first.trans later) rfl ((spread_eq ?_).trans bytes.symm)
        omega
    · intro member
      rcases mem_append.1 member with first | later
      · exact dot_notMem_join first
      · have later := (mem_cons.1 later).resolve_left (by decide)
        exact dot_notMem_join ((mem_cons.1 later).resolve_left (by decide))

theorem decimal_spec : ∀ b < 256, Publicnet.SameRadix (decimal (b : Nat)) ∧
    decimal (b : Nat) ≠ [] ∧ dot ∉ decimal (b : Nat) ∧
      (∀ c ∈ decimal (b : Nat), digitOf 16 c = true) ∧
        valueOf 16 (decimal (b : Nat)) ≤ ULONG_MAX := by
  decide +kernel

/-- An IPv4 address is parsed from its four numbers. -/
theorem parse_quad {w x y z : Nat} (small : ∀ b ∈ [w, x, y, z], b < 256) {text : Str}
    (is : text = [dot].intercalate ([w, x, y, z].map fun b : Nat => decimal b)) :
    (Ipaux.parseip text).1 = v4prefix ++ [w, x, y, z] ∧ Dotted text := by
  have each (b : Nat) (member : b ∈ [w, x, y, z]) := decimal_spec b (small b member)
  have fields : text.splitOn dot = [w, x, y, z].map fun b : Nat => decimal b := by
    rw [is, splitOn_intercalate]
    · intro field member
      obtain ⟨b, inside, is⟩ := mem_map.1 member
      exact is ▸ (each b inside).2.2.1
    · exact cons_ne_nil _ _
  have read : Publicnet.octets ([w, x, y, z].map fun b : Nat => decimal b) = some [w, x, y, z] := by
    have octet (b : Nat) (member : b ∈ [w, x, y, z]) := Publicnet.octet_decimal b (small b member)
    have some' (b : Nat) (member : b ∈ [w, x, y, z]) := (each b member).2.1
    simp only [forall_mem_cons] at octet some'
    simp only [map_cons, map_nil, Publicnet.octets, octet, some', if_false]
  have parsed := Publicnet.parseip_octets fields (by rw [fields]; exact read) rfl
  have sameRadix : ∀ field ∈ [w, x, y, z].map fun b : Nat => decimal b,
      Publicnet.SameRadix field := by
    intro _ member
    obtain ⟨b, inside, is⟩ := mem_map.1 member
    exact is ▸ (each b inside).1
  have agree := (Publicnet.v4bytes_octets _ read).2 sameRadix
  refine ⟨?_, ?_⟩
  · rw [parsed]
    exact congrArg v4tov6 agree
  · obtain ⟨_, some', _, hex, value⟩ := each w (by simp)
    have first := @strtoul_hex (decimal w) (dot :: [dot].intercalate
      ([x, y, z].map fun b : Nat => decimal b)) some' hex
      (fun c isHead => Or.inr (Option.some.inj isHead).symm) value
    have split : text = decimal w ++ dot :: [dot].intercalate
        ([x, y, z].map fun b : Nat => decimal b) := is
    unfold Dotted
    rw [split, first]
    rfl

/-- Every address is parsed from what `%I` prints for it, and any text is parsed within the memory
of the result unless the eighth group is an IPv4 part of more than two bytes. -/
theorem parseip_within (a : Address) (p : Str) :
    (∃ result, parseip (eipfmt a.bytes) = some (a.bytes, result)) ∧
      ((∃ found, parseip p = some found) ↔ ¬Overruns 8 p) := by
  have within (p : Str) : (∃ found, parseip p = some found) ↔ ¬Overruns 8 p := by
    have ⟨past, fits⟩ := parseip_eq p
    refine ⟨fun ⟨found, is⟩ over' => ?_, fun notOver => ⟨_, fits notOver⟩⟩
    rw [past over'] at is
    exact nomatch is
  refine ⟨?_, within p⟩
  have parsed {text : Str} (fits : ¬Overruns 8 text) (same : (Ipaux.parseip text).1 = a.bytes) :
      ∃ result, parseip text = some (a.bytes, result) :=
    ⟨_, ((parseip_eq text).2 fits).trans (congrArg some (Prod.ext same rfl))⟩
  unfold eipfmt
  split
  · rename_i prefix'
    have length := a.length
    have ⟨w, x, y, z, quad⟩ : ∃ w x y z, a.bytes.drop 12 = [w, x, y, z] := by
      have four : (a.bytes.drop 12).length = 4 := by rw [length_drop, length]
      match a.bytes.drop 12, four with
      | [w, x, y, z], _ => exact ⟨w, x, y, z, rfl⟩
    have small : ∀ b ∈ [w, x, y, z], b < 256 := fun b member =>
      a.isBytes b (mem_of_mem_drop (quad ▸ member))
    have ⟨same, dotted⟩ := parse_quad small rfl
    rw [quad]
    refine parsed (fun over' => over'.1 dotted) ?_
    rw [same, ← prefix', ← quad, take_append_drop]
  · have ⟨same, eight, each⟩ := pairs_spec a.bytes 8 a.length a.isBytes
    have ⟨words, noDot⟩ := parse_words (pairs a.bytes) eight each
    exact parsed (not_overruns noDot 8) (by rw [words, same])

/-- An IPv4 part in the eighth group is written behind the address. -/
theorem parseip_overruns : parseip (str "1:2:3:4:5:6:7:1.2.3.4") = none := by decide +kernel

end Infernode.Ipmemory
