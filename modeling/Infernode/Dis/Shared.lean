import Infernode.Dis.Chars
import Mathlib.Data.List.Nodup

/-!
The heap of strings.

Owns: what the reference counts promise, the characters that a variable stands for, and what
each use of the heap keeps of both.
-/

namespace Infernode.Dis

open Program Text List

/-! ### What the heap promises -/

namespace Strings

def Holders (s : Strings) (a : Nat) (xs : List Nat) : Prop :=
  xs.Nodup ∧ ∀ x ∈ xs, s.vars x = some a

/-- Variables hold strings of the heap, and no more of them one string than it counts. -/
structure Linked (s : Strings) : Prop where
  live : ∀ x a, s.vars x = some a → ∃ cell, s.heap a = some cell
  held : ∀ a cell, s.heap a = some cell → ∀ xs, s.Holders a xs → xs.length ≤ cell.ref
  fresh : ∀ a, s.next ≤ a → s.heap a = none

def Represented (s : Strings) : Prop := ∀ a cell, s.heap a = some cell → cell.str.Represented

/-- The characters that a variable stands for; `H` stands for none. -/
def val (s : Strings) (x : Nat) : Str :=
  ((s.vars x).bind s.heap).elim [] fun cell => cell.str.chars

/-- What `destroy` leaves. -/
def drop (s : Strings) : Option Nat → Strings
  | none => s
  | some a => s.put a ((s.heap a).bind fun cell =>
    if 1 < cell.ref then some { cell with ref := cell.ref - 1 } else none)

def Spare (s : Strings) (a : Nat) : Prop :=
  ∃ cell, s.heap a = some cell ∧ ∀ xs, s.Holders a xs → xs.length < cell.ref

section Lemmas

variable {s : Strings} {a b : Nat} {cell : Cell} {d x : Nat} {str : DisString}

theorem put_self (s : Strings) (a : Nat) (cell : Option Cell) : (s.put a cell).heap a = cell :=
  if_pos rfl

theorem put_of_ne (s : Strings) (cell : Option Cell) (other : b ≠ a) :
    (s.put a cell).heap b = s.heap b :=
  if_neg other

theorem put_put (s : Strings) (a : Nat) (c c' : Option Cell) : (s.put a c).put a c' = s.put a c' := by
  unfold put
  simp only [Strings.mk.injEq, and_true]
  funext b
  split
  · rfl
  · rfl

theorem assign_self (s : Strings) (d : Nat) (v : Option Nat) : (s.assign d v).vars d = v :=
  if_pos rfl

theorem assign_of_ne (s : Strings) (v : Option Nat) (other : x ≠ d) :
    (s.assign d v).vars x = s.vars x :=
  if_neg other

theorem vars_drop (s : Strings) (v : Option Nat) : (s.drop v).vars = s.vars := by
  unfold drop
  split
  · rfl
  · rfl

theorem val_of_none (none : s.vars x = none) : s.val x = [] := by
  rw [val, none]
  rfl

theorem val_of_some (holds : s.vars x = some a) (is : s.heap a = some cell) :
    s.val x = cell.str.chars := by
  rw [val, holds]
  show (s.heap a).elim [] _ = _
  rw [is]
  rfl

/-- A variable stands for the same characters when what it holds is the same string. -/
theorem val_congr {t : Strings} (vars : t.vars x = s.vars x)
    (heap : ∀ a, s.vars x = some a → (t.heap a).map Cell.str = (s.heap a).map Cell.str) :
    t.val x = s.val x := by
  unfold val
  rw [vars]
  cases holds : s.vars x with
  | none => rfl
  | some a =>
    have same := heap a holds
    show (t.heap a).elim [] _ = (s.heap a).elim [] _
    cases left : t.heap a with
    | none =>
      cases right : s.heap a with
      | none => rfl
      | some _ =>
        rw [left, right] at same
        cases same
    | some c' =>
      cases right : s.heap a with
      | none =>
        rw [left, right] at same
        cases same
      | some c =>
        rw [left, right] at same
        have strs : c'.str = c.str := Option.some.inj same
        show c'.str.chars = c.str.chars
        rw [strs]

variable {v : Option Nat}

theorem heap_drop_of_ne (s : Strings) (other : v ≠ some b) : (s.drop v).heap b = s.heap b := by
  unfold drop
  split
  · rfl
  · exact put_of_ne _ _ fun same => other (by rw [same])

theorem heap_drop_self (is : s.heap a = some cell) :
    (s.drop (some a)).heap a =
      if 1 < cell.ref then some { cell with ref := cell.ref - 1 } else none := by
  refine (put_self s a _).trans ?_
  rw [is]
  rfl

/-! ### New strings -/

theorem heap_alloc_self (s : Strings) (str : DisString) :
    (s.alloc str).heap s.next = some ⟨1, str⟩ := if_pos rfl

theorem heap_alloc_of_ne (s : Strings) (str : DisString) (other : b ≠ s.next) :
    (s.alloc str).heap b = s.heap b := if_neg other

/-- A change of a new string is another new string. -/
theorem put_alloc (s : Strings) (str str' : DisString) :
    (s.alloc str).put s.next (some ⟨1, str'⟩) = s.alloc str' := by
  unfold alloc put
  simp only [Strings.mk.injEq, and_true]
  funext b
  split
  · rfl
  · rfl

theorem Linked.ne_next (linked : s.Linked) (is : s.heap a = some cell) : a ≠ s.next := by
  rintro rfl
  rw [linked.fresh _ (Nat.le_refl _)] at is
  cases is

theorem Linked.alloc (linked : s.Linked) (str : DisString) : (s.alloc str).Linked where
  live := by
    intro x a holds
    have ⟨cell, is⟩ := linked.live x a holds
    exact ⟨cell, (heap_alloc_of_ne s str (linked.ne_next is)).trans is⟩
  held := by
    intro a cell is xs holders
    by_cases new : a = s.next
    · subst new
      cases xs with
      | nil => exact Nat.zero_le _
      | cons x _ =>
        have ⟨_, isOld⟩ := linked.live x _ (holders.2 x (.head _))
        exact absurd rfl (linked.ne_next isOld)
    · rw [heap_alloc_of_ne s str new] at is
      exact linked.held a cell is xs holders
  fresh := by
    intro a above
    have later : s.next + 1 ≤ a := above
    rw [heap_alloc_of_ne s str (by omega)]
    exact linked.fresh a (by omega)

theorem val_alloc (linked : s.Linked) (str : DisString) (x : Nat) :
    (s.alloc str).val x = s.val x := by
  refine val_congr (s := s) rfl fun a holds => ?_
  have ⟨_, is⟩ := linked.live x a holds
  rw [heap_alloc_of_ne s str (linked.ne_next is)]

theorem Represented.alloc (represented : s.Represented) (new : str.Represented) :
    (s.alloc str).Represented := by
  intro a cell is
  by_cases same : a = s.next
  · subst same
    rw [heap_alloc_self] at is
    cases is
    exact new
  · rw [heap_alloc_of_ne s str same] at is
    exact represented a cell is

theorem spare_alloc (linked : s.Linked) (str : DisString) : (s.alloc str).Spare s.next := by
  refine ⟨⟨1, str⟩, heap_alloc_self s str, fun xs holders => ?_⟩
  cases xs with
  | nil => exact Nat.zero_lt_one
  | cons x _ =>
    have ⟨_, isOld⟩ := linked.live x _ (holders.2 x (.head _))
    exact absurd rfl (linked.ne_next isOld)

/-! ### A variable takes another string -/

/-- A variable drops what it holds and takes another string. -/
def replaced (s : Strings) (d : Nat) (v : Option Nat) : Strings :=
  (s.drop (s.vars d)).assign d v

/-- The variable may as well be assigned before what it held is dropped. -/
theorem drop_assign (s : Strings) (d : Nat) (v : Option Nat) :
    (s.assign d v).drop (s.vars d) = s.replaced d v := by
  unfold Strings.replaced drop
  cases s.vars d with
  | none => rfl
  | some _ => rfl

theorem replaced_self (s : Strings) (d : Nat) (v : Option Nat) : (s.replaced d v).vars d = v :=
  assign_self _ _ _

theorem vars_replaced_of_ne (s : Strings) (v : Option Nat) (other : x ≠ d) :
    (s.replaced d v).vars x = s.vars x := by
  rw [replaced, assign_of_ne _ _ other, vars_drop]

theorem heap_replaced (s : Strings) (d : Nat) (v : Option Nat) :
    (s.replaced d v).heap = (s.drop (s.vars d)).heap := rfl

/-- A string that a variable holds besides the one that drops it is counted twice. -/
theorem Linked.shared (linked : s.Linked) (is : s.heap a = some cell) (other : x ≠ d)
    (holds : s.vars x = some a) (drops : s.vars d = some a) : 1 < cell.ref := by
  have both : s.Holders a [x, d] := by
    constructor
    · exact nodup_cons.2 ⟨fun member => other (mem_singleton.1 member),
        nodup_singleton d⟩
    intro _ member
    rcases mem_cons.1 member with rfl | rest
    · exact holds
    · rw [mem_singleton.1 rest]
      exact drops
  exact linked.held a cell is _ both

theorem Spare.drops (spare : s.Spare a) (is : s.heap a = some cell) (drops : s.vars d = some a) :
    1 < cell.ref := by
  have ⟨_, is', counted⟩ := spare
  rw [is] at is'
  cases is'
  refine counted [d] ⟨nodup_singleton d, fun y member => ?_⟩
  rw [mem_singleton.1 member]
  exact drops

/-- A string that stays keeps its characters. -/
theorem heap_drop_str (is : s.heap a = some cell) (kept : s.vars d = some a → 1 < cell.ref) :
    ∃ n, (s.drop (s.vars d)).heap a = some ⟨n, cell.str⟩ := by
  by_cases drops : s.vars d = some a
  · rw [drops, heap_drop_self is, if_pos (kept drops)]
    exact ⟨_, rfl⟩
  · rw [heap_drop_of_ne s drops]
    exact ⟨_, is⟩

theorem of_heap_drop (left : (s.drop v).heap a = some cell) :
    ∃ n, s.heap a = some ⟨n, cell.str⟩ ∧ n = cell.ref + if v = some a then 1 else 0 := by
  by_cases drops : v = some a
  · subst drops
    cases is : s.heap a with
    | none =>
      have gone : (s.drop (some a)).heap a = none := by
        refine (put_self s a _).trans ?_
        rw [is]
        rfl
      rw [gone] at left
      cases left
    | some old =>
      rw [heap_drop_self is] at left
      split at left
      · rename_i many
        cases left
        refine ⟨old.ref, rfl, ?_⟩
        rw [if_pos rfl]
        show old.ref = old.ref - 1 + 1
        omega
      · cases left
  · rw [heap_drop_of_ne s drops] at left
    exact ⟨cell.ref, left, by rw [if_neg drops, Nat.add_zero]⟩

/-- The holders of a string before a variable took another. -/
theorem Holders.before {xs : List Nat} (holders : (s.replaced d v).Holders a xs) :
    s.Holders a (xs.erase d) := by
  refine ⟨holders.1.erase d, fun x member => ?_⟩
  have other : x ≠ d := (holders.1.mem_erase_iff.1 member).1
  have holds := holders.2 x (mem_of_mem_erase member)
  rwa [vars_replaced_of_ne s v other] at holds

theorem Linked.replaced (linked : s.Linked) (spare : ∀ a, v = some a → s.Spare a) :
    (s.replaced d v).Linked where
  live := by
    intro x a holds
    by_cases same : x = d
    · subst same
      rw [replaced_self] at holds
      have left : s.Spare a := spare a holds
      obtain ⟨cell, is, -⟩ := id left
      obtain ⟨n, stays⟩ := heap_drop_str is fun drops => left.drops is drops
      exact ⟨_, stays⟩
    · rw [vars_replaced_of_ne s v same] at holds
      obtain ⟨cell, is⟩ := linked.live x a holds
      obtain ⟨n, stays⟩ := heap_drop_str is fun drops => linked.shared is same holds drops
      exact ⟨_, stays⟩
  held := by
    intro a cell left xs holders
    obtain ⟨n, is, counts⟩ := of_heap_drop left
    have before := holders.before
    by_cases member : d ∈ xs
    · -- the variable holds the string now, so that there was a reference to spare
      have length : (xs.erase d).length = xs.length - 1 := length_erase_of_mem member
      have positive := length_pos_of_mem member
      have takes := holders.2 d member
      rw [replaced_self] at takes
      obtain ⟨_, is', counted⟩ := spare a takes
      rw [is] at is'
      cases is'
      by_cases drops : s.vars d = some a
      · rw [if_pos drops] at counts
        have all : s.Holders a (d :: xs.erase d) := by
          refine ⟨nodup_cons.2 ⟨fun again => (holders.1.mem_erase_iff.1 again).1 rfl,
            before.1⟩, fun x among => ?_⟩
          rcases mem_cons.1 among with rfl | rest
          · exact drops
          · exact before.2 x rest
        have few := counted _ all
        rw [length_cons, length] at few
        show xs.length ≤ cell.ref
        have same : n = cell.ref + 1 := counts
        have few' : xs.length - 1 + 1 < n := few
        omega
      · rw [if_neg drops] at counts
        have few := counted _ before
        have few' : (xs.erase d).length < n := few
        rw [length] at few'
        omega
    · rw [erase_of_not_mem member] at before
      by_cases drops : s.vars d = some a
      · rw [if_pos drops] at counts
        have all : s.Holders a (d :: xs) := by
          refine ⟨nodup_cons.2 ⟨member, before.1⟩, fun x among => ?_⟩
          rcases mem_cons.1 among with rfl | rest
          · exact drops
          · exact before.2 x rest
        have few := linked.held a _ is _ all
        rw [length_cons] at few
        have few' : xs.length + 1 ≤ n := few
        omega
      · rw [if_neg drops] at counts
        have few : xs.length ≤ n := linked.held a _ is _ before
        omega
  fresh := by
    intro a above
    have below : s.next ≤ a := by
      have next : (s.replaced d v).next = s.next := by
        unfold Strings.replaced drop
        split
        · rfl
        · rfl
      rwa [next] at above
    have none := linked.fresh a below
    rw [heap_replaced, heap_drop_of_ne s, none]
    intro drops
    obtain ⟨_, is⟩ := linked.live d a drops
    rw [none] at is
    cases is

theorem val_replaced_of_ne (linked : s.Linked) (other : x ≠ d) :
    (s.replaced d v).val x = s.val x := by
  refine val_congr (vars_replaced_of_ne s v other) fun a holds => ?_
  have ⟨_, is⟩ := linked.live x a holds
  have ⟨_, stays⟩ := heap_drop_str is fun drops => linked.shared is other holds drops
  rw [heap_replaced, stays, is]
  rfl

theorem val_replaced_none (s : Strings) (d : Nat) : (s.replaced d none).val d = [] :=
  val_of_none (replaced_self s d none)

theorem val_replaced_some (spare : s.Spare a) (is : s.heap a = some cell) :
    (s.replaced d (some a)).val d = cell.str.chars := by
  have ⟨n, stays⟩ := heap_drop_str is fun drops => spare.drops (d := d) is drops
  have after : (s.replaced d (some a)).heap a = some ⟨n, cell.str⟩ := stays
  rw [val_of_some (replaced_self s d (some a)) after]

theorem Represented.replaced (represented : s.Represented) : (s.replaced d v).Represented := by
  intro a cell left
  obtain ⟨n, is, -⟩ := of_heap_drop left
  exact represented a ⟨n, cell.str⟩ is

/-! ### A string that one variable holds -/

/-- No variable but `d` holds the string. -/
def Private (s : Strings) (d a : Nat) : Prop := ∀ x, s.vars x = some a → x = d

theorem Linked.private (linked : s.Linked) (is : s.heap a = some cell) (holds : s.vars d = some a)
    (one : ¬1 < cell.ref) : s.Private d a := by
  intro _ again
  by_contra other
  exact one (linked.shared is other again holds)

theorem Linked.put (linked : s.Linked) (is : s.heap a = some cell) (str : DisString) :
    (s.put a (some ⟨cell.ref, str⟩)).Linked where
  live := by
    intro x b holds
    by_cases same : b = a
    · subst same
      exact ⟨_, put_self s b _⟩
    · rw [put_of_ne s _ same]
      exact linked.live x b holds
  held := by
    intro b other isOther xs holders
    by_cases same : b = a
    · subst same
      rw [put_self] at isOther
      cases isOther
      exact linked.held b cell is xs holders
    · rw [put_of_ne s _ same] at isOther
      exact linked.held b other isOther xs holders
  fresh := by
    intro b above
    rw [put_of_ne s]
    · exact linked.fresh b above
    · rintro rfl
      rw [linked.fresh b above] at is
      cases is

theorem val_put_of_ne (hidden : s.Private d a) (other : x ≠ d) (c : Option Cell) :
    (s.put a c).val x = s.val x := by
  refine val_congr (s := s) rfl fun b holds => ?_
  rw [put_of_ne s]
  rintro rfl
  exact other (hidden x holds)

theorem val_put_self (holds : s.vars d = some a) (c : Cell) :
    (s.put a (some c)).val d = c.str.chars :=
  val_of_some (s := s.put a (some c)) holds (put_self s a _)

theorem Represented.put (represented : s.Represented) (c : Cell) (new : c.str.Represented) :
    (s.put a (some c)).Represented := by
  intro b other is
  by_cases same : b = a
  · subst same
    rw [put_self] at is
    cases is
    exact new
  · rw [put_of_ne s _ same] at is
    exact represented b other is

end Lemmas

end Strings

end Infernode.Dis
