import Infernode.Dis.Insc

/-!
Two strings joined.

Owns: what `addc` makes of the variables for every aliasing of its operands, and where it writes
behind the block of a string.
-/

namespace Infernode.Dis

open Program Text DisString

/-! ### The front and the back of the result -/

/-- A block for `l` runes that begins with those of a string. -/
structure Frontrunes (old : DisString) (l : Nat) (str : DisString) : Prop where
  fits : 2 * str.max ≤ str.room - 8
  enough : l ≤ str.max
  front : ∀ i, i < old.length → str.rune i = old.rune i

structure Frontchars (old : DisString) (l : Nat) (str : DisString) : Prop where
  fits : str.max ≤ str.room - 8
  enough : l ≤ str.max
  front : ∀ i, i < old.length → str.ascii i = old.ascii i

theorem le_grown (append : Bool) (l : Nat) : l ≤ grown append l := by
  unfold grown
  split
  · omega
  · exact Nat.le_refl l

section Ends

variable {pool : Pool} {s : Strings} {a1 a2 d ns l : Nat} {c1 c2 n : Cell} {append : Bool}
  {exc : Exn → Strings → Prop}

theorem frontrunes_ends {post : Nat → Strings → Prop} (is : s.heap a1 = some c1)
    (runes : c1.str.len < 0) (more : c1.str.length ≤ l)
    (same : append = true → l ≤ c1.str.max → post a1 s)
    (new : ∀ str, Frontrunes c1.str l str → post s.next (s.alloc str))
    (nomem : pool.Refuses → exc .exHeap s) :
    Ends (frontrunes pool a1 append l) s post exc := by
  have positive : c1.str.length ≠ 0 := by
    unfold DisString.length
    omega
  have atLeast := le_grown append l
  unfold frontrunes
  apply Ends.bind
  apply look_ends is
  by_cases room : append = true ∧ l ≤ c1.str.max
  · simp only [if_pos room]
    exact Ends.pure (same room.1 room.2)
  simp only [if_neg room]
  apply made_ends (newrunes_ends (by omega))
  · intro str blank
    have fits := blank.fits
    have enough := blank.enough
    have ⟨_, put⟩ := putrunes_eq_some (s := str) (o := 0) (n := c1.str.length)
      (f := c1.str.rune) (by omega)
    have written := written_putrunes put
    apply Ends.bind
    apply change_alloc_ends put
    apply Ends.pure
    apply new
    refine ⟨?_, ?_, ?_⟩
    · rw [written.max, written.room]
      exact fits
    · rw [written.max]
      omega
    · intro i _
      rw [rune_putrunes put, if_pos (by omega), Nat.sub_zero, Nat.mod_eq_of_lt (rune_lt _ i)]
  · exact nomem

theorem frontchars_ends {post : Nat → Strings → Prop} (is : s.heap a1 = some c1)
    (more : c1.str.length ≤ l) (same : append = true → l ≤ c1.str.max → post a1 s)
    (new : ∀ str, Frontchars c1.str l str → post s.next (s.alloc str))
    (nomem : pool.Refuses → exc .exHeap s) :
    Ends (frontchars pool a1 append l) s post exc := by
  have atLeast := le_grown append l
  unfold frontchars
  apply Ends.bind
  apply look_ends is
  by_cases room : append = true ∧ l ≤ c1.str.max
  · simp only [if_pos room]
    exact Ends.pure (same room.1 room.2)
  simp only [if_neg room]
  apply made_ends (newstring_ends _)
  · intro str blank
    have max := blank.max
    have enough := blank.enough
    have ⟨_, put⟩ := putascii_eq_some (s := str) (o := 0) (n := c1.str.length)
      (f := c1.str.ascii) (by omega)
    have written := written_putascii put
    apply Ends.bind
    apply change_alloc_ends put
    apply Ends.pure
    apply new
    refine ⟨?_, ?_, ?_⟩
    · rw [written.max, written.room]
      omega
    · rw [written.max]
      omega
    · intro i _
      rw [ascii_putascii put, if_pos (by omega), Nat.sub_zero, Nat.mod_eq_of_lt (ascii_lt _ i)]
  · exact nomem

variable {post : Unit → Strings → Prop}

/-- The second string, which is not the result, is copied behind the first. -/
theorem backrunes_ends {old : DisString} (is : s.heap ns = some n) (isOther : s.heap a2 = some c2)
    (apart : a2 ≠ ns) (runes : old.len < 0)
    (front : Frontrunes old (old.length + c2.str.length) n.str)
    (holds : ∀ str, str.chars = old.chars ++ c2.str.chars → str.Represented →
      post () (s.put ns (some ⟨n.ref, str⟩))) :
    Ends (backrunes ns a2 old.length (old.length + c2.str.length)) s post exc := by
  have positive : 0 < old.length := by
    unfold DisString.length
    omega
  have fits := front.fits
  have enough := front.enough
  have ⟨t, put, written, chars⟩ := join_runes
    (m := n.str.setlen (-(old.length + c2.str.length : Nat))) (n := c2.str.length)
    (f := c2.str.elem) old.chars c2.str.chars (by rw [length_chars]; rfl)
    (by rw [length_chars]; omega)
    (by
      rw [length_chars]
      show 2 * (old.length + c2.str.length) ≤ n.str.room
      omega) (length_chars _)
    (fun i below => by
      rw [length_chars] at below
      rw [getElem_chars_of_neg runes below, ← front.front i below]
      rfl)
    (fun j below => by rw [getElem_chars _ below, Nat.mod_eq_of_lt (elem_lt _ j)])
  rw [length_chars] at put
  unfold backrunes
  apply Ends.bind
  refine change_ends is rfl ?_
  apply Ends.bind
  refine look_ends ((Strings.put_of_ne s _ apart).trans isOther) ?_
  refine change_ends (Strings.put_self s ns _) put ?_
  rw [Strings.put_put]
  apply holds t chars
  have len : t.len = -(old.length + c2.str.length : Nat) := written.len
  apply Represented.of_runes (by omega)
  · rw [← length_chars, chars, List.length_append, length_chars, length_chars, written.max]
    exact enough
  · rw [written.max, written.room]
    exact fits

theorem backchars_ends {old : DisString} (is : s.heap ns = some n) (isOther : s.heap a2 = some c2)
    (apart : a2 ≠ ns) (ascii : 0 ≤ old.len) (represented : old.Represented)
    (asciiOther : 0 ≤ c2.str.len) (representedOther : c2.str.Represented)
    (front : Frontchars old (old.length + c2.str.length) n.str)
    (holds : ∀ str, str.chars = old.chars ++ c2.str.chars → str.Represented →
      post () (s.put ns (some ⟨n.ref, str⟩))) :
    Ends (backchars ns a2 old.length (old.length + c2.str.length)) s post exc := by
  have fits := front.fits
  have enough := front.enough
  have ⟨t, put, written, chars⟩ := join_chars
    (m := n.str.setlen (old.length + c2.str.length : Nat)) (n := c2.str.length)
    (f := c2.str.ascii) old.chars c2.str.chars (by rw [length_chars]; rfl)
    (by
      rw [length_chars]
      show old.length + c2.str.length ≤ n.str.room
      omega) (length_chars _)
    (fun i below => by
      rw [length_chars] at below
      rw [getElem_chars_of_nonneg ascii below, ← front.front i below]
      rfl)
    (fun j below => by
      rw [getElem_chars_of_nonneg asciiOther below, Nat.mod_eq_of_lt (ascii_lt _ j)])
  rw [length_chars] at put
  unfold backchars
  apply Ends.bind
  refine change_ends is rfl ?_
  apply Ends.bind
  refine look_ends ((Strings.put_of_ne s _ apart).trans isOther) ?_
  refine change_ends (Strings.put_self s ns _) put ?_
  rw [Strings.put_put]
  apply holds t chars
  have len : t.len = (old.length + c2.str.length : Nat) := written.len
  apply Represented.of_chars (by omega)
  · rw [← length_chars, chars, List.length_append, length_chars, length_chars, written.max]
    exact enough
  · rw [written.max, written.room]
    exact fits
  intro c member
  rw [chars] at member
  rcases List.mem_append.1 member with inFront | inBack
  · exact represented.below ascii c inFront
  · exact representedOther.below asciiOther c inBack

/-! ### A string behind itself -/

/-- Where a string is appended to itself its length is twice what it was when it is copied, so that
as much again is written behind the result. -/
theorem backrunes_self (is : s.heap a1 = some c1) (runes : c1.str.len < 0)
    (represented : c1.str.Represented) (enough : c1.str.length + c1.str.length ≤ c1.str.max)
    (fits : 2 * (3 * c1.str.length) ≤ c1.str.room)
    (holds : ∀ str, str.chars = c1.str.chars ++ c1.str.chars → str.Represented →
      post () (s.put a1 (some ⟨c1.ref, str⟩))) :
    Ends (backrunes a1 a1 c1.str.length (c1.str.length + c1.str.length)) s post exc := by
  have twice : (c1.str.setlen (-(c1.str.length + c1.str.length : Nat))).length =
      c1.str.length + c1.str.length := by
    show Int.natAbs (-(c1.str.length + c1.str.length : Nat)) = _
    omega
  have neg : (c1.str.setlen (-(c1.str.length + c1.str.length : Nat))).len < 0 := by
    show (-(c1.str.length + c1.str.length : Nat) : Int) < 0
    unfold DisString.length
    omega
  have ⟨t, put⟩ := putrunes_eq_some
    (s := c1.str.setlen (-(c1.str.length + c1.str.length : Nat))) (o := c1.str.length)
    (n := c1.str.length + c1.str.length) (f := c1.str.rune)
    (by show 2 * (c1.str.length + (c1.str.length + c1.str.length)) ≤ c1.str.room; omega)
  have written := written_putrunes put
  have chars : t.chars = c1.str.chars ++ c1.str.chars := by
    refine chars_append (chars_eq_of_neg ?_) ?_ ?_ ?_
    · rwa [written.len]
    · rw [written.length, twice, length_chars]
    · intro _ below
      rw [length_chars] at below
      rw [rune_putrunes put, if_neg (by omega), getElem_chars_of_neg runes below]
      rfl
    intro j below
    rw [length_chars] at below
    rw [rune_putrunes put, length_chars, if_pos (by omega), Nat.add_sub_cancel_left,
      Nat.mod_eq_of_lt (rune_lt _ j), getElem_chars_of_neg runes below]
  unfold backrunes
  apply Ends.bind
  refine change_ends is rfl ?_
  apply Ends.bind
  refine look_ends (Strings.put_self s a1 _) ?_
  refine change_ends (Strings.put_self s a1 _) (?_ : _ = some t) ?_
  · rw [twice, if_pos neg]
    exact put
  rw [Strings.put_put]
  apply holds t chars
  apply Represented.of_runes (by rwa [written.len])
  · rw [written.length, twice, written.max]
    exact enough
  · rw [written.max, written.room]
    exact represented.runes_fit runes

theorem backchars_self (is : s.heap a1 = some c1) (ascii : 0 ≤ c1.str.len)
    (represented : c1.str.Represented) (enough : c1.str.length + c1.str.length ≤ c1.str.max)
    (fits : 3 * c1.str.length ≤ c1.str.room)
    (holds : ∀ str, str.chars = c1.str.chars ++ c1.str.chars → str.Represented →
      post () (s.put a1 (some ⟨c1.ref, str⟩))) :
    Ends (backchars a1 a1 c1.str.length (c1.str.length + c1.str.length)) s post exc := by
  have twice : (c1.str.setlen (c1.str.length + c1.str.length : Nat)).length =
      c1.str.length + c1.str.length := by
    show Int.natAbs (c1.str.length + c1.str.length : Nat) = _
    omega
  have nonneg : 0 ≤ (c1.str.setlen (c1.str.length + c1.str.length : Nat)).len := by
    show (0 : Int) ≤ (c1.str.length + c1.str.length : Nat)
    omega
  have ⟨t, put⟩ := putascii_eq_some
    (s := c1.str.setlen (c1.str.length + c1.str.length : Nat)) (o := c1.str.length)
    (n := c1.str.length + c1.str.length) (f := c1.str.ascii)
    (by show c1.str.length + (c1.str.length + c1.str.length) ≤ c1.str.room; omega)
  have written := written_putascii put
  have chars : t.chars = c1.str.chars ++ c1.str.chars := by
    refine chars_append (chars_eq_of_nonneg ?_) ?_ ?_ ?_
    · rwa [written.len]
    · rw [written.length, twice, length_chars]
    · intro _ below
      rw [length_chars] at below
      rw [ascii_putascii put, if_neg (by omega), getElem_chars_of_nonneg ascii below]
      rfl
    intro j below
    rw [length_chars] at below
    rw [ascii_putascii put, length_chars, if_pos (by omega), Nat.add_sub_cancel_left,
      Nat.mod_eq_of_lt (ascii_lt _ j), getElem_chars_of_nonneg ascii below]
  unfold backchars
  apply Ends.bind
  refine change_ends is rfl ?_
  apply Ends.bind
  refine look_ends (Strings.put_self s a1 _) ?_
  refine change_ends (Strings.put_self s a1 _) (?_ : _ = some t) ?_
  · rw [twice]
    exact put
  rw [Strings.put_put]
  apply holds t chars
  apply Represented.of_chars (by rwa [written.len])
  · rw [written.length, twice, written.max]
    exact enough
  · rw [written.max, written.room]
    exact represented.max_le
  · intro c member
    rw [chars] at member
    exact represented.below ascii c (or_self_iff.1 (List.mem_append.1 member))

/-! ### The instruction -/

/-- A string that is appended to itself where its block has room for the result has it for as much
again. -/
def Fits (str : DisString) : Prop :=
  2 * str.length ≤ str.max → str.width * (3 * str.length) ≤ str.room

theorem addstrings_ends {post : Nat → Strings → Prop} (linked : s.Linked)
    (is1 : s.heap a1 = some c1) (is2 : s.heap a2 = some c2)
    (represented1 : c1.str.Represented) (represented2 : c2.str.Represented)
    (fits : append = true → a1 = a2 → Fits c1.str)
    (same : append = true → ∀ str, str.chars = c1.str.chars ++ c2.str.chars → str.Represented →
      post a1 (s.put a1 (some ⟨c1.ref, str⟩)))
    (new : ∀ str, str.chars = c1.str.chars ++ c2.str.chars → str.Represented →
      post s.next (s.alloc str))
    (nomem : pool.Refuses → exc .exHeap s) :
    Ends (addstrings pool a1 a2 append) s post exc := by
  have apart : a2 ≠ s.next := linked.ne_next is2
  have isAfter : ∀ str, (s.alloc str).heap a2 = some c2 := fun str =>
    (Strings.heap_alloc_of_ne s str apart).trans is2
  unfold addstrings
  apply Ends.bind
  apply look_ends is1
  apply Ends.bind
  apply look_ends is2
  by_cases runes : c1.str.len < 0
  · simp only [if_pos runes]
    apply Ends.bind
    apply frontrunes_ends is1 runes (Nat.le_add_right _ _)
    · intro appends enough
      apply Ends.bind
      by_cases self : a2 = a1
      · subst self
        rw [is1] at is2
        cases is2
        have three := fits appends rfl (by omega)
        rw [DisString.width, if_pos runes] at three
        exact backrunes_self is1 runes represented1 enough three fun str chars represented =>
          Ends.pure (same appends str chars represented)
      · exact backrunes_ends is1 is2 self runes
          ⟨represented1.runes_fit runes, enough, fun _ _ => rfl⟩
          fun str chars represented => Ends.pure (same appends str chars represented)
    · intro block front
      apply Ends.bind
      refine backrunes_ends (Strings.heap_alloc_self s block) (isAfter block) apart runes front
        fun str chars represented => Ends.pure ?_
      rw [Strings.put_alloc]
      exact new str chars represented
    · exact nomem
  · simp only [if_neg runes]
    have ascii : 0 ≤ c1.str.len := by omega
    by_cases runes2 : c2.str.len < 0
    · simp only [if_pos runes2]
      have positive : 0 < c2.str.length := by
        unfold DisString.length
        omega
      have atLeast := le_grown append (c1.str.length + c2.str.length)
      apply made_ends (newrunes_ends (by omega))
      · intro block blank
        have blockFits := blank.fits
        have enough := blank.enough
        obtain ⟨copied, putFront⟩ := putrunes_eq_some (o := 0) (n := c1.str.length)
          (s := block.setlen (-(c1.str.length + c2.str.length : Nat))) (f := c1.str.ascii)
          (by show 2 * (0 + c1.str.length) ≤ block.room; omega)
        have writtenFront := written_putrunes putFront
        have room : copied.room = block.room := writtenFront.room
        have max : copied.max = block.max := writtenFront.max
        have len : copied.len = -(c1.str.length + c2.str.length : Nat) := writtenFront.len
        obtain ⟨t, put, written, chars⟩ := join_runes (m := copied) (n := c2.str.length)
          (f := c2.str.rune) c1.str.chars c2.str.chars (by rw [length_chars]; exact len)
          (by omega) (by rw [length_chars]; omega) (length_chars _)
          (fun i below => by
            rw [length_chars] at below
            have small := ascii_lt c1.str i
            rw [rune_putrunes putFront, if_pos (by omega), Nat.sub_zero,
              Nat.mod_eq_of_lt (by omega)]
            exact getElem_chars_of_nonneg ascii below)
          (fun j below => by
            rw [getElem_chars_of_neg runes2 below, Nat.mod_eq_of_lt (rune_lt _ j)])
        rw [length_chars] at put
        apply Ends.bind
        refine change_alloc_ends rfl ?_
        apply Ends.bind
        refine change_alloc_ends (?_ : _ = some t) (Ends.pure (new t chars ?_))
        · rw [putFront]
          exact put
        apply Represented.of_runes
        · rw [written.len, len]
          omega
        · rw [written.length, written.max, max, DisString.length, len]
          omega
        · rw [written.max, written.room, max, room]
          exact blockFits
      · exact nomem
    · simp only [if_neg runes2]
      have ascii2 : 0 ≤ c2.str.len := by omega
      apply Ends.bind
      apply frontchars_ends is1 (Nat.le_add_right _ _)
      · intro appends enough
        apply Ends.bind
        by_cases self : a2 = a1
        · subst self
          rw [is1] at is2
          cases is2
          have three := fits appends rfl (by omega)
          rw [DisString.width, if_neg runes, Nat.one_mul] at three
          exact backchars_self is1 ascii represented1 enough three fun str chars represented =>
            Ends.pure (same appends str chars represented)
        · exact backchars_ends is1 is2 self ascii represented1 ascii2 represented2
            ⟨represented1.max_le, enough, fun _ _ => rfl⟩
            fun str chars represented => Ends.pure (same appends str chars represented)
      · intro block front
        apply Ends.bind
        refine backchars_ends (Strings.heap_alloc_self s block) (isAfter block) apart ascii
          represented1 ascii2 represented2 front fun str chars represented => Ends.pure ?_
        rw [Strings.put_alloc]
        exact new str chars represented
      · exact nomem

/-- What an instruction promises that puts a string into a variable. -/
def Gives (s : Strings) (d : Nat) (cs : Str) (t : Strings) : Prop :=
  Becomes s d cs t ∧ t.Represented

theorem store_new (linked : s.Linked) (all : s.Represented) {str : DisString} {cs : Str}
    (chars : str.chars = cs) (represented : str.Represented) :
    Ends (store d (some s.next)) (s.alloc str) (fun _ => Gives s d cs) exc := by
  subst chars
  exact (store_alloc_ends linked str).weaken
    (fun _ _ placed => ⟨placed.1, placed.2 all represented⟩) fun _ _ same => same

theorem store_stringdup {a : Nat} {cell : Cell} (linked : s.Linked) (all : s.Represented)
    (is : s.heap a = some cell) (nomem : pool.Refuses → exc .exHeap s) :
    Ends (stringdup pool (some a)) s
      (fun ns t => Ends (store d ns) t (fun _ => Gives s d cell.str.chars) exc) exc := by
  unfold stringdup
  apply made_ends (duplicate_ends is (all a cell is))
  · intro _ copy
    exact Ends.pure (store_new linked all copy.chars copy.represented)
  · exact nomem

def Appendable (s : Strings) (source middle d : Nat) : Prop :=
  middle = d → source = d → ∀ a cell, s.vars d = some a → s.heap a = some cell →
    ¬1 < cell.ref → Fits cell.str

theorem addc_ends {source middle : Nat} (linked : s.Linked) (all : s.Represented)
    (appendable : Appendable s source middle d) :
    Ends (addc pool source middle d) s (fun _ => Gives s d (s.val middle ++ s.val source))
      (Refused pool s False) := by
  have nomem : pool.Refuses → Refused pool s False .exHeap s := nomem_refused linked
  unfold addc
  apply Ends.bind
  apply Ends.get
  apply Ends.bind
  apply Ends.get
  apply Ends.bind
  cases first : s.vars middle with
  | none =>
    rw [Strings.val_of_none first, List.nil_append]
    cases second : s.vars source with
    | none =>
      rw [Strings.val_of_none second]
      apply Ends.pure
      apply store_ends linked
      · intro same
        exact ⟨⟨linked, fun _ _ => rfl, Strings.val_of_none same.symm⟩, all⟩
      · intro _
        exact ⟨becomes_none linked, all.replaced⟩
    | some a2 =>
      have ⟨c2, is2⟩ := linked.live source a2 second
      rw [Strings.val_of_some second is2]
      exact store_stringdup linked all is2 nomem
  | some a1 =>
    have ⟨c1, is1⟩ := linked.live middle a1 first
    have ready : (decide (middle = d) && !decide (1 < c1.ref)) = true →
        s.vars d = some a1 ∧ ¬1 < c1.ref := by
      intro appends
      have ⟨same, one⟩ := (Bool.and_eq_true _ _).mp appends
      rw [← of_decide_eq_true same]
      exact ⟨first, of_decide_eq_false (Bool.not_eq_true' _ |>.mp one)⟩
    rw [Strings.val_of_some first is1]
    apply Ends.bind
    apply look_ends is1
    cases second : s.vars source with
    | none =>
      rw [Strings.val_of_none second, List.append_nil]
      by_cases appends : (decide (middle = d) && !decide (1 < c1.ref)) = true
      · simp only [if_pos appends]
        have ⟨holds, one⟩ := ready appends
        apply Ends.pure
        apply store_ends linked
        · intro _
          exact ⟨⟨linked, fun _ _ => rfl, Strings.val_of_some holds is1⟩, all⟩
        · intro apart
          exact absurd holds.symm apart
      · simp only [if_neg appends]
        exact store_stringdup linked all is1 nomem
    | some a2 =>
      have ⟨c2, is2⟩ := linked.live source a2 second
      rw [Strings.val_of_some second is2]
      apply Ends.bind
      apply addstrings_ends linked is1 is2 (all a1 c1 is1) (all a2 c2 is2)
      · intro appends self
        have ⟨holds, one⟩ := ready appends
        rw [← self] at second
        have itself : source = d := linked.private is1 holds one source second
        have same : middle = d := linked.private is1 holds one middle first
        exact appendable same itself a1 c1 holds is1 one
      · intro appends str chars represented
        have ⟨holds, one⟩ := ready appends
        have hidden := linked.private is1 holds one
        apply Ends.pure
        rw [← chars]
        refine (store_put_ends ⟨linked, is1, hidden, Or.inl holds,
          Strings.val_of_some holds is1⟩ str).weaken (fun _ _ placed => ?_)
          fun _ _ same => same
        exact ⟨placed.1, placed.2 all represented⟩
      · intro _ chars represented
        exact Ends.pure (store_new linked all chars represented)
      · exact nomem

end Ends

end Infernode.Dis
