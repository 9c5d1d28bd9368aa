import Infernode.Dis.Addc

/-!
The instructions that give a variable a string of its own or one that another variable holds.

Owns: what `slicec`, `cvtac`, `cvtwc`, `cvtlc`, the copy and the move of a string make of the
variables.
-/

namespace Infernode.Dis

open Program Text DisString List

section Ends

variable {pool : Pool} {s : Strings} {a d : Nat} {cell : Cell} {exc : Exn → Strings → Prop}

variable {cs : Str} {start v : Nat}

theorem replace_new (linked : s.Linked) (all : s.Represented) {str : DisString}
    (chars : str.chars = cs) (represented : str.Represented) :
    Ends (replace d (some s.next)) (s.alloc str) (fun _ => Gives s d cs) exc := by
  subst chars
  apply replace_ends (linked.alloc str)
  exact ⟨becomes_alloc linked str, (all.alloc represented).replaced⟩

theorem replace_none (linked : s.Linked) (all : s.Represented) :
    Ends (replace d none) s (fun _ => Gives s d []) exc := by
  apply replace_ends linked
  exact ⟨becomes_none linked, all.replaced⟩

/-! ### Slices -/

/-- The characters from `start` up to `v`. -/
def slice (start v : Nat) (cs : Str) : Str := (cs.take v).drop start

theorem length_slice (inside : v ≤ cs.length) : (slice start v cs).length = v - start := by
  rw [slice, length_drop, length_take, Nat.min_eq_left inside]

theorem getElem_slice {i : Nat} (below : i < v - start) :
    (slice start v cs)[i]? = cs[start + i]? := by
  rw [slice, getElem?_drop, getElem?_take, if_pos (by omega)]

theorem slice_eq_nil (none : v ≤ start) : slice start v cs = [] := by
  rw [slice, drop_eq_nil_iff, length_take]
  omega

def Sliced (s : Strings) (start v d : Nat) (t : Strings) : Prop :=
  (start ≤ v ∧ v ≤ (s.val d).length) ∧ Gives s d (slice start v (s.val d)) t

theorem slicec_ends (linked : s.Linked) (all : s.Represented) :
    Ends (slicec pool start v d) s (fun _ => Sliced s start v d)
      (Refused pool s ¬(start ≤ v ∧ v ≤ (s.val d).length)) := by
  unfold slicec
  apply Ends.bind
  apply Ends.get
  apply Ends.bind
  cases holds : s.vars d with
  | none =>
    have nothing : s.val d = [] := Strings.val_of_none holds
    unfold slicer
    by_cases inside : start = 0 ∧ v = 0
    · simp only [if_pos inside]
      obtain ⟨rfl, rfl⟩ := inside
      apply Ends.pure
      refine (replace_none linked all).weaken (fun _ t gives => ⟨?_, ?_⟩) fun _ _ same => same
      · exact ⟨Nat.le_refl 0, Nat.zero_le _⟩
      · rwa [nothing]
    · simp only [if_neg inside]
      apply Ends.raise
      refine ⟨linked.unchanged, id, fun _ => ?_, nofun⟩
      rw [nothing, length_nil]
      omega
  | some a =>
    have ⟨cell, is⟩ := linked.live d a holds
    have value : s.val d = cell.str.chars := Strings.val_of_some holds is
    have count : (s.val d).length = cell.str.length := by rw [value, length_chars]
    have represented := all a cell is
    unfold slicer
    apply Ends.bind
    apply look_ends is
    by_cases outside : v < start ∨ cell.str.length < v
    · simp only [if_pos outside]
      apply Ends.raise
      exact ⟨linked.unchanged, id, fun _ => by omega, nofun⟩
    simp only [if_neg outside]
    have bounds : start ≤ v ∧ v ≤ (s.val d).length := by omega
    by_cases zero : v - start = 0
    · simp only [if_pos zero]
      apply Ends.pure
      refine (replace_none linked all).weaken (fun _ t gives => ⟨bounds, ?_⟩)
        fun _ _ same => same
      rwa [slice_eq_nil (by omega)]
    simp only [if_neg zero]
    have length : (slice start v (s.val d)).length = v - start := length_slice bounds.2
    by_cases runes : cell.str.len < 0
    · simp only [if_pos runes]
      apply made_ends (newrunes_ends zero)
      · intro block blank
        obtain ⟨str, put, chars, represented', -⟩ := fill_runes
          (f := fun i => cell.str.rune (start + i)) zero length (fun i below => by
            rw [getElem_slice below, value, getElem_chars_of_neg runes (by omega),
              Nat.mod_eq_of_lt (rune_lt _ _)]) blank
        apply Ends.bind
        apply change_alloc_ends put
        apply Ends.pure
        exact (replace_new linked all chars represented').weaken
          (fun _ _ gives => ⟨bounds, gives⟩) fun _ _ same => same
      · exact nomem_refused linked
    · simp only [if_neg runes]
      have ascii : 0 ≤ cell.str.len := by omega
      apply made_ends (newstring_ends _)
      · intro _ blank
        obtain ⟨_, put, chars, represented', -⟩ := fill_chars
          (f := fun i => cell.str.ascii (start + i)) length (fun i below => by
            rw [getElem_slice below, value, getElem_chars_of_nonneg ascii (by omega)])
          (fun i below => represented.chars ascii _ (by omega)) blank
        apply Ends.bind
        apply change_alloc_ends put
        apply Ends.pure
        exact (replace_new linked all chars represented').weaken
          (fun _ _ gives => ⟨bounds, gives⟩) fun _ _ same => same
      · exact nomem_refused linked

/-! ### Conversions -/

structure Spells (cs : Str) (str : DisString) : Prop where
  chars : str.chars = cs
  represented : str.Represented

/-- The characters that the bytes of an array stand for. -/
def decoded (cs : List UInt8) : Str :=
  let bytes := cs.map UInt8.toNat
  if bytes.all fun c => decide (c < 0x80) then bytes else Lib9.c2string bytes

theorem c2string_ends (cs : List UInt8) :
    Ends (c2string pool cs) s (Made s (Spells (decoded cs))) (Nomem pool s) := by
  unfold c2string decoded
  generalize bytes : cs.map UInt8.toNat = bs
  have count : bs.length = cs.length := by rw [← bytes, length_map]
  by_cases ascii : (bs.all fun c => decide (c < 0x80)) = true
  · simp only [if_pos ascii]
    apply fill_ends (newstring_ends _)
    intro block blank
    have each : ∀ i, i < cs.length → bs[i]? = some (bs.getD i 0) := by
      intro i below
      rw [getD_eq_getElem?_getD, getElem?_eq_getElem (by omega)]
      rfl
    obtain ⟨str, put, chars, represented, -⟩ := fill_chars (f := fun i => bs.getD i 0) count each
      (fun i below =>
        of_decide_eq_true (all_eq_true.1 ascii _ (mem_of_getElem? (each i below)))) blank
    exact ⟨str, put, chars, represented⟩
  · simp only [if_neg ascii]
    generalize read : Lib9.c2string bs = runes
    have all : Lib9.Runes runes := read ▸ Lib9.runes_c2string bs
    by_cases none : runes.length = 0
    · -- what is left of a rune that is cut off is no rune
      have empty : runes = [] := eq_nil_of_length_eq_zero none
      subst empty
      apply fill_ends (newstring_ends 0)
      intro block blank
      have ⟨str, put⟩ := putrunes_eq_some (s := block) (o := 0) (n := 0)
        (f := fun i => ([] : Str).getD i 0) (Nat.zero_le _)
      have written := written_putrunes put
      have zero : str.len = 0 := written.len.trans blank.len
      have max := blank.max
      refine ⟨str, put, chars_of_zero zero, represented_of_zero zero ?_⟩
      rw [written.max, written.room]
      omega
    · apply fill_ends (newrunes_ends none)
      intro _ blank
      obtain ⟨str, put, chars, represented, -⟩ := fill_runes (f := fun i => runes.getD i 0) none
        rfl (fun i below => by
          have is : runes[i]? = some (runes.getD i 0) := by
            rw [getD_eq_getElem?_getD, getElem?_eq_getElem below]
            rfl
          rw [is, Nat.mod_eq_of_lt (all _ (mem_of_getElem? is))]) blank
      exact ⟨str, put, chars, represented⟩

theorem cvtac_ends (linked : s.Linked) (all : s.Represented) (cs : Option (List UInt8)) :
    Ends (cvtac pool cs d) s (fun _ => Gives s d (cs.elim [] decoded))
      (Refused pool s False) := by
  cases cs with
  | none => exact replace_none linked all
  | some cs =>
    apply made_ends (c2string_ends cs)
    · intro _ holds
      exact replace_new linked all holds.chars holds.represented
    · exact nomem_refused linked

/-- What is printed fits into the least block there is. -/
theorem printed_ends {text : Str} (linked : s.Linked) (all : s.Represented)
    (short : text.length ≤ 20) (ascii : ∀ c ∈ text, c < 0x80) :
    Ends (printed pool text d) s (fun _ => Gives s d text) (Refused pool s False) := by
  unfold printed
  apply made_ends (newstring_ends 16)
  · intro block blank
    have max := blank.max
    have some := blank.some
    have ⟨str, put⟩ := putascii_eq_some (s := block.setlen text.length) (o := 0)
      (n := text.length + 1) (f := fun i => text.getD i 0)
      (by show 0 + (text.length + 1) ≤ block.room; omega)
    have written := written_putascii put
    have len : str.len = text.length := written.len
    have maxEq : str.max = block.max := written.max
    have roomEq : str.room = block.room := written.room
    have nonneg : 0 ≤ str.len := by omega
    have length : str.length = text.length := by
      rw [DisString.length, len]
      rfl
    have chars : str.chars = text := by
      refine chars_eq_of_nonneg nonneg length fun i below => ?_
      have is : text[i]? = Option.some (text.getD i 0) := by
        rw [getD_eq_getElem?_getD, getElem?_eq_getElem below]
        rfl
      have small := ascii _ (mem_of_getElem? is)
      rw [ascii_putascii put, if_pos (by omega), Nat.sub_zero, Nat.mod_eq_of_lt (by omega), is]
    apply Ends.bind
    refine change_alloc_ends ?_ (replace_new linked all chars ?_)
    · rw [putascii_setlen]
      exact put
    · apply Represented.of_chars nonneg (by omega) (by omega)
      rwa [chars]
  · exact nomem_refused linked

theorem decimal_ascii (n : Int) : ∀ c ∈ decimal n, c < 0x80 := by
  intro _ member
  rcases mem_decimal member with digit | minus
  · have bounds := isDigit_bounds digit
    omega
  · omega

theorem cvtwc_ends (linked : s.Linked) (all : s.Represented) (w : BitVec 64) :
    Ends (cvtwc pool w d) s (fun _ => Gives s d (decimal (w.setWidth 32).toInt))
      (Refused pool s False) := by
  apply printed_ends linked all _ (decimal_ascii _)
  apply length_decimal_le (by decide)
  have below := (w.setWidth 32).toInt_lt
  have above := (w.setWidth 32).le_toInt
  omega

theorem cvtlc_ends (linked : s.Linked) (all : s.Represented) (v : BitVec 64) :
    Ends (cvtlc pool v d) s (fun _ => Gives s d (decimal v.toInt)) (Refused pool s False) := by
  apply printed_ends linked all _ (decimal_ascii _)
  apply length_decimal_le (by decide)
  have below := v.toInt_lt
  have above := v.le_toInt
  omega

/-! ### Copies and moves -/

theorem dup_ends {source : Nat} (linked : s.Linked) (all : s.Represented) :
    Ends (dup pool source d) s (fun _ => Gives s d (s.val source)) (Refused pool s False) := by
  unfold dup
  apply Ends.bind
  apply Ends.get
  apply Ends.bind
  cases holds : s.vars source with
  | none =>
    rw [Strings.val_of_none holds]
    exact Ends.pure (replace_none linked all)
  | some a =>
    have ⟨cell, is⟩ := linked.live source a holds
    rw [Strings.val_of_some holds is]
    apply made_ends (duplicate_ends is (all a cell is))
    · intro _ copy
      exact Ends.pure (replace_new linked all copy.chars copy.represented)
    · exact nomem_refused linked

/-- One more reference to a string is one to spare. -/
theorem linked_more (linked : s.Linked) (is : s.heap a = some cell) :
    (s.put a (some { cell with ref := cell.ref + 1 })).Linked ∧
      (s.put a (some { cell with ref := cell.ref + 1 })).Spare a := by
  have count := linked.held a cell is
  refine ⟨⟨?_, ?_, ?_⟩, ⟨_, Strings.put_self s a _, fun xs holders => ?_⟩⟩
  · intro x b holds
    by_cases same : b = a
    · subst same
      exact ⟨_, Strings.put_self s b _⟩
    · rw [Strings.put_of_ne s _ same]
      exact linked.live x b holds
  · intro b other isOther xs holders
    by_cases same : b = a
    · subst same
      rw [Strings.put_self] at isOther
      cases isOther
      exact Nat.le_succ_of_le (count xs holders)
    · rw [Strings.put_of_ne s _ same] at isOther
      exact linked.held b other isOther xs holders
  · intro b above
    rw [Strings.put_of_ne s]
    · exact linked.fresh b above
    · rintro rfl
      rw [linked.fresh b above] at is
      cases is
  · exact Nat.lt_succ_of_le (count xs holders)

theorem movp_ends {source : Nat} (linked : s.Linked) (all : s.Represented) :
    Ends (movp source d) s (fun _ => Gives s d (s.val source)) exc := by
  unfold movp
  apply Ends.bind
  apply Ends.get
  cases holds : s.vars source with
  | none =>
    rw [Strings.val_of_none holds]
    apply Ends.bind
    apply Ends.pure
    apply Ends.bind
    apply Ends.get
    apply Ends.bind
    apply Ends.modify
    refine destroy_ends (fun b holds => linked.live d b holds) ?_
    rw [Strings.drop_assign]
    exact ⟨becomes_none linked, all.replaced⟩
  | some a =>
    have ⟨cell, is⟩ := linked.live source a holds
    rw [Strings.val_of_some holds is]
    have ⟨linked', spare⟩ := linked_more linked is
    have more : Unchanged s (s.put a (some { cell with ref := cell.ref + 1 })) := by
      refine ⟨linked', fun x => Strings.val_congr (s := s) rfl fun b _ => ?_⟩
      by_cases same : b = a
      · subst same
        rw [Strings.put_self, is]
        rfl
      · rw [Strings.put_of_ne s _ same]
    have all' := all.put (a := a) { cell with ref := cell.ref + 1 } (all a cell is)
    apply Ends.bind
    apply Ends.attempt
    · rw [is]
      rfl
    apply Ends.bind
    apply Ends.get
    apply Ends.bind
    apply Ends.modify
    refine destroy_ends (fun b holds => linked'.live d b holds) ?_
    rw [Strings.drop_assign]
    exact ⟨(becomes_replaced linked' spare (Strings.put_self s a _)).after more,
      all'.replaced⟩

end Ends

end Infernode.Dis
