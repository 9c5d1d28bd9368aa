import Infernode.Dis.Newstring

/-!
A character put into a string.

Owns: what `insc` makes of the variables, and for which characters it makes what it should.
-/

namespace Infernode.Dis

open Program Text DisString

/-! ### The variables after an instruction -/

/-- One variable stands for these characters now, and the others for what they did. -/
structure Becomes (s : Strings) (d : Nat) (cs : Str) (t : Strings) : Prop where
  linked : t.Linked
  others : ∀ x, x ≠ d → t.val x = s.val x
  value : t.val d = cs

structure Unchanged (s t : Strings) : Prop where
  linked : t.Linked
  values : ∀ x, t.val x = s.val x

variable {s : Strings}

theorem Strings.Linked.unchanged (linked : s.Linked) : Unchanged s s :=
  ⟨linked, fun _ => rfl⟩

variable {t u : Strings} {cs : Str}

theorem Becomes.after {d : Nat} (first : Unchanged s t) (second : Becomes t d cs u) :
    Becomes s d cs u :=
  ⟨second.linked, fun x other => (second.others x other).trans (first.values x), second.value⟩

theorem Unchanged.after (first : Unchanged s t) (second : Unchanged t u) : Unchanged s u :=
  ⟨second.linked, fun x => (second.values x).trans (first.values x)⟩

section Instructions

variable {pool : Pool} {s : Strings} {a d : Nat} {cell : Cell} {str : DisString}

/-- What a variable holds makes way for a string that is not counted yet. -/
theorem becomes_replaced (linked : s.Linked) (spare : s.Spare a) (is : s.heap a = some cell) :
    Becomes s d cell.str.chars (s.replaced d (some a)) where
  linked := linked.replaced fun b same => by
    cases same
    exact spare
  others := fun _ other => Strings.val_replaced_of_ne linked other
  value := Strings.val_replaced_some spare is

theorem becomes_none (linked : s.Linked) : Becomes s d [] (s.replaced d none) where
  linked := linked.replaced fun b same => by cases same
  others := fun _ other => Strings.val_replaced_of_ne linked other
  value := Strings.val_replaced_none s d

theorem unchanged_alloc (linked : s.Linked) (str : DisString) : Unchanged s (s.alloc str) :=
  ⟨linked.alloc str, Strings.val_alloc linked str⟩

/-- A new string takes the place of what a variable held. -/
theorem becomes_alloc (linked : s.Linked) (str : DisString) :
    Becomes s d str.chars ((s.alloc str).replaced d (some s.next)) :=
  Becomes.after (unchanged_alloc linked str) <|
    becomes_replaced (linked.alloc str) (Strings.spare_alloc linked str)
      (Strings.heap_alloc_self s str)

variable {exc : Exn → Strings → Prop} {r : Int} {v c : Nat} {expand : Bool}

variable {post : Unit → Strings → Prop} {sound : Prop}

theorem replace_ends {v : Option Nat} (linked : s.Linked) (holds : post () (s.replaced d v)) :
    Ends (replace d v) s post exc := by
  unfold replace
  apply Ends.bind
  apply Ends.get
  apply Ends.bind
  apply destroy_ends (linked.live d)
  exact Ends.modify holds

theorem store_ends {v : Option Nat} (linked : s.Linked) (same : v = s.vars d → post () s)
    (new : v ≠ s.vars d → post () (s.replaced d v)) : Ends (store d v) s post exc := by
  unfold store
  apply Ends.bind
  apply Ends.get
  split
  · rename_i other
    apply Ends.bind
    apply destroy_ends (linked.live d)
    exact Ends.modify (new other)
  · rename_i other
    exact Ends.pure (same (not_not.1 other))

/-- The string is one that the variable holds alone, or a new one for it to take. -/
structure Ready (s : Strings) (d a : Nat) (cell : Cell) : Prop where
  linked : s.Linked
  is : s.heap a = some cell
  hidden : s.Private d a
  kept : s.vars d = some a ∨ 1 ≤ cell.ref
  value : s.val d = cell.str.chars

/-- What an instruction that changes a string promises. -/
def Placed (s : Strings) (d : Nat) (str : DisString) (t : Strings) : Prop :=
  Becomes s d str.chars t ∧ (s.Represented → str.Represented → t.Represented)

theorem store_put_ends (ready : Ready s d a cell) (str : DisString) :
    Ends (store d (some a)) (s.put a (some ⟨cell.ref, str⟩)) (fun _ => Placed s d str) exc := by
  obtain ⟨linked, is, hidden, kept, -⟩ := ready
  have others : ∀ x, x ≠ d → (s.put a (some ⟨cell.ref, str⟩)).val x = s.val x :=
    fun x other => Strings.val_put_of_ne hidden other _
  apply store_ends (linked.put is str)
  · intro same
    exact ⟨⟨linked.put is str, others, Strings.val_put_self (s := s) same.symm ⟨cell.ref, str⟩⟩,
      fun all new => all.put ⟨cell.ref, str⟩ new⟩
  intro apart
  have unheld : ∀ x, s.vars x ≠ some a := by
    intro x holds
    rw [hidden x holds] at holds
    exact apart holds.symm
  have positive : 1 ≤ cell.ref := kept.resolve_left (unheld d)
  have spare : (s.put a (some ⟨cell.ref, str⟩)).Spare a := by
    refine ⟨_, Strings.put_self s a _, fun xs holders => ?_⟩
    cases xs with
    | nil => exact positive
    | cons x _ => exact absurd (holders.2 x (.head _)) (unheld x)
  have replaced := becomes_replaced (d := d) (linked.put is str) spare
    (Strings.put_self s a (some ⟨cell.ref, str⟩))
  exact ⟨⟨replaced.linked, fun x other => (replaced.others x other).trans (others x other),
    replaced.value⟩, fun all new => (all.put ⟨cell.ref, str⟩ new).replaced⟩

theorem place_ends {f : DisString → Option DisString} (ready : Ready s d a cell)
    (put : f cell.str = some str) :
    Ends (do change a f; store d (some a)) s (fun _ => Placed s d str) exc := by
  apply Ends.bind
  apply change_ends ready.is put
  exact store_put_ends ready str

theorem store_alloc_ends (linked : s.Linked) (str : DisString) :
    Ends (store d (some s.next)) (s.alloc str) (fun _ => Placed s d str) exc := by
  apply store_ends (linked.alloc str)
  · intro same
    have ⟨_, is⟩ := linked.live d _ same.symm
    exact absurd rfl (linked.ne_next is)
  · exact fun _ => ⟨becomes_alloc linked str, fun all new => (all.alloc new).replaced⟩

/-! ### The ends of the instruction -/

/-- A character at the index, or behind the last. -/
def putAt (v c : Nat) (cs : Str) : Str := if v < cs.length then cs.set v c else cs ++ [c]

/-- The character that is stored is the one that is asked for when that is a rune. -/
def Storedchar (r : Int) (c : Nat) : Prop := (c : Int) = r ↔ 0 ≤ r ∧ r < 65536

/-- What `insc` promises from where it has a string to change. -/
def Inserted (s : Strings) (d v : Nat) (r : Int) (sound : Prop) (t : Strings) : Prop :=
  v ≤ (s.val d).length ∧ (∃ c, Storedchar r c ∧ Becomes s d (putAt v c (s.val d)) t) ∧
    (s.Represented → sound → t.Represented)

/-- Where an instruction raises an exception no variable changes; `outside` is when the index is
out of bounds. -/
structure Refused (pool : Pool) (s : Strings) (outside : Prop) (e : Exn) (t : Strings) :
    Prop where
  unchanged : Unchanged s t
  represented : s.Represented → t.Represented
  bounds : e = .exBounds → outside
  heap : e = .exHeap → pool.Refuses

theorem nomem_refused {outside : Prop} (linked : s.Linked) (refuses : pool.Refuses) :
    Refused pool s outside .exHeap s :=
  ⟨linked.unchanged, id, nofun, fun _ => refuses⟩

theorem storedchar_rune (r : Int) : Storedchar r ((r % 65536).toNat % 65536) := by
  unfold Storedchar
  omega

theorem storedchar_char (below : r < 0x80) : Storedchar r ((r % 256).toNat % 256) := by
  unfold Storedchar
  omega

theorem putAt_of_lt (inside : v < cs.length) : putAt v c cs = cs.set v c :=
  if_pos inside

theorem putAt_length (c : Nat) (cs : Str) : putAt cs.length c cs = cs ++ [c] :=
  if_neg (Nat.lt_irrefl _)

theorem Placed.inserted (placed : Placed s d str t) (value : s.val d = cell.str.chars)
    (atMost : v ≤ cell.str.length) (chars : str.chars = putAt v c cell.str.chars)
    (stored : Storedchar r c) (represented : sound → str.Represented) :
    Inserted s d v r sound t := by
  refine ⟨?_, ⟨c, stored, ?_⟩, fun all holds => placed.2 all (represented holds)⟩
  · rwa [value, length_chars]
  · rw [value, ← chars]
    exact placed.1

theorem inscrunes_ends {v : Nat} {r : Int} (ready : Ready s d a cell) (runes : cell.str.len ≤ 0)
    (short : cell.str.length ≤ cell.str.max)
    (fits : cell.str.width * cell.str.max ≤ cell.str.room - 8) :
    Ends (inscrunes pool d a cell.str.length v r) s
      (fun _ => Inserted s d v r (2 * cell.str.max ≤ cell.str.room - 8)) (Refused pool s ((s.val d).length < v)) := by
  have value := ready.value
  have room : ∀ i, i < cell.str.max → i ≤ cell.str.length → 2 * (i + 1) ≤ cell.str.room := by
    intro i below within
    unfold DisString.width at fits
    split at fits
    · omega
    -- an empty string has room for a rune, whatever its `max` counts
    have empty : cell.str.length = 0 := by
      unfold DisString.length
      omega
    omega
  unfold inscrunes
  apply Ends.bind
  apply look_ends ready.is
  by_cases inside : v < cell.str.length
  · simp only [if_pos inside]
    have neg : cell.str.len < 0 := by
      unfold DisString.length at inside
      omega
    have ⟨t, put, written, chars⟩ :=
      set_rune (c := (r % 65536).toNat) neg (room v (by omega) (by omega))
    refine (place_ends ready put).weaken (fun _ u placed => ?_) fun _ _ refused => refused
    rw [← putAt_of_lt (by rwa [length_chars])] at chars
    refine placed.inserted value (by omega) chars (storedchar_rune r) fun sound => ?_
    refine Represented.of_runes (by rwa [written.len]) ?_ ?_
    · rw [written.length, written.max]
      exact short
    · rw [written.max, written.room]
      exact sound
  · by_cases last : v = cell.str.length ∧ v < cell.str.max
    · simp only [if_neg inside, if_pos last]
      obtain ⟨rfl, below⟩ := last
      have ⟨t, put, written, chars⟩ := join_runes (m := cell.str.setlen (-(cell.str.length + 1)))
        (n := 1) (f := fun _ => (r % 65536).toNat) cell.str.chars [(r % 65536).toNat % 65536]
        (by rw [length_chars]; rfl) (by omega)
        (by rw [length_chars]; exact room _ below (Nat.le_refl _)) rfl
        (fun i within => by
          rw [length_chars] at within
          have neg : cell.str.len < 0 := by
            unfold DisString.length at within
            omega
          exact getElem_chars_of_neg neg within)
        (fun j within => by
          have zero : j = 0 := by omega
          rw [zero]
          rfl)
      rw [length_chars] at put
      refine (place_ends ready put).weaken (fun _ u placed => ?_) fun _ _ refused => refused
      rw [← putAt_length, length_chars] at chars
      refine placed.inserted value (Nat.le_refl _) chars (storedchar_rune r) fun sound => ?_
      have len : t.len = -(cell.str.length + 1) := written.len
      refine Represented.of_runes (by omega) ?_ ?_
      · have max : t.max = cell.str.max := written.max
        unfold DisString.length at *
        omega
      · rw [written.max, written.room]
        exact sound
    · by_cases other : v ≠ cell.str.length
      · simp only [if_neg inside, if_neg last, if_pos other]
        apply Ends.raise
        refine ⟨ready.linked.unchanged, id, fun _ => ?_, nofun⟩
        rw [value, length_chars]
        omega
      simp only [if_neg inside, if_neg last, if_neg other]
      have same : v = cell.str.length := not_not.1 other
      subst same
      apply made_ends (newstring_ends _)
      · intro _ blank
        have ⟨t, put, chars, represented⟩ := grow_runes (c := (r % 65536).toNat)
          (by omega) blank.max blank.enough runes
        apply Ends.bind
        apply change_alloc_ends put
        refine (store_alloc_ends ready.linked t).weaken (fun _ u placed => ?_)
          fun _ _ refused => refused
        rw [← putAt_length, length_chars] at chars
        exact placed.inserted value (Nat.le_refl _) chars (storedchar_rune r) fun _ => represented
      · exact nomem_refused ready.linked

theorem putAt_below (all : ∀ b ∈ cs, b < 0x80) (small : c < 0x80) :
    ∀ b ∈ putAt v c cs, b < 0x80 := by
  intro b member
  unfold putAt at member
  split at member
  · rcases List.mem_or_eq_of_mem_set member with old | new
    · exact all b old
    · rw [new]
      exact small
  rcases List.mem_append.1 member with old | new
  · exact all b old
  · rw [List.mem_singleton.1 new]
    exact small

theorem inscascii_ends {v : Nat} {r : Int} (ready : Ready s d a cell) (ascii : 0 ≤ cell.str.len)
    (represented : cell.str.Represented) (below : r < 0x80) :
    Ends (inscascii pool d a cell.str.length v r) s
      (fun _ => Inserted s d v r (r % 256 < 0x80)) (Refused pool s ((s.val d).length < v)) := by
  have value := ready.value
  have short := represented.short
  have fits := represented.max_le
  have sound : ∀ t : DisString, 0 ≤ t.len → t.length ≤ t.max → t.max ≤ t.room - 8 →
      t.chars = putAt v ((r % 256).toNat % 256) cell.str.chars → r % 256 < 0x80 →
      t.Represented := by
    intro t nonneg shortT fitsT chars _
    apply Represented.of_chars nonneg shortT fitsT
    rw [chars]
    exact putAt_below (represented.below ascii) (by omega)
  unfold inscascii
  apply Ends.bind
  apply look_ends ready.is
  by_cases inside : v < cell.str.length
  · simp only [if_pos inside]
    obtain ⟨t, put, written, chars⟩ := set_char (v := v) (c := (r % 256).toNat) ascii (by omega)
    refine (place_ends ready put).weaken (fun _ u placed => ?_) fun _ _ refused => refused
    rw [← putAt_of_lt (by rwa [length_chars])] at chars
    refine placed.inserted value (by omega) chars (storedchar_char below) (sound t ?_ ?_ ?_ chars)
    · rwa [written.len]
    · rw [written.length, written.max]
      exact short
    · rw [written.max, written.room]
      exact fits
  · by_cases last : v = cell.str.length ∧ v < cell.str.max
    · simp only [if_neg inside, if_pos last]
      obtain ⟨rfl, _⟩ := last
      obtain ⟨t, put, written, chars⟩ := join_chars (m := cell.str.setlen (cell.str.length + 1))
        (n := 1) (f := fun _ => (r % 256).toNat) cell.str.chars [(r % 256).toNat % 256]
        (by rw [length_chars]; rfl)
        (by
          rw [length_chars]
          show cell.str.length + 1 ≤ cell.str.room
          omega) rfl
        (fun i within => by
          rw [length_chars] at within
          exact getElem_chars_of_nonneg ascii within)
        (fun j within => by
          have zero : j = 0 := by omega
          rw [zero]
          rfl)
      rw [length_chars] at put
      refine (place_ends ready put).weaken (fun _ u placed => ?_) fun _ _ refused => refused
      rw [← putAt_length, length_chars] at chars
      have len : t.len = cell.str.length + 1 := written.len
      have max : t.max = cell.str.max := written.max
      have roomEq : t.room = cell.str.room := written.room
      have length : t.length = cell.str.length + 1 := by
        unfold DisString.length at len ⊢
        omega
      refine placed.inserted value (Nat.le_refl _) chars (storedchar_char below)
        (sound t ?_ ?_ ?_ chars)
      · omega
      · omega
      · omega
    · by_cases other : v ≠ cell.str.length
      · simp only [if_neg inside, if_neg last, if_pos other]
        apply Ends.raise
        refine ⟨ready.linked.unchanged, id, fun _ => ?_, nofun⟩
        rw [value, length_chars]
        omega
      simp only [if_neg inside, if_neg last, if_neg other]
      have same : v = cell.str.length := not_not.1 other
      subst same
      apply made_ends (newstring_ends _)
      · intro _ blank
        obtain ⟨t, put, chars, len, _, _⟩ := grow_chars (c := (r % 256).toNat)
          (by omega) blank.max blank.enough ascii
        apply Ends.bind
        apply change_alloc_ends put
        refine (store_alloc_ends ready.linked t).weaken (fun _ u placed => ?_)
          fun _ _ refused => refused
        rw [← putAt_length, length_chars] at chars
        have freshMax := blank.max
        have enough := blank.enough
        have length : t.length = cell.str.length + 1 := by
          unfold DisString.length at len ⊢
          omega
        refine placed.inserted value (Nat.le_refl _) chars (storedchar_char below)
          (sound t ?_ ?_ ?_ chars)
        · omega
        · omega
        · omega
      · exact nomem_refused ready.linked

/-! ### The instruction -/

/-- A string, in runes where it is expanded. -/
structure Split (old : DisString) (expand : Bool) (str : DisString) : Prop where
  chars : str.chars = old.chars
  represented : str.Represented
  runes : str.len < 0 ↔ old.len < 0 ∨ (expand = true ∧ 0 < old.len)

theorem splitcopy_ends (is : s.heap a = some cell) (represented : cell.str.Represented) :
    Ends (splitcopy pool a expand) s (Made s (Split cell.str expand)) (Nomem pool s) := by
  unfold splitcopy
  apply Ends.bind
  apply look_ends is
  by_cases expands : expand = true ∧ 0 < cell.str.len
  · simp only [if_pos expands]
    have positive : cell.str.length ≠ 0 := by
      unfold DisString.length
      omega
    have ascii : 0 ≤ cell.str.len := by omega
    apply fill_ends (newrunes_ends positive)
    intro str blank
    have ⟨str', put, chars, represented', neg⟩ := fill_runes (f := cell.str.ascii) positive
      (length_chars cell.str) (fun i below => by
        have small := ascii_lt cell.str i
        rw [getElem_chars_of_nonneg ascii below, Nat.mod_eq_of_lt (by omega)]) blank
    exact ⟨str', put, chars, represented', fun _ => Or.inr expands, fun _ => neg⟩
  · simp only [if_neg expands]
    refine (duplicate_ends is represented).weaken ?_ fun _ _ same => same
    rintro ns t ⟨rfl, str, rfl, copy⟩
    refine ⟨rfl, str, rfl, copy.chars, copy.represented, ?_⟩
    rw [copy.runes]
    exact ⟨Or.inl, fun either => either.resolve_right expands⟩

/-- What a variable holds makes way for a copy of it. -/
theorem splitc_ends (linked : s.Linked) (holds : s.vars d = some a) (is : s.heap a = some cell)
    (represented : cell.str.Represented) :
    Ends (splitc pool d a expand) s
      (fun ns t => ns = s.next ∧ ∃ str, t = (s.alloc str).replaced d (some s.next) ∧
        Split cell.str expand str) (Nomem pool s) := by
  unfold splitc
  apply made_ends (splitcopy_ends is represented)
  · intro str split
    apply Ends.bind
    have others : a ≠ s.next := linked.ne_next is
    have live : (s.alloc str).heap a = some cell := (Strings.heap_alloc_of_ne s str others).trans is
    apply destroy_ends
    · intro _ same
      cases same
      exact ⟨cell, live⟩
    apply Ends.bind
    apply Ends.modify
    apply Ends.pure
    refine ⟨rfl, str, ?_, split⟩
    have held : (s.alloc str).vars d = some a := holds
    rw [Strings.replaced, held]
  · exact fun refuses => ⟨rfl, rfl, refuses⟩

/-- The string that is changed, after `unshared`. -/
def Unshared (s : Strings) (d : Nat) (old : DisString) (expand : Bool) (ss : Nat)
    (t : Strings) : Prop :=
  Unchanged s t ∧ (s.Represented → t.Represented) ∧ ∃ cell, Ready t d ss cell ∧
    cell.str.Represented ∧ (cell.str.len < 0 ↔ old.len < 0 ∨ (expand = true ∧ 0 < old.len)) ∧
    cell.str.chars = old.chars

theorem unshared_ends (linked : s.Linked) (holds : s.vars d = some a) (is : s.heap a = some cell)
    (represented : cell.str.Represented) :
    Ends (unshared pool d a expand) s (Unshared s d cell.str expand) (Nomem pool s) := by
  have value : s.val d = cell.str.chars := Strings.val_of_some holds is
  unfold unshared
  apply Ends.bind
  apply look_ends is
  by_cases splits : 1 < cell.ref ∨ (expand = true ∧ 0 < cell.str.len)
  · simp only [if_pos splits]
    refine (splitc_ends linked holds is represented).weaken ?_ fun _ _ same => same
    rintro ns t ⟨rfl, str, rfl, split⟩
    have becomes := becomes_alloc (d := d) linked str
    have heap : ((s.alloc str).replaced d (some s.next)).heap s.next = some ⟨1, str⟩ := by
      rw [Strings.heap_replaced, Strings.heap_drop_of_ne, Strings.heap_alloc_self]
      show s.vars d ≠ some s.next
      rw [holds]
      intro same
      exact linked.ne_next is (Option.some.inj same)
    have self := Strings.replaced_self (s.alloc str) d (some s.next)
    refine ⟨⟨becomes.linked, fun x => ?_⟩, fun all => (all.alloc split.represented).replaced,
      ⟨1, str⟩, ⟨becomes.linked, heap, ?_, Or.inl self, becomes.value⟩, split.represented,
      split.runes, split.chars⟩
    · by_cases same : x = d
      · rw [same, becomes.value, split.chars, value]
      · exact becomes.others x same
    · exact becomes.linked.private heap self (Nat.lt_irrefl 1)
  · simp only [if_neg splits]
    rw [not_or] at splits
    refine ⟨linked.unchanged, id, cell, ⟨linked, is, linked.private is holds splits.1,
      Or.inl holds, value⟩, represented, ⟨Or.inl, fun either => either.resolve_right splits.2⟩, rfl⟩

/-- The character is one that the string of the variable can take: a string that is empty is not
`H`, and a char is below `Runeself`. -/
def Insertable (s : Strings) (r : Int) (v d : Nat) : Prop :=
  v ≤ (s.val d).length →
    (Runeself ≤ r → ∀ a cell, s.vars d = some a → s.heap a = some cell → cell.str.len ≠ 0) ∧
      (r < Runeself →
        (∀ a cell, s.vars d = some a → s.heap a = some cell → 0 ≤ cell.str.len) →
          r % 256 < 0x80)

theorem Inserted.after {sound' : Prop} (first : Unchanged s t)
    (kept : s.Represented → t.Represented) (implies : v ≤ (s.val d).length → sound → sound')
    (second : Inserted t d v r sound' u) : Inserted s d v r sound u := by
  have ⟨atMost, ⟨c, stored, becomes⟩, represented⟩ := second
  rw [first.values d] at atMost becomes
  refine ⟨atMost, ⟨c, stored, becomes.after first⟩, fun all sound => ?_⟩
  exact represented (kept all) (implies atMost sound)

theorem Refused.after {e : Exn} (first : Unchanged s t) (kept : s.Represented → t.Represented)
    (second : Refused pool t ((t.val d).length < v) e u) :
    Refused pool s ((s.val d).length < v) e u where
  unchanged := first.after second.unchanged
  represented := fun all => second.represented (kept all)
  bounds := by
    rw [← first.values d]
    exact second.bounds
  heap := second.heap

theorem ready_alloc (linked : s.Linked) (str : DisString) (empty : str.chars = [])
    (none : s.vars d = none) : Ready (s.alloc str) d s.next ⟨1, str⟩ where
  linked := linked.alloc str
  is := Strings.heap_alloc_self s str
  hidden := by
    intro x holds
    have ⟨_, isOld⟩ := linked.live x _ holds
    exact absurd rfl (linked.ne_next isOld)
  kept := Or.inr (Nat.le_refl 1)
  value := by rw [Strings.val_alloc linked, Strings.val_of_none none, empty]

/-- An empty string, whatever its `max` counts, is represented. -/
theorem represented_of_zero {str : DisString} (zero : str.len = 0) (fits : str.max ≤ str.room - 8) :
    str.Represented := by
  have length : str.length = 0 := by
    rw [DisString.length, zero]
    rfl
  apply Represented.of_ascii zero.ge (by omega) fits
  intro _ _
  omega

/-- `insc` into `H`. -/
theorem insc_none_ends (linked : s.Linked) (none : s.vars d = none) :
    Ends (insc pool r v d) s (fun _ => Inserted s d v r (Insertable s r v d))
      (Refused pool s ((s.val d).length < v)) := by
  unfold insc
  apply Ends.bind
  apply Ends.get
  rw [none]
  apply made_ends (newstring_ends 0)
  · intro str blank
    have zero : str.len = 0 := blank.len
    have max := blank.max
    have some := blank.some
    have length : str.length = 0 := by
      rw [DisString.length, zero]
      rfl
    by_cases expand : Runeself ≤ r
    · simp only [expand, decide_true, if_true]
      apply Ends.bind
      refine change_alloc_ends rfl ?_
      have first := unchanged_alloc linked str.halvemax
      have represented : str.halvemax.Represented :=
        represented_of_zero zero (by show str.max / 2 ≤ str.room - 8; omega)
      have kept : s.Represented → (s.alloc str.halvemax).Represented := fun all =>
        all.alloc represented
      have half : 2 * str.halvemax.max ≤ str.halvemax.room - 8 := by
        show 2 * (str.max / 2) ≤ str.room - 8
        omega
      have ends := @inscrunes_ends pool _ _ d _ v r
        (ready_alloc linked str.halvemax (chars_of_zero zero) none) zero.le represented.short
        represented.fits
      have start : (Cell.str ⟨1, str.halvemax⟩).length = 0 := length
      rw [start] at ends
      exact ends.weaken (fun _ u inserted => inserted.after first kept fun _ _ => half)
        fun _ _ refused => refused.after first kept
    · simp only [expand, decide_false]
      have first := unchanged_alloc linked str
      have represented : str.Represented := represented_of_zero zero (by omega)
      have kept : s.Represented → (s.alloc str).Represented := fun all => all.alloc represented
      have ends := @inscascii_ends pool _ _ d _ v r
        (ready_alloc linked str (chars_of_zero zero) none) zero.ge represented (by
          unfold Runeself at expand
          omega)
      have start : (Cell.str ⟨1, str⟩).length = 0 := length
      rw [start] at ends
      refine ends.weaken (fun _ u inserted => inserted.after first kept fun atMost sound => ?_)
        fun _ _ refused => refused.after first kept
      apply (sound atMost).2 (by omega)
      intro _ _ holds
      rw [none] at holds
      cases holds
  · exact nomem_refused linked

/-- `insc` into a string. -/
theorem insc_some_ends (linked : s.Linked) (all : s.Represented) (holds : s.vars d = some a) :
    Ends (insc pool r v d) s (fun _ => Inserted s d v r (Insertable s r v d))
      (Refused pool s ((s.val d).length < v)) := by
  have ⟨cell, is⟩ := linked.live d a holds
  have old := all a cell is
  unfold insc
  apply Ends.bind
  apply Ends.get
  rw [holds]
  apply Ends.seq (unshared_ends linked holds is old)
  · rintro ss t ⟨first, kept, cell', ready, represented, runes, chars⟩
    apply Ends.bind
    apply look_ends ready.is
    by_cases expand : Runeself ≤ r
    · simp only [expand, decide_true, or_true, if_true]
      have neg : cell'.str.len ≤ 0 := by
        rw [decide_eq_true expand] at runes
        have same : cell'.str.length = cell.str.length := by
          rw [← length_chars, chars, length_chars]
        unfold DisString.length at same
        by_contra positive
        have none := mt runes.2 (by omega)
        simp only [true_and, not_or] at none
        omega
      refine (inscrunes_ends ready neg represented.short represented.fits).weaken
        (fun _ u inserted => inserted.after first kept fun atMost sound => ?_)
        fun _ _ refused => refused.after first kept
      apply represented.runes_fit
      apply runes.2
      have nonzero := (sound atMost).1 expand a cell holds is
      rcases lt_or_gt_of_ne nonzero with before | after
      · exact Or.inl before
      · exact Or.inr ⟨decide_eq_true expand, after⟩
    · have below : r < Runeself := by omega
      rw [decide_eq_false expand] at runes
      simp only [expand, decide_false, Bool.false_eq_true, or_false]
      by_cases neg : cell'.str.len < 0
      · simp only [if_pos neg]
        refine (inscrunes_ends ready neg.le represented.short represented.fits).weaken
          (fun _ u inserted => inserted.after first kept fun _ _ => ?_)
          fun _ _ refused => refused.after first kept
        exact represented.runes_fit neg
      simp only [if_neg neg]
      refine (inscascii_ends ready (by omega) represented (by
        unfold Runeself at below
        omega)).weaken
        (fun _ u inserted => inserted.after first kept fun atMost sound => ?_)
        fun _ _ refused => refused.after first kept
      apply (sound atMost).2 below
      intro _ _ holdsB isB
      rw [holds] at holdsB
      cases holdsB
      rw [is] at isB
      cases isB
      have ascii := mt runes.2 neg
      rw [not_or] at ascii
      omega
  · rintro e t ⟨rfl, rfl, refuses⟩
    exact nomem_refused linked refuses

theorem insc_ends (linked : s.Linked) (represented : s.Represented) :
    Ends (insc pool r v d) s (fun _ => Inserted s d v r (Insertable s r v d))
      (Refused pool s ((s.val d).length < v)) := by
  cases holds : s.vars d with
  | none => exact insc_none_ends linked holds
  | some _ => exact insc_some_ends linked represented holds

end Instructions

end Infernode.Dis
