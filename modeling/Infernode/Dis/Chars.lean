import Infernode.Dis.String

/-!
The memory of one string.

Owns: how the characters of a string are read from its memory, what a string must satisfy, and
what writing into the memory makes of both.
-/

namespace Infernode.Dis.DisString

open Text List

/-! ### Characters -/

variable {i : Nat} {s : DisString}

section Characters

variable {s t : DisString} {o n : Nat} {f : Nat → Nat}

theorem chars_of_neg (runes : s.len < 0) : s.chars = (List.range s.length).map s.rune := by
  rw [chars, if_pos runes]

theorem chars_of_nonneg (ascii : 0 ≤ s.len) : s.chars = (List.range s.length).map s.ascii := by
  rw [chars, if_neg (by omega)]

@[simp] theorem length_chars (s : DisString) : s.chars.length = s.length := by
  rw [chars, length_map, length_range]

theorem chars_of_zero (zero : s.len = 0) : s.chars = [] := by
  apply eq_nil_of_length_eq_zero
  rw [length_chars, length, zero]
  rfl

theorem getElem_chars_of_neg (runes : s.len < 0) (inside : i < s.length) :
    s.chars[i]? = some (s.rune i) := by
  rw [chars_of_neg runes, getElem?_map, getElem?_range inside]
  rfl

theorem getElem_chars_of_nonneg (ascii : 0 ≤ s.len) (inside : i < s.length) :
    s.chars[i]? = some (s.ascii i) := by
  rw [chars_of_nonneg ascii, getElem?_map, getElem?_range inside]
  rfl

theorem chars_eq_of_neg {cs : Str} (runes : s.len < 0) (length : s.length = cs.length)
    (each : ∀ i, i < cs.length → cs[i]? = some (s.rune i)) : s.chars = cs := by
  apply ext_getElem?
  intro i
  by_cases inside : i < cs.length
  · rw [getElem_chars_of_neg runes (length ▸ inside), each i inside]
  · rw [getElem?_eq_none (by rw [length_chars]; omega), getElem?_eq_none (by omega)]

theorem chars_eq_of_nonneg {cs : Str} (ascii : 0 ≤ s.len) (length : s.length = cs.length)
    (each : ∀ i, i < cs.length → cs[i]? = some (s.ascii i)) : s.chars = cs := by
  apply ext_getElem?
  intro i
  by_cases inside : i < cs.length
  · rw [getElem_chars_of_nonneg ascii (length ▸ inside), each i inside]
  · rw [getElem?_eq_none (by rw [length_chars]; omega), getElem?_eq_none (by omega)]

/-! ### Writes -/

theorem putascii_eq_some (fits : o + n ≤ s.room) : ∃ t, s.putascii o n f = some t :=
  ⟨_, if_pos fits⟩

theorem putrunes_eq_some (fits : 2 * (o + n) ≤ s.room) : ∃ t, s.putrunes o n f = some t :=
  ⟨_, if_pos fits⟩

/-- A write into the memory changes nothing else of the string. -/
structure Written (s t : DisString) : Prop where
  len : t.len = s.len
  max : t.max = s.max
  room : t.room = s.room

theorem written_putascii (put : s.putascii o n f = some t) : Written s t := by
  unfold putascii at put
  split at put
  · cases put
    exact ⟨rfl, rfl, rfl⟩
  · cases put

theorem written_putrunes (put : s.putrunes o n f = some t) : Written s t := by
  unfold putrunes at put
  split at put
  · cases put
    exact ⟨rfl, rfl, rfl⟩
  · cases put

theorem Written.length (written : Written s t) : t.length = s.length := by
  rw [DisString.length, written.len]
  rfl

theorem ascii_putascii (put : s.putascii o n f = some t) (i : Nat) :
    t.ascii i = if o ≤ i ∧ i < o + n then f (i - o) % 256 else s.ascii i := by
  unfold putascii at put
  split at put
  · cases put
    show UInt8.toNat (if o ≤ i ∧ i < o + n then _ else _) = _
    split
    · exact UInt8.toNat_ofNat'
    · rfl
  · cases put

theorem rune_putrunes (put : s.putrunes o n f = some t) (i : Nat) :
    t.rune i = if o ≤ i ∧ i < o + n then f (i - o) % 65536 else s.rune i := by
  have even : 2 * i / 2 = i := by omega
  have odd : (2 * i + 1) / 2 = i := by omega
  have low : 2 * i % 2 = 0 := by omega
  have high : (2 * i + 1) % 2 = 1 := by omega
  unfold putrunes at put
  split at put
  · cases put
    show UInt8.toNat (if o ≤ 2 * i / 2 ∧ 2 * i / 2 < o + n then _ else _) +
      256 * UInt8.toNat (if o ≤ (2 * i + 1) / 2 ∧ (2 * i + 1) / 2 < o + n then _ else _) = _
    rw [even, odd, low, high]
    split
    · rw [UInt8.toNat_ofNat', UInt8.toNat_ofNat']
      omega
    · rfl
  · cases put

end Characters

/-- The length may as well be set before the runes are written. -/
theorem putrunes_setlen (s : DisString) (len : Int) (o n : Nat) (f : Nat → Nat) :
    (s.putrunes o n f).map (fun t => (t.setlen len).halvemax) =
      ((s.setlen len).halvemax).putrunes o n f := by
  unfold putrunes
  show _ = if 2 * (o + n) ≤ s.room then _ else _
  split
  · rfl
  · rfl

theorem putascii_setlen (s : DisString) (len : Int) (o n : Nat) (f : Nat → Nat) :
    (s.putascii o n f).map (fun t => t.setlen len) = (s.setlen len).putascii o n f := by
  unfold putascii
  show _ = if o + n ≤ s.room then _ else _
  split
  · rfl
  · rfl

/-! ### What a string must satisfy -/

def width (s : DisString) : Nat := if s.len < 0 then 2 else 1

/-- The string has no more characters than `max`, of which as many elements fit into the block
past the head of `sizeof(String)` bytes; and chars are below `Runeself`. -/
structure Represented (s : DisString) : Prop where
  short : s.length ≤ s.max
  fits : s.width * s.max ≤ s.room - 8
  chars : 0 ≤ s.len → ∀ i, i < s.length → s.ascii i < 0x80

theorem Represented.runes_fit (represented : s.Represented) (runes : s.len < 0) :
    2 * s.max ≤ s.room - 8 := by
  have fits := represented.fits
  rwa [width, if_pos runes] at fits

theorem Represented.max_le (represented : s.Represented) : s.max ≤ s.room - 8 := by
  have fits := represented.fits
  unfold width at fits
  split at fits
  · omega
  · omega

theorem Represented.of_runes (runes : s.len < 0) (short : s.length ≤ s.max)
    (fits : 2 * s.max ≤ s.room - 8) : s.Represented where
  short := short
  fits := by rwa [width, if_pos runes]
  chars := fun ascii => absurd ascii (by omega)

theorem Represented.of_ascii (ascii : 0 ≤ s.len) (short : s.length ≤ s.max)
    (fits : s.max ≤ s.room - 8) (chars : ∀ i, i < s.length → s.ascii i < 0x80) :
    s.Represented where
  short := short
  fits := by rwa [width, if_neg (by omega), Nat.one_mul]
  chars := fun _ => chars

theorem Represented.of_chars (ascii : 0 ≤ s.len) (short : s.length ≤ s.max)
    (fits : s.max ≤ s.room - 8) (below : ∀ c ∈ s.chars, c < 0x80) : s.Represented :=
  of_ascii ascii short fits fun _ inside =>
    below _ (mem_of_getElem? (getElem_chars_of_nonneg ascii inside))

theorem Represented.below (represented : s.Represented) (ascii : 0 ≤ s.len) :
    ∀ c ∈ s.chars, c < 0x80 := by
  intro _ member
  rw [chars_of_nonneg ascii] at member
  obtain ⟨i, inside, rfl⟩ := mem_map.1 member
  exact represented.chars ascii i (mem_range.1 inside)

def elem (s : DisString) : Nat → Nat := if s.len < 0 then s.rune else s.ascii

theorem getElem_chars (s : DisString) (inside : i < s.length) : s.chars[i]? = some (s.elem i) := by
  unfold elem
  split
  · exact getElem_chars_of_neg (by assumption) inside
  · exact getElem_chars_of_nonneg (by omega) inside

theorem rune_lt (s : DisString) (i : Nat) : s.rune i < 65536 := by
  have low := (s.data (2 * i)).toNat_lt
  have high := (s.data (2 * i + 1)).toNat_lt
  unfold rune
  omega

theorem ascii_lt (s : DisString) (i : Nat) : s.ascii i < 256 := (s.data i).toNat_lt

theorem elem_lt (s : DisString) (i : Nat) : s.elem i < 65536 := by
  unfold elem
  split
  · exact rune_lt s i
  · exact Nat.lt_trans (ascii_lt s i) (by decide)

/-! ### Changes of a string -/

section Changes

variable {s : DisString} {v : Nat} {c : Nat}

theorem set_rune (runes : s.len < 0) (fits : 2 * (v + 1) ≤ s.room) :
    ∃ t, s.putrunes v 1 (fun _ => c) = some t ∧ Written s t ∧
      t.chars = s.chars.set v (c % 65536) := by
  have ⟨t, put⟩ := putrunes_eq_some (f := fun _ => c) fits
  have written := written_putrunes put
  refine ⟨t, put, written, chars_eq_of_neg (by rw [written.len]; exact runes) ?_ ?_⟩
  · rw [written.length, length_set, length_chars]
  intro i below
  rw [length_set, length_chars] at below
  rw [rune_putrunes put]
  by_cases same : v = i
  · subst same
    rw [if_pos ⟨Nat.le_refl _, by omega⟩, getElem?_set_self (by rwa [length_chars])]
  · rw [if_neg (by omega), getElem?_set_ne same, getElem_chars_of_neg runes below]

theorem set_char (ascii : 0 ≤ s.len) (fits : v + 1 ≤ s.room) :
    ∃ t, s.putascii v 1 (fun _ => c) = some t ∧ Written s t ∧
      t.chars = s.chars.set v (c % 256) := by
  have ⟨t, put⟩ := putascii_eq_some (f := fun _ => c) fits
  have written := written_putascii put
  refine ⟨t, put, written, chars_eq_of_nonneg (by rw [written.len]; exact ascii) ?_ ?_⟩
  · rw [written.length, length_set, length_chars]
  intro i below
  rw [length_set, length_chars] at below
  rw [ascii_putascii put]
  by_cases same : v = i
  · subst same
    rw [if_pos ⟨Nat.le_refl _, by omega⟩, getElem?_set_self (by rwa [length_chars])]
  · rw [if_neg (by omega), getElem?_set_ne same, getElem_chars_of_nonneg ascii below]

/-- A string is two texts one behind the other when its elements, read in either way, are. -/
theorem chars_append {front back : Str} {read : Nat → Nat}
    (whole : ∀ {cs : Str}, s.length = cs.length → (∀ i, i < cs.length → cs[i]? = some (read i)) →
      s.chars = cs)
    (length : s.length = front.length + back.length)
    (first : ∀ i, i < front.length → front[i]? = some (read i))
    (second : ∀ j, j < back.length → back[j]? = some (read (front.length + j))) :
    s.chars = front ++ back := by
  apply whole (by rw [length, length_append])
  intro i below
  rw [length_append] at below
  by_cases inFront : i < front.length
  · rw [getElem?_append_left inFront, first i inFront]
  · rw [getElem?_append_right (by omega), second _ (by omega)]
    congr 2
    omega

variable {m : DisString}

theorem join_runes (front back : Str) {n : Nat} {f : Nat → Nat}
    (len : m.len = -((front.length + n : Nat) : Int)) (positive : 0 < front.length + n)
    (fits : 2 * (front.length + n) ≤ m.room) (count : back.length = n)
    (first : ∀ i, i < front.length → front[i]? = some (m.rune i))
    (second : ∀ j, j < n → back[j]? = some (f j % 65536)) :
    ∃ t, m.putrunes front.length n f = some t ∧ Written m t ∧ t.chars = front ++ back := by
  have ⟨t, put⟩ := putrunes_eq_some (f := f) fits
  have written := written_putrunes put
  refine ⟨t, put, written, ?_⟩
  refine chars_append (chars_eq_of_neg ?_) ?_ ?_ ?_
  · rw [written.len, len]
    omega
  · rw [DisString.length, written.len, len, count]
    omega
  · intro i below
    rw [rune_putrunes put, if_neg (by omega), first i below]
  · intro j _
    rw [rune_putrunes put, if_pos (by omega), second j (by omega), Nat.add_sub_cancel_left]

theorem join_chars (front back : Str) {n : Nat} {f : Nat → Nat}
    (len : m.len = ((front.length + n : Nat) : Int)) (fits : front.length + n ≤ m.room)
    (count : back.length = n) (first : ∀ i, i < front.length → front[i]? = some (m.ascii i))
    (second : ∀ j, j < n → back[j]? = some (f j % 256)) :
    ∃ t, m.putascii front.length n f = some t ∧ Written m t ∧ t.chars = front ++ back := by
  have ⟨t, put⟩ := putascii_eq_some (f := f) fits
  have written := written_putascii put
  refine ⟨t, put, written, ?_⟩
  refine chars_append (chars_eq_of_nonneg ?_) ?_ ?_ ?_
  · rw [written.len, len]
    omega
  · rw [DisString.length, written.len, len, count]
    omega
  · intro i below
    rw [ascii_putascii put, if_neg (by omega), first i below]
  · intro j _
    rw [ascii_putascii put, if_pos (by omega), second j (by omega), Nat.add_sub_cancel_left]

/-- A new string of runes holds those of another and one more. -/
theorem grow_runes {s : DisString} {c nb : Nat} (enough : 2 * (s.length + 1) ≤ nb)
    (max : m.max + 8 = m.room) (fits : nb ≤ m.max) (runes : s.len ≤ 0) :
    ∃ t, ((m.putrunes 0 s.length s.rune).bind fun n => (n.putrunes s.length 1 fun _ => c).map
        fun n => (n.setlen (-(s.length + 1))).halvemax) = some t ∧
      t.chars = s.chars ++ [c % 65536] ∧ t.Represented := by
  have ⟨copied, putFront⟩ := putrunes_eq_some (s := m) (o := 0) (n := s.length) (f := s.rune)
    (by omega)
  have written := written_putrunes putFront
  have ⟨t, put, writtenAgain, chars⟩ :=
    join_runes (m := (copied.setlen (-(s.length + 1))).halvemax) (n := 1) (f := fun _ => c)
      s.chars [c % 65536] (by rw [length_chars]; rfl) (by omega)
      (by
        rw [length_chars]
        show 2 * (s.length + 1) ≤ copied.room
        rw [written.room]
        omega) rfl
      (fun i within => by
        rw [length_chars] at within
        have neg : s.len < 0 := by
          unfold DisString.length at within
          omega
        show _ = some (copied.rune i)
        rw [rune_putrunes putFront, if_pos (by omega), Nat.sub_zero,
          Nat.mod_eq_of_lt (rune_lt s i)]
        exact getElem_chars_of_neg neg within)
      (fun j within => by
        have zero : j = 0 := by omega
        rw [zero]
        rfl)
  rw [length_chars] at put
  refine ⟨t, ?_, chars, ?_⟩
  · rw [putFront]
    show (copied.putrunes s.length 1 _).map _ = _
    rw [putrunes_setlen, put]
  have len : t.len = -(s.length + 1) := writtenAgain.len
  have maxEq : t.max = copied.max / 2 := writtenAgain.max
  have roomEq : t.room = copied.room := writtenAgain.room
  rw [written.max] at maxEq
  rw [written.room] at roomEq
  have length : t.length = s.length + 1 := by
    unfold DisString.length at len ⊢
    omega
  exact Represented.of_runes (by omega) (by omega) (by omega)

/-- A new string of chars holds those of another and one more. -/
theorem grow_chars {s : DisString} {c nb : Nat} (enough : s.length + 1 ≤ nb)
    (max : m.max + 8 = m.room) (fits : nb ≤ m.max) (ascii : 0 ≤ s.len) :
    ∃ t, ((m.putascii 0 s.length s.ascii).bind fun n => (n.putascii s.length 1 fun _ => c).map
        fun n => n.setlen (s.length + 1)) = some t ∧
      t.chars = s.chars ++ [c % 256] ∧ t.len = s.length + 1 ∧ t.max = m.max ∧
      t.room = m.room := by
  have ⟨copied, putFront⟩ := putascii_eq_some (s := m) (o := 0) (n := s.length) (f := s.ascii)
    (by omega)
  have written := written_putascii putFront
  have ⟨t, put, writtenAgain, chars⟩ :=
    join_chars (m := copied.setlen (s.length + 1)) (n := 1) (f := fun _ => c)
      s.chars [c % 256] (by rw [length_chars]; rfl)
      (by
        rw [length_chars]
        show s.length + 1 ≤ copied.room
        rw [written.room]
        omega) rfl
      (fun i within => by
        rw [length_chars] at within
        show _ = some (copied.ascii i)
        rw [ascii_putascii putFront, if_pos (by omega), Nat.sub_zero,
          Nat.mod_eq_of_lt (ascii_lt s i)]
        exact getElem_chars_of_nonneg ascii within)
      (fun j within => by
        have zero : j = 0 := by omega
        rw [zero]
        rfl)
  rw [length_chars] at put
  refine ⟨t, ?_, chars, writtenAgain.len, writtenAgain.max.trans written.max,
    writtenAgain.room.trans written.room⟩
  rw [putFront]
  show (copied.putascii s.length 1 _).map _ = _
  rw [putascii_setlen, put]

end Changes

end Infernode.Dis.DisString
