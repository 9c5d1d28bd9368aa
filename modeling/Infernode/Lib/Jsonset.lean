import Infernode.Lib.Jsonround

/-!
The members of an object as a table, and what becomes of `set` on a member that is there.

Owns: the values of the members of one name, which `get` reads the first of and `set` drops
the first of; when two calls of `set` do what they are for; and, with the reader and the
writers, when the whole library does.
-/

namespace Infernode.Json

open Text List

variable {ρ : Type}

/-! ### Members of one name -/

/-- The values of the members of a name, in their order. -/
def named (l : List (Str × JValue ρ)) (mem : Str) : List (JValue ρ) :=
  (l.filter fun member => member.1 = mem).map Prod.snd

theorem getmem_eq (l : List (Str × JValue ρ)) (mem : Str) :
    getmem l mem = (named l mem).headD .nil := by
  induction l with
  | nil => rfl
  | cons first _ ih =>
    unfold getmem named
    by_cases same : first.1 = mem
    · rw [if_pos same, filter_cons_of_pos (by simpa using same)]
      rfl
    · rw [if_neg same, filter_cons_of_neg (by simpa using same)]
      exact ih

theorem putback_eq (ol l : List (Str × JValue ρ)) : putback ol l = ol.reverse ++ l := by
  induction ol generalizing l with
  | nil => rfl
  | cons _ _ ih =>
    rw [putback, ih, reverse_cons, append_assoc]
    rfl

theorem named_append (front back : List (Str × JValue ρ)) (mem : Str) :
    named (front ++ back) mem = named front mem ++ named back mem := by
  unfold named
  rw [filter_append, map_append]

theorem named_cons (first : Str × JValue ρ) (l : List (Str × JValue ρ)) (mem : Str) :
    named (first :: l) mem =
      if first.1 = mem then first.2 :: named l mem else named l mem := by
  unfold named
  by_cases same : first.1 = mem
  · rw [if_pos same, filter_cons_of_pos (by simpa using same)]
    rfl
  · rw [if_neg same, filter_cons_of_neg (by simpa using same)]

/-- Where the name is missing the member is put in front; otherwise its first member goes. -/
theorem setmem_spec (all : List (Str × JValue ρ)) (mem : Str) (val : JValue ρ)
    (ol l : List (Str × JValue ρ)) :
    (named l mem = [] ∧ setmem all mem val ol l = (mem, val) :: all) ∨
      ∃ front first back, l = front ++ first :: back ∧ first.1 = mem ∧ named front mem = [] ∧
        setmem all mem val ol l = ol.reverse ++ (front ++ back) := by
  induction l generalizing ol with
  | nil => exact Or.inl ⟨rfl, rfl⟩
  | cons first l ih =>
    unfold setmem
    by_cases same : first.1 = mem
    · rw [if_pos same, putback_eq]
      exact Or.inr ⟨[], first, l, rfl, same, rfl, rfl⟩
    rw [if_neg same, named_cons, if_neg same]
    rcases ih (first :: ol) with missing | found
    · exact Or.inl missing
    obtain ⟨front, here, back, rfl, called, none, result⟩ := found
    refine Or.inr ⟨first :: front, here, back, rfl, called, ?_, ?_⟩
    · rw [named_cons, if_neg same, none]
    · rw [result, reverse_cons, append_assoc]
      rfl

/-- What a call of `set` leaves of the members of its name. -/
def afterset (values : List (JValue ρ)) (val : JValue ρ) : List (JValue ρ) :=
  match values with
  | [] => [val]
  | _ :: others => others

theorem named_setmem (l : List (Str × JValue ρ)) (mem : Str) (val : JValue ρ) :
    named (setmem l mem val [] l) mem = afterset (named l mem) val := by
  rcases setmem_spec l mem val [] l with missing | found
  · rw [missing.2, named_cons, if_pos rfl, missing.1]
    rfl
  obtain ⟨_, _, _, shape, called, none, result⟩ := found
  rw [result, reverse_nil, nil_append, named_append, none, nil_append, shape,
    named_append, none, nil_append, named_cons, if_pos called]
  rfl

theorem named_setmem_other (l : List (Str × JValue ρ)) {mem other : Str} (val : JValue ρ)
    (different : other ≠ mem) : named (setmem l mem val [] l) other = named l other := by
  rcases setmem_spec l mem val [] l with missing | found
  · rw [missing.2, named_cons, if_neg (Ne.symm different)]
  · obtain ⟨_, _, _, shape, called, _, result⟩ := found
    rw [result, reverse_nil, nil_append, named_append, shape, named_append, named_cons,
      if_neg (by rw [called]; exact Ne.symm different)]

/-! ### Two calls -/

/-- A call of `set` changes the one member, and to the value. -/
def Sets (v w : JValue ρ) (mem : Str) (val : JValue ρ) : Prop :=
  v.set mem val = some w ∧ w.get mem = val ∧ ∀ other, other ≠ mem → w.get other = v.get other

/-- So does a first call, and after it a second one. -/
def SetsTwice (l : List (Str × JValue ρ)) (mem : Str) (x y : JValue ρ) : Prop :=
  ∃ v w, Sets (.object l) v mem x ∧ Sets v w mem y

/-- The values of the name as two calls that drop the first would have it. -/
def Falls (values : List (JValue ρ)) (x y : JValue ρ) : Prop :=
  match values with
  | [] => y = .nil
  | [_] => x = .nil
  | _ :: second :: others => second = x ∧ others.headD .nil = y

theorem sets_iff (l : List (Str × JValue ρ)) (w : JValue ρ) (mem : Str) (val : JValue ρ) :
    Sets (.object l) w mem val ↔
      w = .object (setmem l mem val [] l) ∧ (afterset (named l mem) val).headD .nil = val := by
  constructor
  · rintro ⟨set, get, _⟩
    have result := (Option.some.inj set).symm
    rw [result] at get
    exact ⟨result, by rw [← named_setmem, ← getmem_eq]; exact get⟩
  rintro ⟨rfl, first⟩
  refine ⟨rfl, ?_, ?_⟩
  · show getmem _ mem = val
    rw [getmem_eq, named_setmem, first]
  · intro other different
    show getmem _ other = getmem l other
    rw [getmem_eq, getmem_eq, named_setmem_other l val different]

/-- Two calls do what they are for exactly if the values of the name happen to be there. -/
theorem setsTwice_iff (l : List (Str × JValue ρ)) (mem : Str) (x y : JValue ρ) :
    SetsTwice l mem x y ↔ Falls (named l mem) x y := by
  have both : SetsTwice l mem x y ↔ (afterset (named l mem) x).headD .nil = x ∧
      (afterset (afterset (named l mem) x) y).headD .nil = y := by
    constructor
    · rintro ⟨v, w, first, second⟩
      obtain ⟨rfl, one⟩ := (sets_iff l v mem x).1 first
      have two := ((sets_iff _ w mem y).1 second).2
      rw [named_setmem] at two
      exact ⟨one, two⟩
    rintro ⟨one, two⟩
    refine ⟨_, _, (sets_iff l _ mem x).2 ⟨rfl, one⟩, (sets_iff _ _ mem y).2 ⟨rfl, ?_⟩⟩
    rw [named_setmem]
    exact two
  rw [both]
  match named l mem with
  | [] => simp [afterset, Falls, eq_comm]
  | [_] => simp [afterset, Falls, eq_comm]
  | _ :: second :: others => simp [afterset, Falls]

/-! ### The library -/

def Holds (io : Iobuf) (text : Str) : Prop :=
  io.chars = Lib9.c2string (Lib9.cvtca text) ∧ io.error = none

/-- What either writer makes of the value is read as a value that is equal to it. -/
def Survives (reals : Reals ρ) (v : JValue ρ) : Prop :=
  ∀ io : Iobuf, Holds io (writeval reals v) ∨ Holds io (v.text reals) →
    ∃ w, readjson reals io = some (w, none) ∧ v.eq reals w = true

/-- What is written is read as the characters it was written with. -/
theorem Holds.chars {io : Iobuf} {text : Str} (holds : Holds io text)
    (runes : Lib9.Runes text) : io.chars = text := by
  rw [holds.1, Lib9.c2string_cvtca runes]

theorem readjson_render {io : Iobuf} {reals : Reals ρ} {gap : Str} (blank : Blank gap)
    (runes : Lib9.Runes gap) {v : JValue ρ} (whole : Whole v)
    (holds : Holds io (render reals gap v)) : readjson reals io = some (v, none) := by
  have ⟨_, text, shape, visible, _⟩ := render_head reals gap whole
  have chars := holds.chars (runes_render reals runes v whole)
  have read := readval_render io reals blank v [] (2 * io.chars.length + 1) whole stops_nil
    (by rw [append_nil, chars])
  rw [append_nil] at read
  have front : unget (getns io.chars).1 (getns io.chars).2 = render reals gap v := by
    rw [chars, shape]
    exact unget_getns visible text
  have more : (getns io.chars).1 ≠ none ∨ io.error ≠ none := by
    rw [chars, shape, getns_cons visible]
    exact Or.inl nofun
  rw [readjson_eq more, front, read]
  rfl

theorem survives (reals : Reals ρ) {v : JValue ρ} (whole : Whole v) : Survives reals v := by
  rintro io (holds | holds)
  · have blank : Blank [] := fun _ inside => absurd inside List.not_mem_nil
    have runes : Lib9.Runes [] := fun _ inside => absurd inside List.not_mem_nil
    exact ⟨v, readjson_render blank runes whole holds, eq_self reals v whole⟩
  have blank : Blank [32] := by
    unfold Blank
    decide
  have runes : Lib9.Runes [32] := by
    unfold Lib9.Runes
    decide
  exact ⟨v, readjson_render blank runes whole holds, eq_self reals v whole⟩

/-- Whatever is written is read back and every input is read to an end, but two calls of `set`
do what they are for only if the values of the name happen to be there. -/
theorem json_right_iff (reals : Reals ρ) {v : JValue ρ} (whole : Whole v) (io : Iobuf)
    (l : List (Str × JValue ρ)) (mem : Str) (x y : JValue ρ) :
    (Survives reals v ∧ Ends reals io ∧ SetsTwice l mem x y) ↔ Falls (named l mem) x y := by
  rw [setsTwice_iff]
  exact ⟨fun all => all.2.2, fun falls => ⟨survives reals whole, readjson_ends reals io, falls⟩⟩

def plainreals : Reals Int where
  ofText := strtol
  text := decimal
  eq r s := r == s

/-- The value `{"k":[-1,"\"\u0000"]}`. -/
def sampleValue : JValue Int :=
  .object [([107], .array [.int (-1), .string [34, 0]])]

/-- An object with three members of one name, the second and third with the values given. -/
theorem json_right_thrice :
    Survives plainreals sampleValue ∧ Ends plainreals ⟨[123, 93], id, none⟩ ∧
      SetsTwice [([107], .int 1), ([107], .int 2), ([107], .int 3)] [107]
        (.int 2 : JValue Int) (.int 3) := by
  have whole : Whole sampleValue := by
    refine ⟨⟨?_, ⟨?_, ?_, trivial⟩⟩, trivial⟩
    · unfold Lib9.Runes
      decide
    · unfold Whole InBig
      decide
    · unfold Whole Lib9.Runes
      decide
  exact (json_right_iff plainreals whole ⟨[123, 93], id, none⟩
    [([107], .int 1), ([107], .int 2), ([107], .int 3)] [107] (.int 2) (.int 3)).2 ⟨rfl, rfl⟩

/-- Setting the one member of an object anew removes it. -/
theorem set_removes :
    JValue.set (.object [([107], .int 1)]) [107] (.int 2 : JValue Int) = some (.object []) ∧
      ¬SetsTwice [([107], .int 1)] [107] (.int 2 : JValue Int) (.int 3) := by
  refine ⟨rfl, ?_⟩
  rintro ⟨v, w, ⟨set, get, _⟩, _⟩
  cases set
  cases get

end Infernode.Json
