import Infernode.Lib.Jsonread
import Infernode.Lib9.Rune

/-!
What `appl/lib/json.b` writes is read back.

Owns: the values that can be written, which have no reals and no missing parts; what may
stand behind a number or a literal; that a string, a number and, by induction over the value,
every such value is read from its text, with any blanks behind commas and colons.
-/

namespace Infernode.Json

open Text List

variable {ρ : Type}

/-! ### Blanks -/

def Blank (gap : Str) : Prop := ∀ c ∈ gap, isblank c = true

variable {c : Nat} {gap p q rest : Str} {α : Type}

theorem getns_cons (visible : isblank c = false) (p : Str) : getns (c :: p) = (some c, p) := by
  unfold getns
  rw [if_neg (by rw [visible]; decide)]

theorem getns_append (blank : Blank gap) (p : Str) : getns (gap ++ p) = getns p := by
  induction gap with
  | nil => rfl
  | cons c _ ih =>
    rw [cons_append, getns, if_pos (blank c mem_cons_self),
      ih (forall_mem_cons.1 blank).2]

theorem readname_append (blank : Blank gap) (io : Iobuf) (p : Str) :
    readname io (gap ++ p) = readname io p := by
  unfold readname
  rw [getns_append blank]

theorem readval_append (blank : Blank gap) (io : Iobuf) (reals : Reals ρ) (fuel : Nat) (p : Str) :
    readval io reals fuel (gap ++ p) = readval io reals fuel p := by
  cases fuel with
  | zero => rfl
  | succ _ =>
    unfold readval
    rw [getns_append blank]

theorem readpairs_append (blank : Blank gap) (io : Iobuf) (reals : Reals ρ) (fuel : Nat) (p : Str) :
    readpairs io reals fuel (gap ++ p) = readpairs io reals fuel p := by
  cases fuel with
  | zero => rfl
  | succ _ =>
    unfold readpairs
    rw [readname_append blank]

theorem readitems_append (blank : Blank gap) (io : Iobuf) (reals : Reals ρ) (fuel : Nat) (p : Str) :
    readitems io reals fuel (gap ++ p) = readitems io reals fuel p := by
  cases fuel with
  | zero => rfl
  | succ _ =>
    unfold readitems
    rw [readval_append blank]

/-! ### Strings -/

theorem hex_hexdigit {v : Nat} (small : v < 16) : hex (some (hexdigit v)) = some v := by
  unfold hex hexdigit
  by_cases decimalDigit : v < 10
  · rw [if_pos decimalDigit]
    simp only
    rw [if_pos (by omega)]
    exact congrArg some (by omega)
  rw [if_neg decimalDigit]
  simp only
  rw [if_neg (by omega), if_pos (by omega)]
  exact congrArg some (by omega)

variable {d close : Nat} {digits letters name s : Str} {n : Int} {behind : Option Nat × Str}

theorem readhex_cons {n v : Nat} (small : v < 16)
    (rest : ∃ shorter, readhex n (16 * c + v) p = .ok (d, ⟨q, shorter⟩)) :
    ∃ shorter, readhex (n + 1) c (hexdigit v :: p) = .ok (d, ⟨q, shorter⟩) := by
  have ⟨shorter, read⟩ := rest
  refine ⟨Nat.le_succ_of_le shorter, ?_⟩
  unfold readhex
  rw [hex_hexdigit small]
  simp only
  rw [read]
  rfl

theorem readhex_ux4 (small : c < 65536) (p : Str) :
    ∃ shorter, readhex 4 0 (ux4 c ++ p) = .ok (c, ⟨p, shorter⟩) := by
  have sum : 16 * (16 * (16 * (16 * 0 + c / 4096 % 16) + c / 256 % 16) + c / 16 % 16) +
      c % 16 = c := by
    omega
  apply readhex_cons (Nat.mod_lt _ (by decide))
  apply readhex_cons (Nat.mod_lt _ (by decide))
  apply readhex_cons (Nat.mod_lt _ (by decide))
  apply readhex_cons (Nat.mod_lt _ (by decide))
  refine ⟨Nat.le_refl _, ?_⟩
  rw [sum]
  rfl

variable {io : Iobuf} {fuel : Nat}

/-- A character that is read behind a backslash. -/
theorem readstring_escape (code : ∃ shorter, readescape io p = .ok (d, ⟨q, shorter⟩)) :
    readstring io (92 :: p) = (readstring io q).map fun read => (d :: read.1, read.2) := by
  have ⟨_, read⟩ := code
  rw [readstring]
  rw [if_neg (by decide), if_neg (by decide), read]

theorem readescape_plain {e : Nat} (plain : e ≠ 117) (p : Str) :
    ∃ shorter, readescape io (e :: p) = .ok (unescape e, ⟨p, shorter⟩) :=
  ⟨Nat.le_succ _, if_neg plain⟩

theorem readescape_ux4 (small : c < 65536) (p : Str) :
    ∃ shorter, readescape io (117 :: (ux4 c ++ p)) = .ok (c, ⟨p, shorter⟩) := by
  have ⟨shorter, read⟩ := readhex_ux4 small p
  refine ⟨Nat.le_succ_of_le shorter, ?_⟩
  rw [readescape, if_pos rfl, read]
  rfl

/-- Every escape is read as the character it was written for. -/
theorem readstring_escout (needs : needesc c = true) (p : Str) :
    readstring io (escout c ++ p) = (readstring io p).map fun read => (c :: read.1, read.2) := by
  have plain : ∀ e d : Nat, e ≠ 117 → unescape e = d →
      readstring io (92 :: e :: p) = (readstring io p).map fun read => (d :: read.1, read.2) := by
    intro _ _ notHex same
    rw [← same]
    exact readstring_escape (readescape_plain notHex p)
  unfold escout
  split_ifs with quote slash solidus back feed line tab return_
  · rw [quote]; exact plain 34 34 (by decide) rfl
  · rw [slash]; exact plain 92 92 (by decide) rfl
  · rw [solidus]; exact plain 47 47 (by decide) rfl
  · rw [back]; exact plain 98 8 (by decide) rfl
  · rw [feed]; exact plain 102 12 (by decide) rfl
  · rw [line]; exact plain 110 10 (by decide) rfl
  · rw [tab]; exact plain 116 9 (by decide) rfl
  · rw [return_]; exact plain 114 13 (by decide) rfl
  have control : c < 65536 := by
    simp only [needesc, Bool.or_eq_true, beq_iff_eq, decide_eq_true_eq] at needs
    omega
  exact readstring_escape (readescape_ux4 control p)

/-- A string is read back from between its quotes, whatever characters it has. -/
theorem readstring_escaped (io : Iobuf) (s rest : Str) :
    readstring io (escaped s ++ 34 :: rest) = .ok (s, rest) := by
  induction s with
  | nil =>
    show readstring io (34 :: rest) = _
    rw [readstring, if_pos rfl]
  | cons c s ih =>
    have shape : escaped (c :: s) ++ 34 :: rest =
        (if needesc c then escout c else [c]) ++ (escaped s ++ 34 :: rest) := by
      unfold escaped
      rw [flatMap_cons, append_assoc]
    rw [shape]
    by_cases needs : needesc c = true
    · rw [if_pos needs, readstring_escout needs, ih]
      rfl
    have plain : c ≠ 34 ∧ c ≠ 92 := by
      simp only [needesc, Bool.or_eq_true, beq_iff_eq, decide_eq_true_eq] at needs
      omega
    rw [if_neg needs, singleton_append, readstring, if_neg plain.1, if_pos plain.2,
      ih]
    rfl

theorem readname_quote (io : Iobuf) (name rest : Str) :
    readname io (quote name ++ 58 :: rest) = done (name, rest) := by
  have shape : quote name ++ 58 :: rest = 34 :: (escaped name ++ 34 :: 58 :: rest) := by
    unfold quote
    rw [cons_append, append_assoc]
    rfl
  rw [shape]
  unfold readname
  rw [getns_cons (by decide), if_neg (by simp), readstring_escaped]
  show (if (getns (58 :: rest)).1 ≠ some 58 then raise (str "missing ':'") (getns (58 :: rest)).2
    else done (name, (getns (58 :: rest)).2)) = _
  rw [getns_cons (by decide), if_neg (by simp)]

/-! ### Numbers and literals -/

/-- What may stand behind a number or a literal. -/
def Stops (rest : Str) : Prop :=
  ∀ c ∈ rest.head?, isDigit c = false ∧ c ≠ 46 ∧ c ≠ 69 ∧ ¬(97 ≤ c ∧ c ≤ 122)

theorem stops_nil : Stops [] := nofun

theorem stops_cons (mark : c = 44 ∨ c = 93 ∨ c = 125) (rest : Str) : Stops (c :: rest) := by
  intro _ same
  cases same
  rcases mark with rfl | rfl | rfl <;> exact ⟨by decide, by decide, by decide, by decide⟩

theorem digitrun_append (all : ∀ c ∈ digits, isDigit c = true) (stops : Stops rest) :
    digitrun (digits ++ rest) = (digits, rest) := by
  induction digits with
  | nil =>
    cases rest with
    | nil => rfl
    | cons c _ =>
      rw [nil_append, digitrun, if_neg (by rw [(stops c rfl).1]; decide)]
  | cons c _ ih =>
    rw [cons_append, digitrun, if_pos (all c mem_cons_self),
      ih (forall_mem_cons.1 all).2]

theorem readdigits_append (some_ : digits ≠ []) (all : ∀ c ∈ digits, isDigit c = true)
    (stops : Stops rest) : readdigits (digits ++ rest) = done (digits, rest) := by
  have run := digitrun_append all stops
  cases digits with
  | nil => exact absurd rfl some_
  | cons c _ =>
    rw [cons_append] at run ⊢
    unfold readdigits
    simp only
    rw [if_pos (all c mem_cons_self), run]

theorem readfraction_stops (stops : Stops rest) : readfraction rest = done ([], rest) := by
  unfold readfraction
  rw [if_neg]
  cases rest with
  | nil => exact nofun
  | cons c _ =>
    intro point
    exact (stops c rfl).2.1 (Option.some.inj point)

theorem readexponent_stops (stops : Stops rest) : readexponent rest = done ([], rest) := by
  cases rest with
  | nil => rfl
  | cons c _ =>
    have other := stops c rfl
    unfold readexponent
    simp only
    rw [if_neg]
    rintro (small | capital)
    · exact other.2.2.2 (by omega)
    · exact other.2.2.1 capital

/-- The values of a `big`. -/
def InBig (n : Int) : Prop := -2 ^ 63 ≤ n ∧ n < 2 ^ 63

theorem big_decimal (inBig : InBig n) : big (decimal n) = n := by
  unfold InBig at inBig
  unfold big
  rw [strtol_decimal]
  norm_num at inBig ⊢
  apply Int.bmod_eq_of_le <;> omega

theorem readnumber_digits {reals : Reals ρ} {c : Nat} {p digits rest : Str}
    (front : (if c = 45 then p else c :: p) = digits ++ rest) (some_ : digits ≠ [])
    (all : ∀ c ∈ digits, isDigit c = true) (stops : Stops rest) :
    readnumber reals c p =
      done (.int (big ((if c = 45 then [45] else []) ++ digits)), rest) := by
  unfold readnumber
  rw [front, readdigits_append some_ all stops]
  show ((readfraction rest).next fun fracp => (readexponent fracp.2).next fun exp =>
    let intp := (if c = 45 then [45] else []) ++ digits
    if fracp.1 ≠ [] ∨ exp.1 ≠ [] then
      done (JValue.real (reals.ofText (intp ++ 46 :: fracp.1 ++ exp.1)), exp.2)
    else done (JValue.int (big intp), exp.2)) = _
  rw [readfraction_stops stops]
  show ((readexponent rest).next fun exp =>
    let intp := (if c = 45 then [45] else []) ++ digits
    if ([] : Str) ≠ [] ∨ exp.1 ≠ [] then
      done (JValue.real (reals.ofText (intp ++ 46 :: [] ++ exp.1)), exp.2)
    else done (JValue.int (big intp), exp.2)) = _
  rw [readexponent_stops stops]
  rfl

theorem letterrun_append (all : ∀ c ∈ letters, 97 ≤ c ∧ c ≤ 122) (stops : Stops rest) :
    letterrun (letters ++ rest) = (letters, rest) := by
  induction letters with
  | nil =>
    cases rest with
    | nil => rfl
    | cons c _ => rw [nil_append, letterrun, if_neg (stops c rfl).2.2.2]
  | cons c _ ih =>
    rw [cons_append, letterrun, if_pos (all c mem_cons_self),
      ih (forall_mem_cons.1 all).2]

/-! ### The front of a value -/

variable {v : JValue ρ}

section Front

variable {io : Iobuf} {reals : Reals ρ} {fuel : Nat}

theorem readval_cons (visible : isblank c = false) (p : Str) :
    readval io reals (fuel + 1) (c :: p) =
      if c = 123 then
        (bracketed 125 (str "missing '\x7d' at end of object") p
          fun p => readpairs io reals fuel p).next fun l => done (.object l.1, l.2)
      else if c = 91 then
        (bracketed 93 (str "missing ']' at end of array") p
          fun p => readitems io reals fuel p).next fun l => done (.array l.1, l.2)
      else if c = 34 then
        Reading.next (some (readstring io p)) fun read => done (.string read.1, read.2)
      else if c = 45 ∨ isDigit c then readnumber reals c p
      else if 97 ≤ c ∧ c ≤ 122 then readliteral c p
      else raise (str "unexpected character #" ++ ux4 c) p := by
  rw [readval, getns_cons visible]

theorem readval_string (s rest : Str) :
    readval io reals (fuel + 1) (quote s ++ rest) = done (.string s, rest) := by
  have shape : quote s ++ rest = 34 :: (escaped s ++ 34 :: rest) := by
    unfold quote
    rw [cons_append, append_assoc]
    rfl
  rw [shape, readval_cons (by decide), if_neg (by decide), if_neg (by decide), if_pos rfl,
    readstring_escaped]
  rfl

theorem isblank_of_isDigit (digit : isDigit c = true) : isblank c = false := by
  have bounds := isDigit_bounds digit
  simp only [isblank, Bool.or_eq_false_iff, beq_eq_false_iff_ne]
  omega

theorem readval_int (inBig : InBig n) (stops : Stops rest) :
    readval io reals (fuel + 1) (decimal n ++ rest) = done (.int n, rest) := by
  have value := big_decimal inBig
  cases n with
  | ofNat m =>
    have ⟨c, digits, shape⟩ := exists_cons_of_ne_nil (natDigits_ne_nil m)
    have all : ∀ d ∈ c :: digits, isDigit d = true := by
      intro d member
      rw [← shape] at member
      exact isDigit_of_mem_natDigits member
    have digit := all c mem_cons_self
    have bounds := isDigit_bounds digit
    have text : decimal (Int.ofNat m) = c :: digits := shape
    rw [text] at value
    have front : (if c = 45 then digits ++ rest else c :: (digits ++ rest)) =
        (c :: digits) ++ rest := if_neg (by omega)
    have read := @readnumber_digits ρ reals c (digits ++ rest) (c :: digits) rest front
      (cons_ne_nil _ _) all stops
    rw [if_neg (show c ≠ 45 by omega), nil_append, value] at read
    rw [text, cons_append, readval_cons (isblank_of_isDigit digit), if_neg (by omega),
      if_neg (by omega), if_neg (by omega), if_pos (Or.inr digit), read]
  | negSucc m =>
    have all : ∀ d ∈ natDigits (m + 1), isDigit d = true := by
      intro _ member
      exact isDigit_of_mem_natDigits member
    have text : decimal (Int.negSucc m) = 45 :: natDigits (m + 1) := rfl
    rw [text] at value
    have read := @readnumber_digits ρ reals 45 (natDigits (m + 1) ++ rest) (natDigits (m + 1))
      rest (if_pos rfl) (natDigits_ne_nil _) all stops
    rw [if_pos rfl, singleton_append, value] at read
    rw [text, cons_append, readval_cons (by decide), if_neg (by decide),
      if_neg (by decide), if_neg (by decide), if_pos (Or.inl rfl), read]

theorem readval_literal (all : ∀ d ∈ c :: letters, 97 ≤ d ∧ d ≤ 122) (stops : Stops rest)
    (named : ∀ p, letterrun p = (letters, rest) → readliteral c p = done (v, rest)) :
    readval io reals (fuel + 1) ((c :: letters) ++ rest) = done (v, rest) := by
  have letter := all c mem_cons_self
  have run := letterrun_append (forall_mem_cons.1 all).2 stops
  have visible : isblank c = false := by
    simp only [isblank, Bool.or_eq_false_iff, beq_eq_false_iff_ne]
    omega
  have notDigit : ¬(c = 45 ∨ isDigit c = true) := by
    rintro (minus | digit)
    · omega
    · have bounds := isDigit_bounds digit
      omega
  rw [cons_append, readval_cons visible, if_neg (by omega), if_neg (by omega),
    if_neg (by omega), if_neg notDigit, if_pos letter, named _ run]

theorem readval_true (stops : Stops rest) :
    readval io reals (fuel + 1) (str "true" ++ rest) = done (.true, rest) := by
  apply readval_literal (c := 116) (by decide) stops
  intro _ run
  unfold readliteral
  rw [run]
  rfl

theorem readval_false (stops : Stops rest) :
    readval io reals (fuel + 1) (str "false" ++ rest) = done (.false, rest) := by
  apply readval_literal (c := 102) (by decide) stops
  intro _ run
  unfold readliteral
  rw [run]
  rfl

theorem readval_null (stops : Stops rest) :
    readval io reals (fuel + 1) (str "null" ++ rest) = done (.null, rest) := by
  apply readval_literal (c := 110) (by decide) stops
  intro _ run
  unfold readliteral
  rw [run]
  rfl

end Front

/-! ### Values -/

mutual

/-- No reals and no missing parts, 64-bit numbers, and strings of 16-bit characters. -/
def Whole : JValue ρ → Prop
  | .nil => False
  | .object mem => WholeMembers mem
  | .array a => WholeItems a
  | .string s => Lib9.Runes s
  | .int n => InBig n
  | .real _ => False
  | .true => True
  | .false => True
  | .null => True

def WholeItems : List (JValue ρ) → Prop
  | [] => True
  | v :: others => Whole v ∧ WholeItems others

def WholeMembers : List (Str × JValue ρ) → Prop
  | [] => True
  | (name, v) :: others => (Lib9.Runes name ∧ Whole v) ∧ WholeMembers others

end

/-- The items of an array without the brackets. -/
def itemtext (reals : Reals ρ) (gap : Str) : List (JValue ρ) → Str
  | [] => []
  | v :: others => render reals gap v ++ renderitems reals gap others

def membertext (reals : Reals ρ) (gap : Str) : List (Str × JValue ρ) → Str
  | [] => []
  | (name, v) :: others =>
    quote name ++ 58 :: (gap ++ (render reals gap v ++ rendermembers reals gap others))

theorem decimal_head (n : Int) : ∃ c text, decimal n = c :: text ∧ isblank c = false ∧ c ≠ 93 := by
  have ⟨c, text, shape⟩ := exists_cons_of_ne_nil (decimal_ne_nil n)
  refine ⟨c, text, shape, ?_⟩
  rcases mem_decimal (n := n) (c := c) (by rw [shape]; exact mem_cons_self) with digit | rfl
  · have bounds := isDigit_bounds digit
    exact ⟨isblank_of_isDigit digit, by omega⟩
  · exact ⟨by decide, by decide⟩

/-- The text of a value begins with no blank, and not with the end of an array. -/
theorem render_head (reals : Reals ρ) (gap : Str) (whole : Whole v) :
    ∃ c text, render reals gap v = c :: text ∧ isblank c = false ∧ c ≠ 93 := by
  cases v with
  | nil => exact absurd whole (by unfold Whole; exact id)
  | real _ => exact absurd whole (by unfold Whole; exact id)
  | int n =>
    unfold render
    exact decimal_head n
  | string _ => exact ⟨34, _, rfl, by decide, by decide⟩
  | true => exact ⟨116, _, rfl, by decide, by decide⟩
  | false => exact ⟨102, _, rfl, by decide, by decide⟩
  | null => exact ⟨110, _, rfl, by decide, by decide⟩
  | array a => cases a <;> exact ⟨91, _, rfl, by decide, by decide⟩
  | object mem => cases mem <;> exact ⟨123, _, rfl, by decide, by decide⟩

theorem unget_getns (visible : isblank c = false) (p : Str) :
    unget (getns (c :: p)).1 (getns (c :: p)).2 = c :: p := by
  rw [getns_cons visible]
  rfl

theorem bracketed_empty (visible : isblank close = false) (missing : Str) (rest : Str)
    (items : Str → Reading (List α × Option Nat × Str)) :
    bracketed close missing (close :: rest) items = done ([], rest) := by
  unfold bracketed
  rw [getns_cons visible, if_pos rfl]
  show (if some close = some close then _ else _) = _
  rw [if_pos rfl]

theorem bracketed_items (visible : isblank c = false) (other : c ≠ close) {missing : Str}
    {l : List α} {items : Str → Reading (List α × Option Nat × Str)}
    (read : items (c :: p) = done (l, some close, rest)) :
    bracketed close missing (c :: p) items = done (l, rest) := by
  unfold bracketed
  rw [unget_getns visible, getns_cons visible, if_neg (fun same => other (Option.some.inj same)),
    read]
  show (if some close = some close then done (l, rest) else _) = _
  rw [if_pos rfl]

theorem next_done {β : Type} (a : α) (rest : α → Reading β) :
    (done a).next rest = rest a := rfl

variable {reals : Reals ρ}

theorem readitems_last (read : readval io reals fuel p = done (v, 93 :: rest)) :
    readitems io reals (fuel + 1) p = done ([v], some 93, rest) := by
  rw [readitems, read]
  rfl

theorem readitems_more {l : List (JValue ρ)} (read : readval io reals fuel p = done (v, 44 :: q))
    (more : readitems io reals fuel q = done (l, behind)) :
    readitems io reals (fuel + 1) p = done (v :: l, behind) := by
  rw [readitems, read, next_done, getns_cons (by decide), if_pos rfl, more]
  rfl

theorem readpairs_last (named : readname io p = done (name, q))
    (read : readval io reals fuel q = done (v, 125 :: rest)) :
    readpairs io reals (fuel + 1) p = done ([(name, v)], some 125, rest) := by
  rw [readpairs, named, next_done, read]
  rfl

theorem readpairs_more {r : Str} {l : List (Str × JValue ρ)}
    (named : readname io p = done (name, q)) (read : readval io reals fuel q = done (v, 44 :: r))
    (more : readpairs io reals fuel r = done (l, behind)) :
    readpairs io reals (fuel + 1) p = done ((name, v) :: l, behind) := by
  rw [readpairs, named, next_done, read, next_done, getns_cons (by decide), if_pos rfl, more]
  rfl

mutual

/-- Every whole value is read back from its text. -/
theorem readval_render (io : Iobuf) (reals : Reals ρ) {gap : Str} (blank : Blank gap) :
    ∀ (v : JValue ρ) (rest : Str) (fuel : Nat), Whole v → Stops rest →
      2 * (render reals gap v ++ rest).length + 1 ≤ fuel →
      readval io reals fuel (render reals gap v ++ rest) = done (v, rest)
  | v, rest, 0, _, _, enough => absurd enough (Nat.not_succ_le_zero _)
  | .nil, _, _ + 1, whole, _, _ => whole.elim
  | .real _, _, _ + 1, whole, _, _ => whole.elim
  | .true, rest, fuel + 1, _, stops, _ => readval_true stops
  | .false, rest, fuel + 1, _, stops, _ => readval_false stops
  | .null, rest, fuel + 1, _, stops, _ => readval_null stops
  | .int n, rest, fuel + 1, whole, stops, _ => readval_int whole stops
  | .string s, rest, fuel + 1, _, _, _ => readval_string s rest
  | .array [], rest, fuel + 1, _, _, _ => by
    show readval io reals (fuel + 1) (91 :: 93 :: rest) = _
    rw [readval_cons (by decide), if_neg (by decide), if_pos rfl,
      bracketed_empty (by decide)]
    rfl
  | .array (first :: others), rest, fuel + 1, whole, _, enough => by
    have ⟨c, text, shape, visible, other⟩ := render_head reals gap whole.1
    have layout : render reals gap (.array (first :: others)) ++ rest =
        91 :: (itemtext reals gap (first :: others) ++ 93 :: rest) := by
      show 91 :: (render reals gap first ++ (renderitems reals gap others ++ [93])) ++ rest =
        91 :: (render reals gap first ++ renderitems reals gap others ++ 93 :: rest)
      simp
    have front : itemtext reals gap (first :: others) ++ 93 :: rest =
        c :: (text ++ renderitems reals gap others ++ 93 :: rest) := by
      show render reals gap first ++ renderitems reals gap others ++ 93 :: rest = _
      rw [shape]
      rfl
    rw [layout, length_cons] at enough
    have items := readitems_render io reals blank (first :: others) rest fuel whole
      (cons_ne_nil _ _) (by omega)
    rw [front] at items
    rw [layout, front, readval_cons (by decide), if_neg (by decide), if_pos rfl,
      bracketed_items visible other items]
    rfl
  | .object [], rest, fuel + 1, _, _, _ => by
    show readval io reals (fuel + 1) (123 :: 125 :: rest) = _
    rw [readval_cons (by decide), if_pos rfl, bracketed_empty (by decide)]
    rfl
  | .object ((name, v) :: others), rest, fuel + 1, whole, _, enough => by
    have layout : render reals gap (.object ((name, v) :: others)) ++ rest =
        123 :: (membertext reals gap ((name, v) :: others) ++ 125 :: rest) := by
      show 123 :: (quote name ++ (58 :: (gap ++ (render reals gap v ++
        (rendermembers reals gap others ++ [125]))))) ++ rest =
        123 :: (quote name ++ 58 :: (gap ++ (render reals gap v ++
          rendermembers reals gap others)) ++ 125 :: rest)
      simp
    rw [layout, length_cons] at enough
    have members := readpairs_render io reals blank ((name, v) :: others) rest fuel whole
      (cons_ne_nil _ _) (by omega)
    obtain ⟨text, front⟩ : ∃ text,
        membertext reals gap ((name, v) :: others) ++ 125 :: rest = 34 :: text := ⟨_, rfl⟩
    rw [front] at members
    rw [layout, front, readval_cons (by decide), if_pos rfl,
      bracketed_items (by decide) (by decide) members]
    rfl

theorem readitems_render (io : Iobuf) (reals : Reals ρ) {gap : Str} (blank : Blank gap) :
    ∀ (items : List (JValue ρ)) (rest : Str) (fuel : Nat), WholeItems items → items ≠ [] →
      2 * (itemtext reals gap items ++ 93 :: rest).length + 2 ≤ fuel →
      readitems io reals fuel (itemtext reals gap items ++ 93 :: rest) =
        done (items, some 93, rest)
  | _, _, 0, _, _, enough => absurd enough (Nat.not_succ_le_zero _)
  | [], _, _ + 1, _, some_, _ => absurd rfl some_
  | [v], rest, fuel + 1, whole, _, enough => by
    have layout : itemtext reals gap [v] ++ 93 :: rest =
        render reals gap v ++ 93 :: rest := by
      show render reals gap v ++ [] ++ 93 :: rest = _
      rw [append_nil]
    rw [layout] at enough ⊢
    apply readitems_last
    exact readval_render io reals blank v (93 :: rest) fuel whole.1
      (stops_cons (by decide) rest) (by omega)
  | v :: w :: others, rest, fuel + 1, whole, _, enough => by
    have layout : itemtext reals gap (v :: w :: others) ++ 93 :: rest =
        render reals gap v ++
          44 :: (gap ++ (itemtext reals gap (w :: others) ++ 93 :: rest)) := by
      show render reals gap v ++ (44 :: (gap ++ (render reals gap w ++
        renderitems reals gap others))) ++ 93 :: rest =
        render reals gap v ++ 44 :: (gap ++ (render reals gap w ++
          renderitems reals gap others ++ 93 :: rest))
      simp
    rw [layout] at enough ⊢
    have inner : 2 * (itemtext reals gap (w :: others) ++ 93 :: rest).length + 2 ≤ fuel := by
      simp only [length_append, length_cons] at enough ⊢
      omega
    apply readitems_more
    · exact readval_render io reals blank v _ fuel whole.1 (stops_cons (by decide) _) (by omega)
    · rw [readitems_append blank]
      exact readitems_render io reals blank (w :: others) rest fuel whole.2
        (cons_ne_nil _ _) inner

theorem readpairs_render (io : Iobuf) (reals : Reals ρ) {gap : Str} (blank : Blank gap) :
    ∀ (mem : List (Str × JValue ρ)) (rest : Str) (fuel : Nat), WholeMembers mem → mem ≠ [] →
      2 * (membertext reals gap mem ++ 125 :: rest).length + 2 ≤ fuel →
      readpairs io reals fuel (membertext reals gap mem ++ 125 :: rest) =
        done (mem, some 125, rest)
  | _, _, 0, _, _, enough => absurd enough (Nat.not_succ_le_zero _)
  | [], _, _ + 1, _, some_, _ => absurd rfl some_
  | [(name, v)], rest, fuel + 1, whole, _, enough => by
    have layout : membertext reals gap [(name, v)] ++ 125 :: rest =
        quote name ++ 58 :: (gap ++ (render reals gap v ++ 125 :: rest)) := by
      show quote name ++ 58 :: (gap ++ (render reals gap v ++ [])) ++ 125 :: rest = _
      simp
    rw [layout] at enough ⊢
    have inner : 2 * (render reals gap v ++ 125 :: rest).length + 1 ≤ fuel := by
      simp only [length_append, length_cons] at enough ⊢
      omega
    apply readpairs_last (readname_quote io name _)
    rw [readval_append blank]
    exact readval_render io reals blank v (125 :: rest) fuel whole.1.2
      (stops_cons (by decide) rest) inner
  | (name, v) :: next :: others, rest, fuel + 1, whole, _, enough => by
    have layout : membertext reals gap ((name, v) :: next :: others) ++ 125 :: rest =
        quote name ++ 58 :: (gap ++ (render reals gap v ++
          44 :: (gap ++ (membertext reals gap (next :: others) ++ 125 :: rest)))) := by
      show quote name ++ 58 :: (gap ++ (render reals gap v ++ (44 :: (gap ++
          (quote next.1 ++ (58 :: (gap ++ (render reals gap next.2 ++
            rendermembers reals gap others)))))))) ++ 125 :: rest =
        quote name ++ 58 :: (gap ++ (render reals gap v ++ 44 :: (gap ++
          (quote next.1 ++ 58 :: (gap ++ (render reals gap next.2 ++
            rendermembers reals gap others)) ++ 125 :: rest))))
      simp
    rw [layout] at enough ⊢
    have outer : 2 * (render reals gap v ++
        44 :: (gap ++ (membertext reals gap (next :: others) ++ 125 :: rest))).length + 1 ≤
          fuel := by
      simp only [length_append, length_cons] at enough ⊢
      omega
    have inner : 2 * (membertext reals gap (next :: others) ++ 125 :: rest).length + 2 ≤
        fuel := by
      simp only [length_append, length_cons] at outer ⊢
      omega
    apply readpairs_more (readname_quote io name _)
    · rw [readval_append blank]
      exact readval_render io reals blank v _ fuel whole.1.2 (stops_cons (by decide) _) outer
    · rw [readpairs_append blank]
      exact readpairs_render io reals blank (next :: others) rest fuel whole.2
        (cons_ne_nil _ _) inner

end

/-! ### Characters -/

theorem runes_cons (small : c < 65536) (runes : Lib9.Runes s) : Lib9.Runes (c :: s) := by
  intro d member
  rcases mem_cons.1 member with rfl | member
  · exact small
  · exact runes d member

theorem hexdigit_lt {v : Nat} (small : v < 16) : hexdigit v < 65536 := by
  unfold hexdigit
  split <;> omega

theorem runes_escout (c : Nat) : Lib9.Runes (escout c) := by
  unfold escout
  split_ifs
  case neg =>
    have letters : Lib9.Runes (str "\\u") := by
      unfold Lib9.Runes
      decide
    refine letters.append ?_
    have digit : ∀ n, hexdigit (n % 16) < 65536 :=
      fun n => hexdigit_lt (Nat.mod_lt n (by decide))
    exact runes_cons (digit _) (runes_cons (digit _) (runes_cons (digit _)
      (runes_cons (digit _) nofun)))
  all_goals
    unfold Lib9.Runes
    decide

theorem runes_quote (runes : Lib9.Runes s) : Lib9.Runes (quote s) := by
  have inside : Lib9.Runes (escaped s) := by
    intro c member
    have ⟨d, here, written⟩ := mem_flatMap.1 member
    split at written
    · exact runes_escout d c written
    · rw [mem_singleton.1 written]
      exact runes d here
  exact runes_cons (by decide) (inside.append (runes_cons (by decide) nofun))

theorem runes_decimal (n : Int) : Lib9.Runes (decimal n) := by
  intro _ member
  rcases mem_decimal member with digit | rfl
  · have bounds := isDigit_bounds digit
    omega
  · decide

mutual

/-- The text of a whole value consists of 16-bit characters. -/
theorem runes_render (reals : Reals ρ) {gap : Str} (gapRunes : Lib9.Runes gap) :
    ∀ v : JValue ρ, Whole v → Lib9.Runes (render reals gap v)
  | .nil, whole => whole.elim
  | .real _, whole => whole.elim
  | .true, _ => by unfold Lib9.Runes render; decide
  | .false, _ => by unfold Lib9.Runes render; decide
  | .null, _ => by unfold Lib9.Runes render; decide
  | .int n, _ => runes_decimal n
  | .string _, whole => runes_quote whole
  | .array [], _ => by unfold Lib9.Runes render; decide
  | .array (first :: others), whole =>
    runes_cons (by decide) ((runes_render reals gapRunes first whole.1).append
      ((runes_renderitems reals gapRunes others whole.2).append (runes_cons (by decide) nofun)))
  | .object [], _ => by unfold Lib9.Runes render; decide
  | .object ((name, v) :: others), whole =>
    runes_cons (by decide) ((runes_quote whole.1.1).append (runes_cons (by decide)
      (gapRunes.append ((runes_render reals gapRunes v whole.1.2).append
        ((runes_rendermembers reals gapRunes others whole.2).append (runes_cons (by decide) nofun))))))

theorem runes_renderitems (reals : Reals ρ) {gap : Str} (gapRunes : Lib9.Runes gap) :
    ∀ a : List (JValue ρ), WholeItems a → Lib9.Runes (renderitems reals gap a)
  | [], _ => nofun
  | v :: others, whole =>
    runes_cons (by decide) (gapRunes.append ((runes_render reals gapRunes v whole.1).append
      (runes_renderitems reals gapRunes others whole.2)))

theorem runes_rendermembers (reals : Reals ρ) {gap : Str} (gapRunes : Lib9.Runes gap) :
    ∀ mem : List (Str × JValue ρ), WholeMembers mem → Lib9.Runes (rendermembers reals gap mem)
  | [], _ => nofun
  | (name, v) :: others, whole =>
    runes_cons (by decide) (gapRunes.append ((runes_quote whole.1.1).append
      (runes_cons (by decide) (gapRunes.append ((runes_render reals gapRunes v whole.1.2).append
        (runes_rendermembers reals gapRunes others whole.2))))))

end

/-! ### Equality -/

mutual

theorem eq_self (reals : Reals ρ) : ∀ v : JValue ρ, Whole v → v.eq reals v = true
  | .nil, whole => whole.elim
  | .real _, whole => whole.elim
  | .true, _ => rfl
  | .false, _ => rfl
  | .null, _ => rfl
  | .int n, _ => beq_self_eq_true n
  | .string s, _ => beq_self_eq_true s
  | .array a, whole => eqitems_self reals a whole
  | .object mem, whole => eqmembers_self reals mem whole

theorem eqitems_self (reals : Reals ρ) : ∀ a : List (JValue ρ), WholeItems a →
    eqitems reals a a = true
  | [], _ => rfl
  | v :: others, whole => by
    rw [eqitems, eq_self reals v whole.1, eqitems_self reals others whole.2]
    rfl

theorem eqmembers_self (reals : Reals ρ) : ∀ mem : List (Str × JValue ρ), WholeMembers mem →
    eqmembers reals mem mem = true
  | [], _ => rfl
  | (name, v) :: others, whole => by
    rw [eqmembers, eq_self reals v whole.1.2, eqmembers_self reals others whole.2,
      beq_self_eq_true]
    rfl

end

end Infernode.Json
