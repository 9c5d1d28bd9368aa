import Infernode.Text.Decimal
import Mathlib.Tactic.SplitIfs

/-!
The values, the writers and the reader of `appl/lib/json.b`.

Owns: `JValue` with `eq`, `get` and `set`; `writeval` and `text`, which differ in the blanks
between the items alone; `readjson` over the characters of a buffer.

Does not own: the buffer, of which only its characters, the offsets of these and the way it
ends are used, or the conversion of reals.
-/

namespace Infernode.Json

open Text

/-! ### Values -/

/-- A reference to a value; `nil` is the one that refers to nothing. -/
inductive JValue (ρ : Type)
  | nil
  | object (mem : List (Str × JValue ρ))
  | array (a : List (JValue ρ))
  | string (s : Str)
  | int (value : Int)
  | real (value : ρ)
  | true
  | false
  | null

structure Reals (ρ : Type) where
  ofText : Str → ρ
  text : ρ → Str
  eq : ρ → ρ → Bool

variable {ρ : Type}

mutual

/-- Structural equality. The code also takes a value to be equal to itself at once, which
only a real could belie. -/
def JValue.eq (reals : Reals ρ) : JValue ρ → JValue ρ → Bool
  | .nil, .nil => Bool.true
  | .true, .true => Bool.true
  | .false, .false => Bool.true
  | .null, .null => Bool.true
  | .int r, .int s => r == s
  | .real r, .real s => reals.eq r s
  | .string r, .string s => r == s
  | .array r, .array s => eqitems reals r s
  | .object r, .object s => eqmembers reals r s
  | _, _ => Bool.false

def eqitems (reals : Reals ρ) : List (JValue ρ) → List (JValue ρ) → Bool
  | [], [] => Bool.true
  | r :: rs, s :: ss => r.eq reals s && eqitems reals rs ss
  | _, _ => Bool.false

def eqmembers (reals : Reals ρ) :
    List (Str × JValue ρ) → List (Str × JValue ρ) → Bool
  | [], [] => Bool.true
  | (rn, rv) :: rs, (sn, sv) :: ss => (rn == sn && rv.eq reals sv) && eqmembers reals rs ss
  | _, _ => Bool.false

end

/-- The first member of the name, or `nil`. -/
def getmem : List (Str × JValue ρ) → Str → JValue ρ
  | [], _ => .nil
  | (name, value) :: l, mem => if name = mem then value else getmem l mem

def JValue.get (v : JValue ρ) (mem : Str) : JValue ρ :=
  match v with
  | .object l => getmem l mem
  | _ => .nil

/-- The loop of `set` that puts the members `ol` back in front of `l`. -/
def putback : List (Str × JValue ρ) → List (Str × JValue ρ) → List (Str × JValue ρ)
  | [], l => l
  | first :: ol, l => putback ol (first :: l)

/-- The loop of `set`: `ol` are the members already seen, the last one first. Where the name
is found its member is left out, and the value is not put in. -/
def setmem (all : List (Str × JValue ρ)) (mem : Str) (val : JValue ρ) :
    List (Str × JValue ρ) → List (Str × JValue ρ) → List (Str × JValue ρ)
  | _, [] => (mem, val) :: all
  | ol, first :: l => if first.1 = mem then putback ol l else setmem all mem val (first :: ol) l

/-- `none` is the exception for a value that is no object. -/
def JValue.set (v : JValue ρ) (mem : Str) (val : JValue ρ) : Option (JValue ρ) :=
  match v with
  | .object l => some (.object (setmem l mem val [] l))
  | _ => none

/-! ### Writing -/

def needesc (c : Nat) : Bool := c == 34 || c == 92 || c == 47 || decide (c ≤ 0x1F)

def hexdigit (v : Nat) : Nat := if v < 10 then 48 + v else 87 + v

/-- `%.4ux` of a 16-bit character. -/
def ux4 (c : Nat) : Str :=
  [hexdigit (c / 4096 % 16), hexdigit (c / 256 % 16), hexdigit (c / 16 % 16), hexdigit (c % 16)]

def escout (c : Nat) : Str :=
  if c = 34 then [92, 34]
  else if c = 92 then [92, 92]
  else if c = 47 then [92, 47]
  else if c = 8 then str "\\b"
  else if c = 12 then str "\\f"
  else if c = 10 then str "\\n"
  else if c = 9 then str "\\t"
  else if c = 13 then str "\\r"
  else str "\\u" ++ ux4 c

/-- The characters of a string between the quotes. -/
def escaped (s : Str) : Str := s.flatMap fun c => if needesc c then escout c else [c]

def quote (s : Str) : Str := 34 :: (escaped s ++ [34])

mutual

/-- The text of a value, with `gap` behind every comma and colon. -/
def render (reals : Reals ρ) (gap : Str) : JValue ρ → Str
  | .nil => str "null"
  | .true => str "true"
  | .false => str "false"
  | .null => str "null"
  | .int value => decimal value
  | .real value => reals.text value
  | .string s => quote s
  | .array [] => [91, 93]
  | .array (first :: others) =>
    91 :: (render reals gap first ++ (renderitems reals gap others ++ [93]))
  | .object [] => [123, 125]
  | .object ((name, value) :: others) =>
    123 :: (quote name ++ (58 :: (gap ++ (render reals gap value ++
      (rendermembers reals gap others ++ [125])))))

/-- The items behind the first, each with its comma. -/
def renderitems (reals : Reals ρ) (gap : Str) : List (JValue ρ) → Str
  | [] => []
  | v :: others => 44 :: (gap ++ (render reals gap v ++ renderitems reals gap others))

def rendermembers (reals : Reals ρ) (gap : Str) : List (Str × JValue ρ) → Str
  | [] => []
  | (name, value) :: others =>
    44 :: (gap ++ (quote name ++ (58 :: (gap ++ (render reals gap value ++
      rendermembers reals gap others)))))

end

/-- The characters that `writejson` puts. -/
def writeval (reals : Reals ρ) (o : JValue ρ) : Str := render reals [] o

def JValue.text (reals : Reals ρ) (v : JValue ρ) : Str := render reals [32] v

/-! ### The buffer -/

/-- The characters that `getc` takes from a buffer, one after the other, the byte offset in
front of each, and what a read behind the last comes to: the end of the file, or an error. -/
structure Iobuf where
  chars : Str
  offset : Nat → Nat
  error : Option Str

/-- A syntax error: its text, and the characters not read yet. -/
structure Syntax where
  text : Str
  left : Str

/-- What a reader comes to; `none` when its fuel runs out. -/
abbrev Reading (α : Type) := Option (Except Syntax α)

def Reading.next {α β : Type} (reading : Reading α) (continue_ : α → Reading β) : Reading β :=
  match reading with
  | none => none
  | some (.error e) => some (.error e)
  | some (.ok a) => continue_ a

def done {α : Type} (a : α) : Reading α := some (.ok a)

def raise {α : Type} (text : Str) (p : Str) : Reading α := some (.error ⟨text, p⟩)

/-- The next character; `none` is a negative number, and stays. -/
def getc : Str → Option Nat × Str
  | [] => (none, [])
  | c :: p => (some c, p)

/-- The character that was taken last is put back. -/
def unget (c : Option Nat) (p : Str) : Str :=
  match c with
  | none => p
  | some c => c :: p

def isblank (c : Nat) : Bool := c == 32 || c == 9 || c == 10 || c == 13

def getns : Str → Option Nat × Str
  | [] => (none, [])
  | c :: p => if isblank c then getns p else (some c, p)

/-! ### Reading -/

def Iobuf.stopped (io : Iobuf) (text : Str) : Str :=
  match io.error with
  | none => text
  | some e => str "read error: " ++ e

def hex (c : Option Nat) : Option Nat :=
  match c with
  | none => none
  | some c =>
    if 48 ≤ c ∧ c ≤ 57 then some (c - 48)
    else if 97 ≤ c ∧ c ≤ 102 then some (10 + (c - 97))
    else if 65 ≤ c ∧ c ≤ 70 then some (10 + (c - 65))
    else none

/-- What is left of a text, and is not longer than it. -/
abbrev Left (p : Str) := { q : Str // q.length ≤ p.length }

/-- The four digits behind `\u`. -/
def readhex : Nat → Nat → (p : Str) → Except Syntax (Nat × Left p)
  | 0, c, p => .ok (c, ⟨p, Nat.le_refl _⟩)
  | _ + 1, _, [] => .error ⟨str "invalid hex digit", []⟩
  | n + 1, c, digit :: p =>
    match hex (some digit) with
    | none => .error ⟨str "invalid hex digit", p⟩
    | some value =>
      (readhex n (16 * c + value) p).map fun read =>
        (read.1, ⟨read.2.1, Nat.le_succ_of_le read.2.2⟩)

/-- The character that stands for an escape other than `\u`. -/
def unescape (c : Nat) : Nat :=
  if c = 98 then 8
  else if c = 102 then 12
  else if c = 110 then 10
  else if c = 114 then 13
  else if c = 116 then 9
  else c

def readescape (io : Iobuf) : (p : Str) → Except Syntax (Nat × Left p)
  | [] => .error ⟨io.stopped (str "unterminated string"), []⟩
  | c :: p =>
    if c = 117 then
      (readhex 4 0 p).map fun read => (read.1, ⟨read.2.1, Nat.le_succ_of_le read.2.2⟩)
    else .ok (unescape c, ⟨p, Nat.le_succ _⟩)

def readstring (io : Iobuf) : Str → Except Syntax (Str × Str)
  | [] => .error ⟨io.stopped (str "unterminated string"), []⟩
  | c :: p =>
    if c = 34 then .ok ([], p)
    else if c ≠ 92 then (readstring io p).map fun read => (c :: read.1, read.2)
    else
      match readescape io p with
      | .error e => .error e
      | .ok (d, ⟨q, _⟩) => (readstring io q).map fun read => (d :: read.1, read.2)
termination_by p => p.length

def digitrun : Str → Str × Str
  | [] => ([], [])
  | c :: p =>
    if isDigit c then (c :: (digitrun p).1, (digitrun p).2) else ([], c :: p)

def readdigits (p : Str) : Reading (Str × Str) :=
  match p with
  | [] => raise (str "expected integer literal") []
  | c :: q => if isDigit c then done (digitrun (c :: q)) else
      raise (str "expected integer literal") q

/-- What stands behind a point, if there is one. -/
def readfraction (p : Str) : Reading (Str × Str) :=
  if (getc p).1 = some 46 then readdigits (getc p).2 else done ([], p)

/-- The exponent with its letter and sign, if there is one. -/
def readexponent (p : Str) : Reading (Str × Str) :=
  match p with
  | [] => done ([], [])
  | c :: q =>
    if c = 101 ∨ c = 69 then
      if (getc q).1 = some 45 ∨ (getc q).1 = some 43 then
        (readdigits (getc q).2).next fun digits =>
          done (c :: (getc q).1.toList ++ digits.1, digits.2)
      else (readdigits q).next fun digits => done (c :: digits.1, digits.2)
    else done ([], p)

/-- `big s`. -/
def big (s : Str) : Int := Int.bmod (strtol s) (2 ^ 64)

/-- A number that begins with `c`. -/
def readnumber (reals : Reals ρ) (c : Nat) (p : Str) : Reading (JValue ρ × Str) :=
  (readdigits (if c = 45 then p else c :: p)).next fun digits =>
    (readfraction digits.2).next fun fracp =>
      (readexponent fracp.2).next fun exp =>
        let intp := (if c = 45 then [45] else []) ++ digits.1
        if fracp.1 ≠ [] ∨ exp.1 ≠ [] then
          done (.real (reals.ofText (intp ++ 46 :: fracp.1 ++ exp.1)), exp.2)
        else done (.int (big intp), exp.2)

def letterrun : Str → Str × Str
  | [] => ([], [])
  | c :: p =>
    if 97 ≤ c ∧ c ≤ 122 then (c :: (letterrun p).1, (letterrun p).2) else ([], c :: p)

def readliteral (c : Nat) (p : Str) : Reading (JValue ρ × Str) :=
  let s := c :: (letterrun p).1
  if s = str "true" then done (.true, (letterrun p).2)
  else if s = str "false" then done (.false, (letterrun p).2)
  else if s = str "null" then done (.null, (letterrun p).2)
  else raise (str "invalid literal: " ++ s) (letterrun p).2

def readname (io : Iobuf) (p : Str) : Reading (Str × Str) :=
  if (getns p).1 ≠ some 34 then raise (str "missing member name") (getns p).2
  else Reading.next (some (readstring io (getns p).2)) fun name =>
    if (getns name.2).1 ≠ some 58 then raise (str "missing ':'") (getns name.2).2
    else done (name.1, (getns name.2).2)

/-- What stands between brackets: nothing, or items up to one that no comma follows. -/
def bracketed {α : Type} (close : Nat) (missing : Str) (p : Str)
    (items : Str → Reading (List α × Option Nat × Str)) : Reading (List α × Str) :=
  Reading.next
    (if (getns p).1 = some close then done ([], getns p) else items (unget (getns p).1 (getns p).2))
    fun l => if l.2.1 = some close then done (l.1, l.2.2) else raise missing l.2.2

mutual

def readval (io : Iobuf) (reals : Reals ρ) : Nat → Str → Reading (JValue ρ × Str)
  | 0, _ => none
  | fuel + 1, p =>
    match getns p with
    | (none, p) => raise (io.stopped (str "unexpected end-of-input")) p
    | (some c, p) =>
      if c = 123 then
        (bracketed 125 (str "missing '\x7d' at end of object") p
          fun p => readpairs io reals fuel p).next fun l => done (.object l.1, l.2)
      else if c = 91 then
        (bracketed 93 (str "missing ']' at end of array") p
          fun p => readitems io reals fuel p).next fun l => done (.array l.1, l.2)
      else if c = 34 then
        Reading.next (some (readstring io p)) fun read => done (.string read.1, read.2)
      else if c = 45 ∨ isDigit c then readnumber reals c p
      else if 97 ≤ c ∧ c ≤ 122 then readliteral c p
      else raise (str "unexpected character #" ++ ux4 c) p

/-- The members of an object, and the character behind the last. -/
def readpairs (io : Iobuf) (reals : Reals ρ) :
    Nat → Str → Reading (List (Str × JValue ρ) × Option Nat × Str)
  | 0, _ => none
  | fuel + 1, p =>
    (readname io p).next fun name =>
      (readval io reals fuel name.2).next fun v =>
        if (getns v.2).1 = some 44 then
          (readpairs io reals fuel (getns v.2).2).next fun l =>
            done ((name.1, v.1) :: l.1, l.2)
        else done ([(name.1, v.1)], getns v.2)

/-- The values of an array, and the character behind the last. -/
def readitems (io : Iobuf) (reals : Reals ρ) :
    Nat → Str → Reading (List (JValue ρ) × Option Nat × Str)
  | 0, _ => none
  | fuel + 1, p =>
    (readval io reals fuel p).next fun v =>
      if (getns v.2).1 = some 44 then
        (readitems io reals fuel (getns v.2).2).next fun l => done (v.1 :: l.1, l.2)
      else done ([v.1], getns v.2)

end

def Iobuf.offsetof (io : Iobuf) (left : Str) : Nat :=
  io.offset (io.chars.length - left.length)

/-- The value and the error; both are `nil` at the end of the input. The fuel is enough for
every text of the length. -/
def readjson (reals : Reals ρ) (io : Iobuf) : Option (JValue ρ × Option Str) :=
  match getns io.chars, io.error with
  | (none, _), none => some (.nil, none)
  | (c, p), _ =>
    match readval io reals (2 * io.chars.length + 1) (unget c p) with
    | none => none
    | some (.ok (v, _)) => some (v, none)
    | some (.error e) => some (.nil, some (str "JSON syntax error (offset " ++
        natDigits (io.offsetof e.left) ++ str "): " ++ e.text))

end Infernode.Json
