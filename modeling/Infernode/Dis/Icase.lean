import Infernode.Dis.String
import Infernode.Limbo.Casecom
import Infernode.Search.Bisect

/-!
The case instructions of `libinterp/xec.c`, and the words of a table as `libinterp/load.c` loads
them.

Owns: how a word, a big and a string come from a module's file into its data, the comparison of
strings, the three searches of a table, and the run of the code that dispatches.
-/

namespace Infernode.Dis

open Limbo Search Text

/-! ### Loading -/

/-- A byte of a number, as it is put into the file. -/
def byteof (v : Int) (shift : Nat) : Nat := (v / 2 ^ shift % 256).toNat

/-- The bytes that `disint` writes. -/
def disint (v : Int) : List Nat := [byteof v 24, byteof v 16, byteof v 8, byteof v 0]

/-- The bytes that `disbig` writes. -/
def disbig (v : Int) : List Nat := disint (v / 2 ^ 32) ++ disint v

def u32 (c : List Nat) : Int := c.foldl (fun v b => v * 256 + b) 0

/-- `disw`, of four bytes. -/
def disw (c : List Nat) : Int := (u32 c).bmod (2 ^ 32)

/-- The item `DEFL`, of eight bytes. -/
def disl (c : List Nat) : Int := (u32 (c.take 4) * 2 ^ 32 + u32 (c.drop 4)).bmod (2 ^ 64)

def literal (bytes : List Nat) : DisString :=
  if bytes.all (· < 0x80) then
    ⟨bytes.length, bytes.length, bytes.length + 8, fun k => UInt8.ofNat (bytes.getD k 0)⟩
  else
    let runes := Lib9.c2string bytes
    ⟨-runes.length, runes.length, 2 * runes.length + 8,
      fun k => UInt8.ofNat (runes.getD (k / 2) 0 / 256 ^ (k % 2))⟩

/-- The data of a module by their offsets: the words, and the words that hold strings, where
`none` is `H`. -/
structure Data where
  W : Nat → Int
  S : Nat → Option DisString

def Data.initial : Data := ⟨fun _ => 0, fun _ => none⟩

def Data.load (data : Data) : Nat × Datum → Data
  | (offset, .int v) => { data with W := fun o => if o = offset then disw (disint v) else data.W o }
  | (offset, .big v) => { data with W := fun o => if o = offset then disl (disbig v) else data.W o }
  | (offset, .string name) =>
    { data with S := fun o => if o = offset then some (literal name) else data.S o }

def loaded (items : List (Nat × Datum)) : Data := items.foldl Data.load Data.initial

/-! ### Strings -/

def schar (c : Nat) : Int := if c < 128 then c else (c : Int) - 256

/-- The loops of `stringcmp`, over so many characters of both. -/
def comparefrom (c1 c2 : Nat → Int) (length : Int) : (n i : Nat) → Int
  | 0, _ => length
  | n + 1, i =>
    if c1 i ≠ c2 i then if c1 i < c2 i then -1 else 1
    else comparefrom c1 c2 length n (i + 1)

def snil : DisString := ⟨0, 0, 0, fun _ => 0⟩

def stringcmp (s1 s2 : Option DisString) : Int :=
  let s1 := s1.getD snil
  let s2 := s2.getD snil
  let length := (s1.length : Int) - s2.length
  let n := min s1.length s2.length
  if 0 ≤ s1.len ∧ 0 ≤ s2.len then
    let c := memcmp ((List.range n).map s1.ascii) ((List.range n).map s2.ascii)
    if c = 0 then length else c
  else if s1.len < 0 ∧ 0 ≤ s2.len then
    comparefrom (fun i => s1.rune i) (fun i => schar (s2.ascii i)) length n 0
  else if 0 ≤ s1.len ∧ s2.len < 0 then
    comparefrom (fun i => schar (s1.ascii i)) (fun i => s2.rune i) length n 0
  else comparefrom (fun i => s1.rune i) (fun i => s2.rune i) length n 0

/-! ### Instructions -/

/-- The count of a table. The compiler of the machine's code may have marked it. -/
def count (n : Int) : Nat := if n < 0 then (-n - 1).toNat else n.toNat

/-- On which side of the bounds at `l` the value is, the second being one behind the label. -/
def probe (data : Data) (v : Int) (l : Nat) : Ordering :=
  if v < data.W l then .lt else if data.W (l + 8) ≤ v then .gt else .eq

/-- The pc of the entry that is found, or else the default behind the `n` entries from `t` on. -/
def selected (data : Data) (stride t n : Nat) (found : Option Nat) : Int :=
  match found with
  | some l => data.W (l + 2 * IBY2WD)
  | none => data.W (t + n * stride)

def icase (data : Data) (v : Int) : Int :=
  let n := count (data.W 0)
  selected data (3 * IBY2WD) IBY2WD n (bisect (3 * IBY2WD) (probe data v) n IBY2WD)

def casel (data : Data) (v : Int) : Int :=
  let n := count (data.W 0)
  selected data (4 * IBY2WD) (2 * IBY2WD) n (bisect (4 * IBY2WD) (probe data v) n (2 * IBY2WD))

/-- On which side of the label at `l` the string is, in the search by halves. -/
def probec (data : Data) (sv : Option DisString) (l : Nat) : Ordering :=
  let r := stringcmp sv (data.S l)
  if r = 0 then .eq
  else if r < 0 then .lt
  else
    match data.S (l + IBY2WD) with
    | none => .gt
    | some sh => if 0 < stringcmp sv (some sh) then .gt else .eq

/-- Whether the string is in the label at `l`, in the search one by one. -/
def matchc (data : Data) (sv : Option DisString) (l : Nat) : Bool :=
  match data.S (l + IBY2WD) with
  | none => decide (stringcmp (data.S l) sv = 0)
  | some sh => decide (stringcmp (data.S l) sv ≤ 0 ∧ 0 ≤ stringcmp (some sh) sv)

def casec (data : Data) (sv : Option DisString) : Int :=
  let n := count (data.W 0)
  selected data (3 * IBY2WD) IBY2WD n <|
    if 2 < n then bisect (3 * IBY2WD) (probec data sv) n IBY2WD
    else scan (3 * IBY2WD) (matchc data sv) n IBY2WD

/-- The run of the code, with the selector in the register `w`. There is no result where the code
reads before its table, or does not dispatch. -/
def dispatch (data : Data) : List Op → (w : Int) → Option Int
  | [], _ => none
  | .movw :: rest, w => dispatch data rest w
  | .subw s :: rest, w => dispatch data rest (wrap (w - s))
  | .bltw m target :: rest, w => if w < m then some target else dispatch data rest w
  | .bgtw m target :: rest, w => if m < w then some target else dispatch data rest w
  | .goto :: _, w => if 0 ≤ w then some (data.W (IBY2WD + w.toNat * IBY2WD)) else none
  | .case :: _, w => some (icase data w)

/-! ### Cases -/

def tableform (origin : Nat) (arms : List (Arm Int)) (labs : List (Label Int)) :
    Option (Int → Option Int) :=
  (casecom tint origin arms labs).map fun c => dispatch (loaded (discase c)) [.case]

def jumpform (indirect : Bool) (origin : Nat) (arms : List (Arm Int)) (labs : List (Label Int)) :
    Option (Int → Option Int) :=
  (dogoto labs).bind fun labs => (gotocom origin arms labs).map fun c =>
    dispatch (loaded (disgoto c)) (gotocode indirect c)

def caseint (indirect : Bool) (origin : Nat) (arms : List (Arm Int)) :
    Option (Int → Option Int) :=
  (checklabels tint arms).bind fun labs =>
    if jumps labs then jumpform indirect origin arms labs else tableform origin arms labs

def casebig (origin : Nat) (arms : List (Arm Int)) : Option (Int → Int) :=
  (checklabels tbig arms).bind fun labs =>
    (casecom tbig origin arms labs).map fun c => casel (loaded (discasel c))

def casestring (origin : Nat) (arms : List (Arm Str)) : Option (Option DisString → Int) :=
  (checklabels tstring arms).bind fun labs =>
    (casecom tstring origin arms labs).map fun c => casec (loaded (discasec c))

end Infernode.Dis
