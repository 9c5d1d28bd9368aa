import Infernode.Lib9.Rune

/-!
The case statements of `limbo/typecheck.c` and `limbo/com.c`, and their tables of `limbo/dis.c`.

Owns: the labels of a case and their check, the choice of a table of jumps, the pcs that the arms
give to the labels, the code that dispatches, and the data of the tables.

Does not own: the code of the bodies, or the interpreter that runs all this.
-/

namespace Infernode.Limbo

open Lib9 Text

/-! ### Cases -/

/-- A qualifier of an arm: a constant, a range, or `*`. -/
inductive Qual (α : Type) where
  | const (p : α)
  | range (p q : α)
  | wild
deriving DecidableEq

/-- An arm: its qualifiers, and how many instructions its body has. -/
structure Arm (α : Type) where
  quals : List (Qual α)
  size : Nat

/-- A label. `one` is for `stop == start`, the node being the same; `node` is the arm and `inst`
the pc that it goes to. -/
structure Label (α : Type) where
  start : α
  stop : α
  one : Bool
  node : Nat
  inst : Option Nat

variable {α : Type}

/-! ### The check of the labels -/

/-- What differs between the types of a case: `casecmp`, and whether labels of an arm that follow
on each other become one. -/
structure Ctype (α : Type) where
  casecmp : α → α → Int
  follows : α → α → Bool

def valcmp (a b : Int) : Int := if a < b then -1 else if b < a then 1 else 0

def tint : Ctype Int := ⟨valcmp, fun start p => start == p + 1⟩

def tbig : Ctype Int := ⟨valcmp, fun _ _ => false⟩

/-- The first difference of the bytes that both have. -/
def memcmp : List Nat → List Nat → Int
  | a :: as, b :: bs => if a = b then memcmp as bs else a - b
  | _, _ => 0

def symcmp (s t : List Nat) : Int :=
  let c := memcmp s t
  if c = 0 then s.length - t.length else c

def tstring : Ctype Str := ⟨fun a b => symcmp (cvtca a) (cvtca b), fun _ _ => false⟩

def Qual.label (node : Nat) : Qual α → Option (Label α)
  | .const p => some ⟨p, p, true, node, none⟩
  | .range p q => some ⟨p, q, false, node, none⟩
  | .wild => none

/-- The labels of the arms from the number `node` on. -/
def labels : Nat → List (Arm α) → List (Label α)
  | _, [] => []
  | node, arm :: rest => arm.quals.filterMap (Qual.label node) ++ labels (node + 1) rest

section Checks

variable (ctype : Ctype α)

def casesort (labs : List (Label α)) : List (Label α) :=
  labs.mergeSort fun a b => decide (ctype.casecmp a.start b.start ≤ 0)

/-- The rest of the check, where the label `lab` is the last so far. -/
def checkfrom (lab : Label α) : List (Label α) → Option (List (Label α))
  | [] => some [lab]
  | next :: rest =>
    if ctype.casecmp next.start lab.stop ≤ 0 then none
    else if ctype.follows next.start lab.stop ∧ next.node = lab.node then
      checkfrom { lab with stop := next.stop, one := false } rest
    else if 0 < ctype.casecmp next.start next.stop then none
    else (checkfrom next rest).map (lab :: ·)

/-- There is no result where a label is empty or overlaps with another. -/
def checklabels (arms : List (Arm α)) : Option (List (Label α)) :=
  match casesort ctype (labels 0 arms) with
  | [] => some []
  | lab :: rest =>
    if 0 < ctype.casecmp lab.start lab.stop then none else checkfrom ctype lab rest

/-- The labels from `l` to before `r` may still be above the value. -/
def findlabfrom (v : α) (labs : List (Label α)) (l r : Nat) : Option Nat :=
  if _more : l < r then
    match labs[(r - 1 + l) / 2]? with
    | none => none
    | some lab =>
      if ctype.casecmp lab.start v ≤ 0 then findlabfrom v labs ((r - 1 + l) / 2 + 1) r
      else findlabfrom v labs l ((r - 1 + l) / 2)
  else some l
termination_by r - l

/-- The label that the value is in; there is none after `fatal`. -/
def findlab (v : α) (labs : List (Label α)) : Option Nat :=
  if labs.length ≤ 1 then some 0
  else
    (findlabfrom ctype v labs 1 labs.length).bind fun l =>
      (labs[l - 1]?).bind fun lab =>
        if 0 < ctype.casecmp lab.start v ∨ ctype.casecmp lab.stop v < 0 then none
        else some (l - 1)

end Checks

/-! ### Tables of jumps -/

/-- The loop of `dogoto` up to the end `q` of a label, with an int `j`. There is no result where it
writes behind the array, which has room for so many more. -/
def fill (lab : Label Int) (q : Int) : (room : Nat) → (j : Int) → Option (List (Label Int))
  | 0, j => if j ≤ q then none else some []
  | room + 1, j =>
    if j ≤ q then
      (fill lab q room (wrap (j + 1))).map (⟨j, j, true, lab.node, none⟩ :: ·)
    else some []

def expand : (room : Nat) → (v : Int) → List (Label Int) → Option (List (Label Int))
  | room, _, [] => if room = 0 then some [] else none
  | room, v, lab :: rest =>
    (fill lab lab.stop room (wrap (v + 1))).bind fun filled =>
      (expand (room - filled.length) lab.stop rest).map (filled ++ ·)

def spread (first last : Label Int) : Int := wrap (last.stop - first.start + 1)

def jumps (labs : List (Label Int)) : Bool :=
  match labs.head?, labs.getLast? with
  | some first, some last =>
    decide (3 ≤ spread first last ∧ spread first last ≤ 3 * labs.length)
  | _, _ => false

/-- The labels of a table of jumps, one for each value. -/
def dogoto (labs : List (Label Int)) : Option (List (Label Int)) :=
  match labs.head?, labs.getLast? with
  | some first, some last =>
    if spread first last ≠ labs.length then
      expand (spread first last).toNat (wrap (first.start - 1)) labs
    else some (labs.map fun lab => { lab with inst := none })
  | _, _ => none

def fillfrom (pc : Nat) (q : Int) : List (Label Int) → (j : Int) → Option (List (Label Int))
  | [], j => if j ≤ q then none else some []
  | lab :: rest, j =>
    if j ≤ q then (fillfrom pc q rest (wrap (j + 1))).map ({ lab with inst := some pc } :: ·)
    else some (lab :: rest)

def fillrange (labs : List (Label Int)) (p q : Int) (pc : Nat) : Option (List (Label Int)) :=
  (labs.findIdx? fun lab => lab.start == p).bind fun i =>
    (fillfrom pc q (labs.drop i) p).map (labs.take i ++ ·)

/-! ### The arms -/

def setinst (labs : List (Label α)) (i pc : Nat) : List (Label α) :=
  labs.modify i fun lab => { lab with inst := some pc }

/-- The labels so far, and where `*` goes. -/
structure Cased (α : Type) where
  labs : List (Label α)
  wild : Option Nat

section Arms

variable (ctype : Ctype α) (ranged : List (Label α) → α → α → Nat → Option (List (Label α)))

/-- A qualifier of the arm at the pc; `ranged` is what a range does besides. -/
def qualifier (pc : Nat) (c : Cased α) : Qual α → Option (Cased α)
  | .const p => (findlab ctype p c.labs).map fun i => { c with labs := setinst c.labs i pc }
  | .range p q => (findlab ctype p c.labs).bind fun i =>
    (ranged (setinst c.labs i pc) p q pc).map fun labs => { c with labs := labs }
  | .wild => some { c with wild := some pc }

def casearms : (pc : Nat) → Cased α → List (Arm α) → Option (Cased α × Nat)
  | pc, c, [] => some (c, pc)
  | pc, c, arm :: rest =>
    (arm.quals.foldlM (qualifier ctype ranged pc) c).bind fun c =>
      casearms (pc + arm.size + 1) c rest

end Arms

/-- The labels with their pcs, and the pc of the default. -/
structure Cse (α : Type) where
  labs : List (Label α)
  iwild : Nat

def casecom (ctype : Ctype α) (origin : Nat) (arms : List (Arm α)) (labs : List (Label α)) :
    Option (Cse α) :=
  (casearms ctype (fun labs _ _ _ => some labs) origin ⟨labs, none⟩ arms).map fun (c, pc) =>
    ⟨c.labs, c.wild.getD pc⟩

def gotocom (origin : Nat) (arms : List (Arm Int)) (labs : List (Label Int)) :
    Option (Cse Int) :=
  (casearms tint fillrange origin ⟨labs, none⟩ arms).map fun (c, pc) =>
    let wild := c.wild.getD pc
    ⟨c.labs.map fun lab => { lab with inst := some (lab.inst.getD wild) }, wild⟩

/-! ### Code -/

/-- The instructions that dispatch. They work on the selector in a register. -/
inductive Op where
  | movw
  | subw (s : Int)
  | bltw (m : Int) (target : Nat)
  | bgtw (m : Int) (target : Nat)
  | goto
  | case
deriving DecidableEq

/-- The code of a table of jumps. A selector that is not in a register of its own is moved there
first. -/
def gotocode (indirect : Bool) (c : Cse Int) : List Op :=
  match c.labs.head?, c.labs.getLast? with
  | some first, some last =>
    (if first.start ≠ 0 then (if indirect then [.movw] else []) ++ [.subw first.start] else []) ++
      [.bltw 0 c.iwild, .bgtw (last.start - first.start) c.iwild, .goto]
  | _, _ => [.goto]

/-! ### Data -/

def IBY2WD : Nat := 8

def IBY2LG : Nat := 8

/-- A datum for `disint`, `disbig` or `disstring`. -/
inductive Datum where
  | int (v : Int)
  | big (v : Int)
  | string (name : List Nat)
deriving DecidableEq

def entries (stride : Nat) (entry : Nat → Label α → List (Nat × Datum)) :
    Nat → List (Label α) → List (Nat × Datum)
  | _, [] => []
  | offset, lab :: rest => entry offset lab ++ entries stride entry (offset + stride) rest

/-- `lab->inst->pc`. -/
def pcof (lab : Label α) : Int := lab.inst.getD 0

def intentry (offset : Nat) (lab : Label Int) : List (Nat × Datum) :=
  [(offset, .int lab.start), (offset + IBY2WD, .int (lab.stop + 1)),
    (offset + 2 * IBY2WD, .int (pcof lab))]

def bigentry (offset : Nat) (lab : Label Int) : List (Nat × Datum) :=
  [(offset, .big lab.start), (offset + IBY2LG, .big (lab.stop + 1)),
    (offset + 2 * IBY2LG, .int (pcof lab))]

def stringentry (offset : Nat) (lab : Label Str) : List (Nat × Datum) :=
  (offset, .string (cvtca lab.start)) ::
    ((if lab.one then [] else [(offset + IBY2WD, .string (cvtca lab.stop))]) ++
      [(offset + 2 * IBY2WD, .int (pcof lab))])

def gotoentry (offset : Nat) (lab : Label Int) : List (Nat × Datum) := [(offset, .int (pcof lab))]

/-- `Tcase`. -/
def discase (c : Cse Int) : List (Nat × Datum) :=
  (0, .int c.labs.length) :: (entries (3 * IBY2WD) intentry IBY2WD c.labs ++
    [(IBY2WD + 3 * IBY2WD * c.labs.length, .int c.iwild)])

/-- `Tcasel`. -/
def discasel (c : Cse Int) : List (Nat × Datum) :=
  (0, .int c.labs.length) :: (entries (2 * IBY2LG + 2 * IBY2WD) bigentry (2 * IBY2WD) c.labs ++
    [(2 * IBY2WD + (2 * IBY2LG + 2 * IBY2WD) * c.labs.length, .int c.iwild)])

/-- `Tcasec`. -/
def discasec (c : Cse Str) : List (Nat × Datum) :=
  (0, .int c.labs.length) :: (entries (3 * IBY2WD) stringentry IBY2WD c.labs ++
    [(IBY2WD + 3 * IBY2WD * c.labs.length, .int c.iwild)])

/-- `Tgoto`. The count is of the words behind it. -/
def disgoto (c : Cse Int) : List (Nat × Datum) :=
  (0, .int (c.labs.length + 1)) :: (entries IBY2WD gotoentry IBY2WD c.labs ++
    [(IBY2WD + IBY2WD * c.labs.length, .int c.iwild)])

end Infernode.Limbo
