import Infernode.Program.Action
import Infernode.Text.Decimal

/-!
The compilation of a module by `libinterp/comp-amd64.c`.

Owns: the two passes as far as they work on the module, its case and goto tables, links, handlers
and entry, and the points at which a compilation fails.

Does not own: the code that is emitted, other than how much of it there is and the pcs saved in it.
-/

namespace Infernode.Jit

open Program Text

/-! ### Modules -/

/-- An `Inst*`: an instruction of the module by its number, or an address. -/
inductive Pc where
  | inst (i : Int)
  | code (address : Int)
deriving DecidableEq

/-- The exceptions of the handler that have a name, and the pc of the rest, or -1. -/
structure Handler where
  pc1 : Int
  pc2 : Int
  named : List Int
  rest : Int
deriving DecidableEq

/-- What the instructions say of pcs. `d` is the number of the word in the module's data that the
operand is at. -/
inductive Inst where
  | case (d : Int)
  | casel (d : Int)
  | goto (d : Int)
  | movpc (imm : Int)
  | other
deriving DecidableEq

/-- `data` are the words of `origmp`; `links` are those of `m->ext`, and behind them those of
`ml->links`; `saved` are the pcs that the compiled code has in it. -/
structure Module where
  data : Int → Int
  htab : List Handler
  links : List Pc
  entry : Pc
  prog : Pc
  compiled : Bool
  saved : List Int

/-! ### Compilations -/

inductive Pass where
  | zero
  | one
deriving DecidableEq

/-- Where a compilation may fail: the switch, the memory for its tables and temporary code, the
preamble, before and behind the work on an instruction in a pass, the macros of a pass, the memory
for the code, an instruction whose size is not that of the first pass, the frame of a link, and the
types. -/
inductive Point where
  | nojit
  | memory
  | preamble
  | before (pass : Pass) (i : Nat)
  | behind (pass : Pass) (i : Nat)
  | macros (pass : Pass)
  | code
  | phase (i : Nat)
  | frame (i : Nat)
  | types
deriving DecidableEq

/-- `exCompile` and `exNomem`. -/
inductive Exn where
  | exCompile
  | exNomem
deriving DecidableEq

/-- The instructions, the sizes of their code, the address of all the code, and where the
compilation fails, if it does. -/
structure Compilation where
  text : List Inst
  size : Nat → Nat
  base : Int
  fails : Option Point

abbrev Act (α : Type) := Action Module Exn α

/-! ### Tables -/

def setword (data : Int → Int) (w v : Int) : Int → Int := fun x => if x = w then v else data x

/-- A table of labels: the word with the count, the first of the entries, and the size of one. -/
structure Table where
  count : Int
  first : Int
  stride : Nat
deriving DecidableEq

/-- The words with pcs, where there are `n` entries: the third of each, and the default behind. -/
def Table.pcs (t : Table) (n : Nat) : List Int :=
  (List.range n).map (fun k : Nat => t.first + t.stride * k + 2) ++ [t.first + t.stride * n]

/-- `t[-1] = -l-1` of pass 0. -/
def Table.mark (t : Table) (data : Int → Int) : Int → Int :=
  let l := wrap (data t.count)
  if 0 ≤ l then setword data t.count (-l - 1) else data

/-- `t[i] = base + patch[t[i]]`. There is no result where that reads outside of `patch`. -/
def relocword (look : Int → Option Int) (data : Int → Int) (w : Int) : Option (Int → Int) :=
  (look (data w)).map fun address => setword data w address

def relocwords (look : Int → Option Int) (data : Int → Int) (words : List Int) :
    Option (Int → Int) :=
  words.foldlM (relocword look) data

def Table.reloc (t : Table) (look : Int → Option Int) (data : Int → Int) : Option (Int → Int) :=
  let l := wrap (data t.count)
  if 0 ≤ l then some data
  else relocwords look (setword data t.count (-l - 1)) (t.pcs (-l - 1).toNat)

def comcase (d : Int) : Table := ⟨d, d + 1, 3⟩

def comcasel (d : Int) : Table := ⟨d, d + 2, 4⟩

def gotopcs (d : Int) (n : Nat) : List Int := (List.range n).map fun k : Nat => d + k

def comgoto (look : Int → Option Int) (d : Int) (data : Int → Int) : Option (Int → Int) :=
  relocwords look (setword data (d - 1) 0) (gotopcs d (data (d - 1)).toNat)

def Inst.table : Inst → Option Table
  | .case d => some (comcase d)
  | .casel d => some (comcasel d)
  | _ => none

/-- What the instruction does to the module in pass 0. -/
def Inst.mark (instr : Inst) (data : Int → Int) : Int → Int :=
  match instr.table with
  | some t => t.mark data
  | none => data

def Inst.reloc (look : Int → Option Int) (m : Module) : Inst → Option Module
  | .case d => ((comcase d).reloc look m.data).map fun data => { m with data := data }
  | .casel d => ((comcasel d).reloc look m.data).map fun data => { m with data := data }
  | .goto d => (comgoto look d m.data).map fun data => { m with data := data }
  | .movpc imm => (look imm).map fun address => { m with saved := m.saved ++ [address] }
  | .other => some m

/-! ### `compile` -/

namespace Compilation

variable (c : Compilation)

/-- `patch[i]`. -/
def patch (i : Nat) : Int := ((List.range i).map c.size).sum

/-- An element of `patch`, which has one for each instruction and one more. -/
def offset (i : Int) : Option Int :=
  if 0 ≤ i ∧ i ≤ c.text.length then some (c.patch i.toNat) else none

def address (i : Int) : Option Int := (c.offset i).map (c.base + ·)

def check (point : Point) (e : Exn) : Act Unit :=
  if c.fails = some point then .raise e else pure ()

/-- `goto bad`. -/
def orbad (point : Point) (rest : Act Bool) : Act Bool :=
  if c.fails = some point then pure false else rest

def first (i : Nat) (instr : Inst) : Act Unit := do
  c.check (.before .zero i) .exCompile
  .modify fun m => { m with data := instr.mark m.data }
  c.check (.behind .zero i) .exCompile

def second (i : Nat) (instr : Inst) : Act Unit := do
  c.check (.before .one i) .exCompile
  .attempt fun m => (instr.reloc c.address m).map fun m => ((), m)
  c.check (.behind .one i) .exCompile
  c.check (.phase i) .exCompile

def linkpc : Pc → Option Pc
  | .inst i => if i = -1 then some (.inst i) else (c.address i).map .code
  | .code _ => none

def relink (i : Nat) (pc : Pc) : Act Unit := do
  .attempt fun m => (c.linkpc pc).map fun pc => ((), { m with links := m.links.set i pc })
  c.check (.frame i) .exNomem

/-- `patchex`, for a handler. -/
def patchex (h : Handler) : Option Handler := do
  let pc1 ← c.offset h.pc1
  let pc2 ← c.offset h.pc2
  let named ← h.named.mapM c.offset
  let rest ← if h.rest = -1 then some (-1) else c.offset h.rest
  some ⟨pc1, pc2, named, rest⟩

/-- The entry, where nothing has changed it. -/
def entrypc : Pc → Option Pc
  | .inst i => (c.address i).map .code
  | .code _ => none

def finish (m : Module) : Option Module := do
  let htab ← m.htab.mapM c.patchex
  let entry ← c.entrypc m.entry
  some { m with htab := htab, entry := entry, prog := .code c.base, compiled := true }

def link : Act Bool := do
  let links ← .get Module.links
  .each c.relink 0 links
  c.check .types .exNomem
  .attempt fun m => (c.finish m).map fun m => (true, m)

def generate : Act Bool := do
  .each c.second 0 c.text
  c.check (.macros .one) .exCompile
  c.link

def compile : Act Bool :=
  c.orbad .nojit <| c.orbad .memory <| c.orbad .preamble do
    .each c.first 0 c.text
    c.check (.macros .zero) .exCompile
    c.orbad .code c.generate

end Compilation

end Infernode.Jit
