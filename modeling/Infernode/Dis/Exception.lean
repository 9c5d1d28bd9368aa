import Infernode.Text.Decimal

/-!
`emu/port/exception.c` and the stack of `libinterp/stack.c` that it unwinds.

Owns: the frames of a process, the search for a handler, and the unwinding of the stack.

Does not own: how an exception is raised, and the heap that `destroy` works on.
-/

namespace Infernode.Exception

open Text

/-! ### Stacks -/

/-- A type, by its size and the offsets of its pointers. -/
structure Ty where
  size : Nat
  ptrs : List Nat
deriving DecidableEq, Repr

/-- What a word that holds a pointer holds: `H`, an object, or the string of an error. -/
inductive Val where
  | nil
  | ref (r : Nat)
  | estring (s : Str)
deriving DecidableEq, Repr

/-- The head of a piece of the stack: the type of its first frame, and the registers before it. -/
structure Stkext where
  TR : Ty
  SP : Nat
  TS : Nat
  EX : Nat
deriving DecidableEq, Repr

/-- The field `t` of a frame. It is `nil` in the first frame of a piece. -/
inductive FrameType where
  | own (t : Ty)
  | first (sx : Stkext)
deriving DecidableEq, Repr

/-- `lr` is the saved pc, as an offset into the program that the caller runs; `mr` is the module of
the caller, when it is another. -/
structure Frame where
  addr : Nat
  lr : Nat
  mr : Option Nat
  t : FrameType
  vars : Nat → Val

def FRTYPE (f : Frame) : Ty :=
  match f.t with
  | .own t => t
  | .first sx => sx.TR

/-- The offset of the first frame in a piece of the stack. -/
def OATOS : Nat := 32

/-! ### Tables -/

/-- A clause; its pc may be `NOPC`. -/
structure Except where
  s : Str
  pc : Option Nat
deriving DecidableEq, Repr

/-- A range of pcs with its clauses, the first `ne` of which are for declared exceptions, and the
pc of the default. -/
structure Handler where
  pc1 : Nat
  pc2 : Nat
  eoff : Nat
  ne : Nat
  t : Option Ty
  etab : List Except
  dflt : Option Nat
deriving DecidableEq, Repr

/-! ### The process -/

/-- The field `exval`: a string, or an object whose first word is its name. -/
inductive Exval where
  | string (r : Nat)
  | user (r name : Nat)
deriving DecidableEq, Repr

/-- What happens to the heap: a reference more, `destroy`, a frame whose pointers go, and a
reference to a module less. -/
inductive Event where
  | incref (r : Nat)
  | destroy (v : Val)
  | frame (addr : Nat)
  | unlink (m : Nat)
deriving DecidableEq, Repr

/-- The registers of the process that runs, its frames from `R.FP` on, the frame that is not called
yet, and the events so far. -/
structure State where
  htab : Nat → List Handler
  PC : Nat
  SP : Nat
  TS : Nat
  EX : Nat
  M : Nat
  frames : List Frame
  above : Option Frame
  exval : Option Exval
  trace : List Event

/-! ### The search -/

def ematch (pat exp : Str) : Bool :=
  if pat = exp then true
  else
    match pat.getLast? with
    | none => false
    | some c => c == 42 && (pat.length == 1 || pat.dropLast.isPrefixOf exp)

/-- The clauses of a handler, of which `ne` are left that are for declared exceptions. -/
def clause (estr : Str) (str : Bool) : Int → List Except → Option Nat
  | _, [] => none
  | ne, e :: rest =>
    if ematch e.s estr && (str && decide (ne ≤ 0) || !str && decide (0 < ne)) then
      match e.pc with
      | some newpc => some newpc
      | none => clause estr str (ne - 1) rest
    else clause estr str (ne - 1) rest

def newpc (estr : Str) (str : Bool) (h : Handler) : Option Nat :=
  match clause estr str h.ne h.etab with
  | some pc => some pc
  | none => h.dflt

def scan (estr : Str) (str : Bool) (pc : Nat) : List Handler → Option (Handler × Nat)
  | [] => none
  | h :: rest =>
    if pc < h.pc1 ∨ h.pc2 ≤ pc then scan estr str pc rest
    else
      match newpc estr str h with
      | some target => some (h, target)
      | none => scan estr str pc rest

/-- `pc--`, of an unsigned number. -/
def dec (pc : Nat) : Nat := (pc + (2 ^ 64 - 1)) % 2 ^ 64

/-- What the search comes to: the frame with its handler, and whether the exception has become a
string. -/
structure Search where
  found : Option (Frame × Handler × Nat)
  str : Bool

def look (htab : Nat → List Handler) (estr : Str) :
    (top str : Bool) → (m pc : Nat) → List Frame → Search
  | _, str, _, _, [] => ⟨none, str⟩
  | top, str, m, pc, f :: rest =>
    match scan estr str pc (htab m) with
    | some (h, target) => ⟨some (f, h, target), str⟩
    | none =>
      if !str && !top then
        -- it becomes a string exception, and the frame is looked at again
        match scan estr true pc (htab m) with
        | some (h, target) => ⟨some (f, h, target), true⟩
        | none => look htab estr false true (f.mr.getD m) (dec f.lr) rest
      else look htab estr false str (f.mr.getD m) (dec f.lr) rest

/-! ### Unwinding -/

def emit (s : State) (events : List Event) : State := { s with trace := s.trace ++ events }

/-- `destroy`, unless the word is `H`. -/
def destroys : Val → List Event
  | .nil => []
  | v => [.destroy v]

/-- `freeptrs` of a frame. -/
def freeptrs (f : Frame) (t : Ty) : List Event := t.ptrs.flatMap fun p => destroys (f.vars p)

def freed (f : Frame) (s : State) : State :=
  let s := emit s (.frame f.addr :: freeptrs f (FRTYPE f))
  match f.t with
  | .own _ => s
  | .first sx => { s with SP := sx.SP, TS := sx.TS, EX := sx.EX }

/-- The frame at the address that is not called yet goes. -/
def freeframe (s : State) (fp : Nat) (setsp : Bool) : State :=
  match s.above with
  | none => s
  | some f =>
    if f.addr = fp then
      let s := { freed f s with above := none }
      if setsp then { s with SP := fp } else s
    else s

/-- There may be an uncalled frame at the top of the stack. -/
def freeuncalled (s : State) : State :=
  match s.frames with
  | [] => s
  | f :: _ =>
    if f.addr < s.EX ∨ s.TS ≤ f.addr then freeframe s (s.EX + OATOS) false
    else if f.addr + (FRTYPE f).size < s.SP then freeframe s (f.addr + (FRTYPE f).size) true
    else s

def pop (f : Frame) (rest : List Frame) (s : State) : State :=
  let s := freed f { s with PC := f.lr, SP := f.addr, frames := rest }
  match f.mr with
  | none => s
  | some mr => { emit s [.unlink s.M] with M := mr }

def unwind (fp : Nat) : List Frame → State → State
  | [], s => s
  | f :: rest, s => if f.addr = fp then s else unwind fp rest (pop f rest s)

/-! ### The handler -/

def convert (s : State) : State :=
  match s.exval with
  | some (.user r name) =>
    { emit s [.incref name, .destroy (.ref r)] with exval := some (.string name) }
  | _ => s

def exref : Exval → Nat
  | .string r => r
  | .user r _ => r

/-- The variables of the handler's type are reset. -/
def reset (vars : Nat → Val) : Option Ty → Nat → Val
  | none, p => vars p
  | some zt, p => if p ∈ zt.ptrs then .nil else vars p

def value (estr : Str) : Option Exval → Val
  | none => .estring estr
  | some ex => .ref (exref ex)

def resume (s : State) (f : Frame) (rest : List Frame) (h : Handler) (target : Nat) (estr : Str) :
    State :=
  let vars := reset f.vars h.t
  let events := (h.t.elim [] (freeptrs f)) ++ destroys (vars h.eoff) ++
    (s.exval.elim [] fun ex => [.incref (exref ex), .destroy (.ref (exref ex))])
  { emit s events with
    frames := { f with vars := fun p =>
      if p = h.eoff then value estr s.exval else vars p } :: rest
    PC := target
    exval := none }

/-- Whether the exception is one that is seen as a string. -/
def isString : Option Exval → Bool
  | some (.user _ _) => false
  | _ => true

def handler (s : State) (estr : Str) : Bool × State :=
  if estr = [] then (false, s)
  else
    let str := isString s.exval
    let search := look s.htab estr true str s.M (dec s.PC) s.frames
    let s := if search.str && !str then convert s else s
    match search.found with
    | none =>
      (false, { emit s (s.exval.elim [] fun ex => [.destroy (.ref (exref ex))]) with
        exval := none })
    | some (f, h, target) =>
      let s := unwind f.addr s.frames (freeuncalled s)
      match s.frames with
      | [] => (true, s)
      | f :: rest => (true, resume s f rest h target estr)

end Infernode.Exception
