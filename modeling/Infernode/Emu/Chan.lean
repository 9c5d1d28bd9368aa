import Infernode.Text.Decimal

/-!
Channels, the mount table and `walk` of `emu/port/chan.c`.

Owns: devices as trees of files, the mount table, the stack of crossed mount points
of a name, and `walk` with its batches, unions and mount crossings.

Does not own: reference counts (but for the question whether a name is shared), the
text of a name, versions of files, and the wording of errors.
-/

namespace Infernode.Emu

open Text

/-! ### Devices -/

/-- What `eqchan` compares: the device and the path of the qid. -/
structure File where
  type : Nat
  dev : Nat
  path : Nat
deriving DecidableEq, Repr

def File.at (f : File) (path : Nat) : File := { f with path := path }

/-- The trees of the devices: which files are directories, what a name other than `.`
and `..` leads to, and what `..` leads to. -/
structure Devices where
  isdir : File → Bool
  child : File → Str → Option Nat
  parent : File → Nat
  parent_child : ∀ {f : File} {name : Str} {path : Nat}, name ≠ [] → child f name = some path →
    f.at (parent (f.at path)) = f

namespace Devices

variable (D : Devices)

def step (f : File) (name : Str) : Option File :=
  if D.isdir f = false then none
  else if name = str "." then some f
  else if name = str ".." then some (f.at (D.parent f))
  else (D.child f name).map f.at

/-- The files along a list of names, up to the first that is not found. -/
def walk (f : File) : List Str → List File
  | [] => []
  | name :: names =>
    match D.step f name with
    | none => []
    | some g => g :: walk g names

end Devices

/-! ### Channels and mounts -/

def MREPL : Nat := 0
def MBEFORE : Nat := 1
def MAFTER : Nat := 2
def MORDER : Nat := 3
def MCREATE : Nat := 4
def MREADONLY : Nat := 8
def MMASK : Nat := 31

structure Chan where
  file : File
  mflag : Nat
deriving DecidableEq, Repr

structure Mount where
  «to» : Chan
  mflag : Nat
deriving DecidableEq, Repr

/-- A mount point and what is mounted there, the first one apart. -/
structure Mhead where
  «from» : Chan
  mount : Mount
  next : List Mount
deriving DecidableEq, Repr

def Mhead.mounts (m : Mhead) : List Mount := m.mount :: m.next

/-- A mount table: a directory is mounted on a directory and a file on a file. -/
structure Mounts (D : Devices) where
  heads : List Mhead
  sameKind : ∀ m ∈ heads, ∀ f ∈ m.mounts, D.isdir f.to.file = D.isdir m.from.file

def findmount {D : Devices} (ns : Mounts D) (f : File) : Option Mhead :=
  ns.heads.find? fun m => m.from.file == f

def mheadflag (m : Mhead) : Nat := m.mount.mflag

/-! ### The stack of a name -/

/-- The mount points crossed, one slot for each element, the last element first. -/
abbrev Stack := List (Option Chan)

/-- The name that a walk builds: its stack, whether the walk has a copy of its own,
and what the name of the starting channel holds. -/
structure Cname where
  mtpt : Stack
  own : Bool
  start : Stack
deriving DecidableEq, Repr

namespace Cname

def unshare (n : Cname) : Cname := { n with own := true }

/-- Put the mount point of a new element on the stack, in place. -/
def cnamepush (n : Cname) (mp : Option Chan) : Cname :=
  { n with mtpt := mp :: n.mtpt, start := if n.own then n.start else mp :: n.start }

/-- Record a mount point that is crossed at the last element. -/
def cnamecross (n : Cname) (mp : Chan) : Cname :=
  match n.mtpt with
  | [] => n
  | _ :: below => { n.unshare with mtpt := some mp :: below }

/-- Add an element: `.` is none, and `..` drops the slot of the last one, slot 0 apart. -/
def addelem (n : Cname) (name : Str) : Cname :=
  if name = str "." then n
  else if name = str ".." then
    match n.mtpt with
    | _ :: slot :: below => { n.unshare with mtpt := slot :: below }
    | _ => n.unshare
  else n.unshare

end Cname

/-- Step back over the mount point of the last element, once. Slot 0 is where the walk
began and stays. -/
def undomount (c : Chan) (n : Cname) : Chan × Cname :=
  match n.mtpt with
  | [] => (c, n)
  | [slot] => (slot.getD c, n)
  | none :: _ => (c, n)
  | some nc :: below => (nc, { n with mtpt := none :: below })

/-! ### Walk -/

def MAXWELEM : Nat := 16

/-- The names of one turn: `..` by itself, or those before the next `..`. -/
def batch (names : List Str) : List Str :=
  if names.head? = some (str "..") then [str ".."]
  else (names.take MAXWELEM).takeWhile fun name => name ≠ str ".."

/-- The variables of the loop. With `didmount` the channel is past a mount point. -/
structure Walking where
  c : Chan
  mh : Option Mhead
  didmount : Bool
  cname : Cname

section Walk

variable {D : Devices} (ns : Mounts D)

def firstmount : List File → Option (Nat × Mhead)
  | [] => none
  | f :: files =>
    match findmount ns f with
    | some m => some (0, m)
    | none => (firstmount files).map fun found => (found.1 + 1, found.2)

/-- Cross the mount point at which a turn begins. -/
def domount (nomount : Bool) (w : Walking) : Walking :=
  if nomount || w.didmount then w
  else
    match findmount ns w.c.file with
    | none => w
    | some m =>
      { w with c := ⟨m.mount.to.file, mheadflag m⟩, mh := some m,
               cname := w.cname.cnamecross m.from }

variable (D) in
def trywalk (names : List Str) : List Chan → Option (List File × Nat)
  | [] => none
  | c :: others =>
    match D.walk c.file names with
    | [] => trywalk names others
    | files => some (files, c.mflag)

/-- The channel of the turn, and the other members of the union that it is in. -/
def candidates (nomount : Bool) (w : Walking) : List Chan :=
  w.c :: (if nomount then [] else
    (w.mh.map Mhead.next).getD [] |>.map fun f => ⟨f.to.file, f.mflag⟩)

/-- Add the elements of a turn, the mount point to the last of them. -/
def addelems (n : Cname) : List Str → Option Chan → Cname
  | [], _ => n
  | [name], mp => (n.addelem name).cnamepush mp
  | name :: names, mp => addelems ((n.addelem name).cnamepush none) names mp

/-- One turn of the loop: the variables after it and the number of names done, or
what the name of the starting channel holds after a failure. -/
def turn (nomount : Bool) (w : Walking) (names : List Str) : Except Stack (Walking × Nat) :=
  if D.isdir w.c.file = false then .error w.cname.start
  else if names.head? = some (str "..") then
    let clone : Chan := ⟨w.c.file.at (D.parent w.c.file), w.c.mflag⟩
    let (nc, cname) := undomount clone (w.cname.addelem (str ".."))
    .ok (⟨nc, none, false, cname⟩, 1)
  else
    let w := domount ns nomount w
    let names := batch names
    match trywalk D names (candidates nomount w) with
    | none => .error w.cname.start
    | some (files, mflag) =>
      match if nomount then none else firstmount ns (files.take (names.length - 1)) with
      | some (i, m) =>
        let cname := addelems w.cname (names.take (i + 1)) (some m.from)
        .ok (⟨⟨m.mount.to.file, mheadflag m⟩, some m, true, cname⟩, i + 1)
      | none =>
        match files.getLast? with
        | some f =>
          if files.length < names.length then .error w.cname.start
          else .ok (⟨⟨f, mflag⟩, none, false, addelems w.cname names none⟩, files.length)
        | none => .error w.cname.start

/-- The loop, at most `fuel` turns. -/
def turns (nomount : Bool) : Nat → Walking → List Str → Except Stack Walking
  | _, w, [] => .ok w
  | 0, w, _ :: _ => .error w.cname.start
  | fuel + 1, w, names@(_ :: _) =>
    match turn ns nomount w names with
    | .error start => .error start
    | .ok (w, n) => turns nomount fuel w (names.drop n)

/-- A channel that has not been walked is the origin of the walk. -/
def pin (c : Chan) (mtpt : Stack) : Cname :=
  if mtpt = [] then ⟨[some c], true, []⟩ else ⟨mtpt, false, mtpt⟩

def walk (nomount : Bool) (c : Chan) (mtpt : Stack) (names : List Str) :
    Except Stack (Chan × Cname) :=
  match turns ns nomount names.length ⟨c, none, false, pin c mtpt⟩ names with
  | .error start => .error start
  | .ok w => .ok (w.c, w.cname)

end Walk

end Infernode.Emu
