import Mathlib.Data.List.DropRight
import Infernode.Codec.Wire

/-!
Contract: hash tree files, from `appl/lib/vac.b`.

Owns: `Page`, `File` with `fflush`, `File.write` and `File.finish`; `Entry`;
`Source.get`, `Vacfile.pread` and `Vacfile.read`; and the venti session that they use.
-/

namespace Infernode.Vac

open Wire

/-! ### The session -/

def Scoresize : Nat := 20
def Dirtype : Nat := 2
def Pointertype0 : Nat := 3
def Datatype : Nat := 13
def Entryactive : Nat := 1
def Entrydir : Nat := 2
def Entrydepthshift : Nat := 2
def Entrysize : Nat := 40

def Score.zero : Bytes :=
  [0xda, 0x39, 0xa3, 0xee, 0x5e, 0x6b, 0x4b, 0x0d, 0x32, 0x55,
    0xbf, 0xef, 0x95, 0x60, 0x18, 0x90, 0xaf, 0xd8, 0x07, 0x09]

/-- The scores of a venti server: of one size, telling the blocks of a type apart, and the
zero score for nothing but the block without bytes. -/
structure Store where
  score : Nat → Bytes → Bytes
  length_score : ∀ etype data, (score etype data).length = Scoresize
  score_injective : ∀ {etype data data'}, score etype data = score etype data' → data = data'
  eq_nil_of_zero : ∀ {etype data}, score etype data = Score.zero → data = []

/-- The blocks that a server has, each with its type. -/
structure Session where
  blocks : List (Nat × Bytes)

/-- A block of no more than `maxn` bytes by its score and type; the zero score needs no block. -/
def Session.read (store : Store) (s : Session) (score : Bytes) (etype maxn : Nat) : Option Bytes :=
  if score = Score.zero then some []
  else
    (s.blocks.find? fun block => block.1 = etype ∧ store.score block.1 block.2 = score).bind fun block =>
      if block.2.length ≤ maxn then some block.2 else none

def Session.write (store : Store) (s : Session) (etype : Nat) (data : Bytes) : Session × Bytes :=
  (⟨(etype, data) :: s.blocks⟩, store.score etype data)

/-! ### Writing -/

/-- A pointer block that is being filled: `size` is `len d`, and `d` the bytes before `o`. -/
structure Page where
  size : Nat
  d : Bytes
deriving DecidableEq

def Page.new (dsize : Nat) : Page := ⟨dsize / Scoresize * Scoresize, []⟩

def Page.add (p : Page) (score : Bytes) : Option Page :=
  if p.d.length + Scoresize ≤ p.size then some { p with d := p.d ++ score } else none

def Page.full (p : Page) : Bool := p.size < p.d.length + Scoresize

/-- The first scores of `d`, so many, without the zero scores at their end. -/
def trimscores (d : Bytes) : Nat → Bytes
  | 0 => []
  | i + 1 =>
    if (d.drop (i * Scoresize)).take Scoresize = Score.zero then trimscores d i
    else d.take ((i + 1) * Scoresize)

def Page.data (p : Page) : Bytes := trimscores p.d (p.d.length / Scoresize)

structure Entry where
  psize : Nat
  dsize : Nat
  depth : Nat
  flags : Nat
  size : Nat
  score : Bytes
deriving DecidableEq

structure File where
  p : List Page
  dtype : Nat
  dsize : Nat
  size : Nat
  s : Session

def File.new (s : Session) (dtype dsize : Nat) : File := ⟨[Page.new dsize], dtype, dsize, 0, s⟩

/-- The entry of a file whose one score at level `i` is on the page. -/
def File.entry (f : File) (i : Nat) (page : Page) : Entry :=
  let flags := if f.dtype = Dirtype then Entryactive ||| Entrydir else Entryactive
  let score := if page.data = [] then Score.zero else page.data
  ⟨page.size, f.dsize, i, flags ||| i <<< Entrydepthshift, f.size, score⟩

/-- `f.p` from level `i` on. The pages that are left, the session, and the entry on the last
flush. A full page of one score has no bound on the levels, so the levels left are counted. -/
def fflush (store : Store) (f : File) (last : Bool) :
    Nat → Nat → Session → List Page → Option (List Page × Session × Option Entry)
  | 0, _, _, _ => none
  | _ + 1, _, _, [] => none
  | fuel + 1, i, s, page :: pages =>
    if !last && !page.full then some (page :: pages, s, none)
    else if last && page.d.length == Scoresize then
      some (page :: pages, s, some (f.entry i page))
    else
      let (s, score) := s.write store (Pointertype0 + i) page.data
      let (next, pages) :=
        match pages with
        | [] => (Page.new f.dsize, [])
        | next :: pages => (next, pages)
      (next.add score).bind fun next =>
        (fflush store f last fuel (i + 1) s (next :: pages)).map fun (pages, s, entry) =>
          (Page.new f.dsize :: pages, s, entry)

/-- A block without the zero bytes at its end. -/
def trimzeros (d : Bytes) : Bytes := d.rdropWhile fun b => decide (b = 0)

def File.write (store : Store) (fuel : Nat) (f : File) (d : Bytes) : Option File :=
  (fflush store f false fuel 0 f.s f.p).bind fun (pages, s, _) =>
    let (s, score) := s.write store f.dtype (trimzeros d)
    match pages with
    | [] => none
    | page :: pages =>
      (page.add score).map fun page =>
        { f with p := page :: pages, size := f.size + d.length, s := s }

def File.finish (store : Store) (fuel : Nat) (f : File) : Option (Session × Entry) :=
  (fflush store f true fuel 0 f.s f.p).bind fun (_, s, entry) => entry.map fun entry => (s, entry)

/-- One `File.write` for each block. -/
def File.writes (store : Store) (fuel : Nat) (f : File) (blocks : List Bytes) : Option File :=
  blocks.foldlM (File.write store fuel) f

/-! ### Reading -/

structure Source where
  session : Session
  e : Entry
  dsize : Nat

def Source.new (s : Session) (e : Entry) : Source :=
  ⟨s, e, if e.flags &&& Entrydir ≠ 0 then Entrysize * (e.dsize / Entrysize) else e.dsize⟩

def power (b e : Nat) : Nat := b ^ e

def blocksize (e : Entry) : Nat := if e.dsize < e.psize then e.psize else e.dsize

def scoreAt (buf : Bytes) (pi : Nat) : Bytes :=
  if (pi + 1) * Scoresize ≤ buf.length then (buf.drop (pi * Scoresize)).take Scoresize else Score.zero

def Source.descend (store : Store) (s : Source) (want : Nat) : Nat → Nat → Nat → Bytes → Option Bytes
  | 0, _, _, last =>
    s.session.read store last (if s.e.flags &&& Entrydir ≠ 0 then Dirtype else Datatype) want
  | depth + 1, np, i, last =>
    (s.session.read store last (Pointertype0 + depth) (blocksize s.e)).bind fun buf =>
      let npp := s.e.psize / Scoresize
      if np = 0 ∨ npp = 0 then none
      else s.descend store want depth (np / npp) (i % np) (scoreAt buf (i / np))

/-- The bytes of block `i`; none is an error or an exception. -/
def Source.get (store : Store) (s : Source) (i : Nat) : Option Bytes :=
  if s.dsize = 0 then none
  else
    let npages := (s.e.size + (s.dsize - 1)) / s.dsize
    if s.e.size ≤ i * s.dsize then some []
    else
      let want := if i + 1 = npages then s.e.size - i * s.dsize else s.dsize
      let npp := s.e.psize / Scoresize
      (s.descend store want s.e.depth (power npp (s.e.depth - 1)) i s.e.score).map fun buf =>
        buf ++ List.replicate (want - buf.length) 0

structure Vacfile where
  s : Source
  o : Nat

def Vacfile.new (s : Session) (e : Entry) : Vacfile := ⟨Source.new s e, 0⟩

def Vacfile.pread (store : Store) (v : Vacfile) (n offset : Nat) : Option Bytes :=
  if v.s.dsize = 0 then none
  else
    (v.s.get store (offset / v.s.dsize)).map fun buf => (buf.drop (offset % v.s.dsize)).take n

def Vacfile.read (store : Store) (v : Vacfile) (n : Nat) : Option (Vacfile × Bytes) :=
  (v.pread store n v.o).map fun d => ({ v with o := v.o + d.length }, d)

/-- Reading on, `count` bytes wanted at each offset, until a read has none. -/
def Vacfile.readall (store : Store) (count : Nat → Nat) : Nat → Vacfile → Option Bytes
  | 0, _ => none
  | fuel + 1, v =>
    (v.read store (count v.o)).bind fun (v, d) =>
      if d = [] then some [] else (readall store count fuel v).map (d ++ ·)

end Infernode.Vac
