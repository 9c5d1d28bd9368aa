import Infernode.Lib.Gitindex
import Infernode.Program.Following

/-!
How `appl/lib/git/git.b` follows the deltas of a pack and the symbolic references of a repository.

Owns: `resolvepack`, `readpackobj` and `readref`, as the chains of offsets and of names that they
follow; and when they end.

Does not own: what is inflated, and what a delta makes of its base, which are parameters.
-/

namespace Infernode.Git

open Text Lib9 Following

/-! ### Packs -/

/-- The rest behind the bytes of a number, each but the last of which has its high bit set. -/
def skipsize : Nat → List Nat → Option (List Nat)
  | b, rest =>
    if b &&& 0x80 = 0 then some rest
    else
      match rest with
      | [] => none
      | c :: rest => skipsize c rest
termination_by _ rest => rest.length

/-- The distance of an offset delta, in 32 bits. -/
def readnegoff (negoff : BitVec 32) : Nat → List Nat → Option (BitVec 32 × List Nat)
  | b, rest =>
    if b &&& 0x80 = 0 then some (negoff, rest)
    else
      match rest with
      | [] => none
      | c :: rest =>
        readnegoff (((negoff + 1) <<< 7) ||| BitVec.ofNat 32 (c &&& 0x7f)) c rest
termination_by _ rest => rest.length

inductive Resolved (Data : Type) where
  | object (otype : Nat) (data : Data)
  | error (err : Str)
  | raised
deriving DecidableEq

/-- What `applydelta` makes of a base. -/
inductive Applied (Data : Type) where
  | ok (result : Data)
  | error (err : Str)
  | raised

/-- What `resolvepack` and `readpackobj` do otherwise: what they say in front of an error, and the
offset of the base that a reference delta names. -/
structure Resolver where
  delta : Str
  base : Str
  apply : Str
  unknown : Str
  find : Bytes → Except Str (BitVec 64)

section Pack

variable {Data : Type} (file : List Nat)
  (zdecompress : Nat → Except Str Data × Fin (file.length + 1))
  (applydelta : Data → Data → Applied Data)

/-- Where the next read is: a seek to a negative offset fails and leaves the place as it is. -/
abbrev Place := BitVec 64 × Fin (file.length + 1)

/-- An object that needs no other, or a delta and the place of its base. -/
inductive Looked (Data : Type) where
  | ended (r : Resolved Data)
  | delta (data : Data) (base : Place file)

/-- What a delta is applied to: the compressed delta lies in front of `rest`. -/
def deltaat (how : Resolver) (rest : List Nat) (base : Except Str (BitVec 64)) :
    Looked file Data :=
  match zdecompress (file.length - rest.length) with
  | (.error err, _) => .ended (.error (how.delta ++ err))
  | (.ok data, pos) =>
    match base with
    | .error err => .ended (.error err)
    | .ok offset => .delta data (offset, pos)

def lookat (how : Resolver) (place : Place file) : Looked file Data :=
  let start := if place.1.slt 0 then place.2.val else place.1.toNat
  match file.drop start with
  | [] => .ended (.error (str "short header"))
  | b :: rest =>
    match skipsize b rest with
    | none => .ended (.error (str "short header"))
    | some rest =>
      let otype := (b / 16) &&& 7
      if otype = 1 ∨ otype = 2 ∨ otype = 3 ∨ otype = 4 then
        match (zdecompress (file.length - rest.length)).1 with
        | .error err => .ended (.error err)
        | .ok data => .ended (.object otype data)
      else if otype = 6 then
        match rest with
        | [] => .ended (.error (str "short ofs-delta"))
        | c :: rest =>
          match readnegoff (BitVec.ofNat 32 (c &&& 0x7f)) c rest with
          | none => .ended (.error (str "short ofs-delta"))
          | some (negoff, rest) =>
            deltaat file zdecompress how rest (.ok (place.1 - negoff.signExtend 64))
      else if otype = 7 then
        if rest.length < 20 then .ended (.error (str "short ref-delta hash"))
        else deltaat file zdecompress how (rest.drop 20) (how.find (rest.take 20))
      else .ended (.error (how.unknown ++ natDigits otype))

/-- The object with its deltas applied; nothing comes out while the fuel does not reach. -/
def resolve (how : Resolver) : Nat → Place file → Option (Resolved Data)
  | 0, _ => none
  | fuel + 1, place =>
    match lookat file zdecompress how place with
    | .ended r => some r
    | .delta data base =>
      (resolve how fuel base).map fun
        | .object basetype basedata =>
          match applydelta basedata data with
          | .ok result => .object basetype result
          | .error err => .error (how.apply ++ err)
          | .raised => .raised
        | .error err => .error (how.base ++ err)
        | .raised => .raised

end Pack

/-! ### References -/

/-- The text of a reference, from the bytes of one read. -/
def reftext (content : List Nat) : Str :=
  ((c2string (content.take 256)).reverse.dropWhile fun c => c = 10 ∨ c = 13).reverse

def symbolic (s : Str) : Option Str :=
  if 5 < s.length ∧ s.take 5 = str "ref: " then some (s.drop 5) else none

section Refs

variable (refs : Str → Option (List Nat)) (packed : List Str)

/-- The file of a reference, when it can be opened and is not empty. -/
def reffile (name : Str) : Option (List Nat) :=
  (refs name).bind fun content => if content = [] then none else some content

def target (name : Str) : Option Str :=
  (reffile refs name).bind fun content => symbolic (reftext content)

end Refs

/-! ### When they end -/

section Ends

variable {Data : Type} {file : List Nat}
  {zdecompress : Nat → Except Str Data × Fin (file.length + 1)}
  {applydelta : Data → Data → Applied Data}

variable {refs : Str → Option (List Nat)} {packed : List Str}

end Ends

/-- A pack whose only object, at offset 12, is an empty offset delta at a distance of zero. -/
def looping : List Nat :=
  str "PACK" ++ [0, 0, 0, 2, 0, 0, 0, 1, 0x60, 0, 0x78, 0x9c, 3, 0, 0, 0, 0, 1]

end Infernode.Git
