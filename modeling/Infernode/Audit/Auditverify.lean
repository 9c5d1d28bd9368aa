import Infernode.Audit.Replay

/-!
The offline verifier `appl/cmd/auditverify.b`.

Owns: `readfd` with the buffer that it reads through, `parsecheck`, the anchor file, and
`verifychain` with its faults.

Does not own: `keyring`, whose reading and checking of a certificate is a parameter; the
record parser and the chain, which are those of the server.
-/

namespace Infernode.Auditverify

open Text Lib9 Auditchain
open Auditfs (Record words lines join)

/-! ### Reading -/

/-- The length of the buffer that `readfd` reads into. -/
def BUFLEN : Nat := 8192

def readloop : Nat → List Nat → Str
  | 0, _ => []
  | fuel + 1, rest =>
    if rest = [] then [] else c2string (rest.take BUFLEN) ++ readloop fuel (rest.drop BUFLEN)

def readfd (file : List Nat) : Str := readloop file.length file

/-! ### Checkpoints -/

def splitkv (s : Str) : Str × Str :=
  if 61 ∈ s then (s.takeWhile (· != 61), (s.dropWhile (· != 61)).drop 1) else (s, [])

/-- The `head`, `seq` and `sig` of a checkpoint's message. -/
def parsecheck (msg : Str) : Str × Str × Str :=
  (words msg).foldl (fun found tok =>
    let (k, v) := splitkv tok
    if k = str "head" then (v, found.2.1, found.2.2)
    else if k = str "seq" then (found.1, v, found.2.2)
    else if k = str "sig" then (found.1, found.2.1, v)
    else found) ([], [], [])

/-- Two digits for each byte; a digit without a partner is left out. -/
def unhex : Str → List Nat
  | hi :: lo :: rest => (hexval hi * 16 + hexval lo) :: unhex rest
  | _ => []

/-- The text that a checkpoint's signature covers. -/
def content (head cseq : Str) : Str :=
  str "audit-checkpoint " ++ cstr head ++ 32 :: cstr cseq

/-- A public key: whether a certificate's text is one by its owner for the bytes. A text that
is no certificate is none. -/
structure Key where
  verify : Str → List Nat → Bool

/-! ### The chain -/

inductive Fault where
  | malformed (after : Int)
  | broken (seq : Int)
  | headMismatch (seq : Int)
  | unsigned (seq : Int)
  | badSignature (seq : Int)
  | anchorMismatch (seq : Int)
  | truncated (anchor : Int)
  | unattributable
deriving DecidableEq, Repr

def Fault.text : Fault → Str
  | .malformed after => str "malformed record after seq " ++ decimal after
  | .broken seq => str "broken at seq " ++ decimal seq
  | .headMismatch seq => str "checkpoint head mismatch at seq " ++ decimal seq
  | .unsigned seq =>
    str "unsigned checkpoint at seq " ++ decimal seq ++ str " (signature required with -k)"
  | .badSignature seq => str "bad checkpoint signature at seq " ++ decimal seq
  | .anchorMismatch seq =>
    str "anchor mismatch at seq " ++ decimal seq ++ str " (history rewritten)"
  | .truncated anchor =>
    str "chain does not reach anchor seq " ++ decimal anchor ++ str " (truncated?)"
  | .unattributable => str "no signed checkpoints (chain is not attributable to the audit key)"

/-- What `verifychain` returns: `ok` is that there is no fault. -/
structure Report where
  nrec : Int
  ncheck : Nat
  nsig : Nat
  fault : Option Fault
deriving DecidableEq, Repr

def parserec (line : Str) : Option Record := Auditfs.parserec line

/-- What is wrong with a checkpoint record after the chain's hash `prev`. -/
def checkfault (pk : Option Key) (prev : List Nat) (r : Record) : Option Fault :=
  let (head, cseq, sig) := parsecheck r.msg
  if head ≠ hex prev then some (.headMismatch r.seq)
  else
    match pk with
    | none => none
    | some pk =>
      if sig = [] then some (.unsigned r.seq)
      else if pk.verify (c2string (unhex sig)) (cvtca (content head cseq)) then none
      else some (.badSignature r.seq)

structure Anchor where
  hash : Str
  seq : Int
deriving DecidableEq, Repr

/-- The anchor of a run without `-a`. -/
def Anchor.none : Anchor := ⟨[], -1⟩

section Chain

variable (sha : Sha256)

/-- The loop over the lines, and the two tests after it. -/
def verifyLines (pk : Option Key) (anchor : Anchor) (prev : List Nat) (nrec : Int)
    (ncheck nsig : Nat) (anchored : Bool) : List Str → Report
  | [] =>
    if 0 ≤ anchor.seq ∧ anchored = false then ⟨nrec, ncheck, nsig, some (.truncated anchor.seq)⟩
    else if pk.isSome ∧ nsig = 0 then ⟨nrec, ncheck, nsig, some .unattributable⟩
    else ⟨nrec, ncheck, nsig, none⟩
  | line :: rest =>
    if line == [] then verifyLines pk anchor prev nrec ncheck nsig anchored rest
    else
      match parserec line with
      | none => ⟨nrec, ncheck, nsig, some (.malformed nrec)⟩
      | some r =>
        let h := extend sha prev (cvtca (canon r.seq r.time r.source r.event r.msg))
        if hex h != r.hash then ⟨nrec, ncheck, nsig, some (.broken r.seq)⟩
        else
          let check := r.event == str "checkpoint"
          let ncheck := if check then ncheck + 1 else ncheck
          match (if check then checkfault pk prev r else none) with
          | some fault => ⟨nrec, ncheck, nsig, some fault⟩
          | none =>
            let nsig := if check && pk.isSome then nsig + 1 else nsig
            if r.seq = anchor.seq ∧ r.hash ≠ anchor.hash then
              ⟨r.seq, ncheck, nsig, some (.anchorMismatch r.seq)⟩
            else
              verifyLines pk anchor h r.seq ncheck nsig
                (anchored || decide (r.seq = anchor.seq)) rest

def verifychain (data : Str) (pk : Option Key) (anchor : Anchor) : Report :=
  verifyLines sha pk anchor (genesis sha) 0 0 0
    (decide (anchor.seq = 0 ∧ anchor.hash = hex (genesis sha))) (lines data)

end Chain

/-! ### The anchor file -/

def parseanchor (data : Str) : Option Anchor :=
  match tokens (fun c => c == 32 || c == 9 || c == 10) data with
  | hash :: seq :: _ =>
    if hash.length ≠ 2 * HASHLEN ∨ strtoint seq < 0 then none else some ⟨hash, strtoint seq⟩
  | _ => none

/-- Verifying the file, with the contents of a key file as a key and the contents of an anchor
file; `none` is a fault of an option. -/
def run (sha : Sha256) (pk : Option Key) (anchorfile : Option (List Nat)) (file : List Nat) :
    Option Report :=
  match anchorfile with
  | none => some (verifychain sha (readfd file) pk .none)
  | some anchorfile =>
    (parseanchor (readfd anchorfile)).map fun anchor => verifychain sha (readfd file) pk anchor

end Infernode.Auditverify
