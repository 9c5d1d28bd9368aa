import Infernode.Audit.Auditchain

/-!
The audit-log server `appl/cmd/auditfs.b`: the backing file, the records it
seals, the replay that checks them, and the steps of the server.

Owns: the cleaning of fields, `appendrec`, `replay`, `parserec`, `writelog`,
`writectl`, `docheckpoint`, start-up, the cadence ticker, and the answer of the
`verify` file.

Does not own: 9P dispatch and fids, the `head`, `chain` and `pubkey` files, and
the factotum protocol, whose answer to a signing request is an input of a step.
-/

namespace Infernode.Auditfs

open Text Lib9 Auditchain

def CHECKEVERY : Int := 64

inductive Err where
  | usage
  | reserved
  | badctl
  | nosigner
  | writefailed
deriving DecidableEq, Repr

/-- The texts of the replies; `writefailed` goes on with the system's error string. -/
def Err.text : Err → String
  | .usage => "auditfs: write must be 'source event [message]'"
  | .reserved => "auditfs: event 'checkpoint' is reserved"
  | .badctl => "auditfs: ctl accepts only 'checkpoint'"
  | .nosigner => "auditfs: no signer key in factotum (run /lib/sh/audit-setup)"
  | .writefailed => "auditfs: write failed: "

/-! ### Fields -/

def join (toks : List Str) : Str :=
  toks.foldl (fun s tok => if s != [] then s ++ [32] ++ tok else s ++ tok) []

def clean1 (s : Str) : Str :=
  let r := s.map fun c => if c == 32 || c == 9 || c == 10 then 95 else c
  if r == [] then [45] else r

def cleannl (s : Str) : Str := s.map fun c => if c == 10 || c == 13 then 32 else c

def stripnl (s : Str) : Str := if s.getLast? == some 10 then s.dropLast else s

def words (s : Str) : List Str := tokens (· == 32) s

def lines (data : Str) : List Str := tokens (· == 10) data

/-! ### Reading the file back -/

structure Record where
  seq : Int
  time : Int
  source : Str
  event : Str
  hash : Str
  msg : Str
deriving DecidableEq, Repr

def parserec (line : Str) : Option Record :=
  match words line with
  | seqf :: tf :: source :: event :: hashf :: rest =>
    some ⟨strtoint seqf, strtoint tf, source, event, hashf, join rest⟩
  | _ => none

section Steps

variable (sha : Sha256)

/-- The loop of `replay`: the tip, the last sequence number, and the number at
which the chain broke, `-1` at the end of the lines. -/
def replayLines (prev : List Nat) (last : Int) : List Str → List Nat × Int × Int
  | [] => (prev, last, -1)
  | line :: rest =>
    if line == [] then replayLines prev last rest
    else
      match parserec line with
      | none => (prev, last, wrap (last + 1))
      | some r =>
        let h := extend sha prev (cvtca (canon r.seq r.time r.source r.event r.msg))
        if hex h != r.hash then (prev, last, r.seq)
        else replayLines h r.seq rest

def replay (data : Str) : List Nat × Int × Int := replayLines sha (genesis sha) 0 (lines data)

/-! ### Steps -/

/-- What the clock shows and the file does at one append: `stored = some k`
means that only the first `k` bytes are stored and the write reports an error. -/
structure Append where
  now : Int
  stored : Option Nat
  inWord : InWord now

/-- What a step meets outside the server: its appends in order, and factotum's
answer to a signing request. -/
structure Env where
  appends : Nat → Append
  factotumsign : List Nat → Option (List Nat)

/-- The backing file and the running server's variables. -/
structure Server where
  file : List Nat
  up : Bool
  tiphash : List Nat
  seq : Int
  lastcheck : Int
  lastattempt : Int

def sprintLine (seq t : Int) (source event hash msg : Str) : Str :=
  decimal seq ++ 32 :: (decimal t ++ 32 :: (cstr source ++ 32 :: (cstr event ++
    32 :: (cstr hash ++ 32 :: (cstr msg ++ [10])))))

def appendrec (io : Append) (source event msg : Str) (s : Server) : Server × Option Err :=
  let source := clean1 source
  let event := clean1 event
  let msg := cleannl msg
  let newseq := wrap (s.seq + 1)
  let newhash := extend sha s.tiphash (cvtca (canon newseq io.now source event msg))
  let b := cvtca (sprintLine newseq io.now source event (hex newhash) msg)
  match io.stored with
  | some k => ({ s with file := s.file ++ b.take k }, some .writefailed)
  | none => ({ s with file := s.file ++ b, tiphash := newhash, seq := newseq }, none)

/-- The text that factotum is asked to sign. -/
def checkpointContent (s : Server) : Str :=
  str "audit-checkpoint " ++ hex s.tiphash ++ 32 :: decimal s.seq

def checkpointMsg (s : Server) (cert : List Nat) : Str :=
  str "head=" ++ hex s.tiphash ++ str " seq=" ++ decimal s.seq ++ str " sig=" ++ hex cert

def docheckpoint (io : Append) (sign : List Nat → Option (List Nat)) (s : Server) :
    Server × Option Err :=
  match sign (cvtca (checkpointContent s)) with
  | none => (s, some .nosigner)
  | some cert =>
    match appendrec sha io (str "-") (str "checkpoint") (checkpointMsg s cert) s with
    | (s', none) => ({ s' with lastcheck := s'.seq, lastattempt := s'.seq }, none)
    | (s', some err) => (s', some err)

def writelog (env : Env) (s : Server) (text : Str) : Server × Option Err :=
  match words text with
  | source :: event :: rest =>
    if event == str "checkpoint" then (s, some .reserved)
    else
      match appendrec sha (env.appends 0) source event (join rest) s with
      | (s', some err) => (s', some err)
      | (s', none) =>
        if CHECKEVERY ≤ wrap (s'.seq - s'.lastcheck) ∧
            CHECKEVERY ≤ wrap (s'.seq - s'.lastattempt) then
          ((docheckpoint sha (env.appends 1) env.factotumsign
            { s' with lastattempt := s'.seq }).1, none)
        else (s', none)
  | _ => (s, some .usage)

def writectl (env : Env) (s : Server) (text : Str) : Server × Option Err :=
  if text != str "checkpoint" then (s, some .badctl)
  else docheckpoint sha (env.appends 0) env.factotumsign s

def tick (env : Env) (s : Server) : Server :=
  if s.lastcheck < s.seq then
    (docheckpoint sha (env.appends 0) env.factotumsign { s with lastattempt := s.seq }).1
  else s

/-- The host name, from the contents of `/dev/sysname`. -/
def hostname (sysname : List Nat) : Str :=
  let s := ((c2string sysname).reverse.dropWhile fun c => c == 10 || c == 32).reverse
  if s == [] then [45] else s

/-- `sprint("host=%s replay=%s", hostname(), rst)`. -/
def bootMsg (sysname : List Nat) (rst : Str) : Str :=
  str "host=" ++ cstr (hostname sysname) ++ str " replay=" ++ cstr rst

def init (env : Env) (sysname : List Nat) (file : List Nat) : Server :=
  let outcome := replay sha (c2string file)
  let rst := if 0 ≤ outcome.2.2 then str "broken@" ++ decimal outcome.2.2 else str "ok"
  let s : Server := ⟨file, true, outcome.1, outcome.2.1, 0, 0⟩
  match appendrec sha (env.appends 0) (str "auditfs") (str "start") (bootMsg sysname rst) s with
  | (s', none) => s'
  | (s', some _) => { s' with up := false }

inductive Op where
  | log (data : List Nat)
  | ctl (data : List Nat)
  | tick
  | restart (sysname : List Nat)

def step (env : Env) : Op → Server → Server × Option Err
  | .log data, s => if s.up then writelog sha env s (stripnl (c2string data)) else (s, none)
  | .ctl data, s => if s.up then writectl sha env s (stripnl (c2string data)) else (s, none)
  | .tick, s => (if s.up then tick sha env s else s, none)
  | .restart sysname, s => (init sha env sysname s.file, none)

/-- Before the first start: no backing file and no server. -/
def fresh : Server := ⟨[], false, genesis sha, 0, 0, 0⟩

def run (s : Server) : List (Env × Op) → Server
  | [] => s
  | (env, op) :: rest => run (step sha env op s).1 rest

/-! ### The `verify` file -/

inductive Verdict where
  | ok (count : Int)
  | broken (seq : Int)
  | diverged (fileSeq : Int) (fileTip : Str) (seq : Int) (tip : Str)
deriving DecidableEq, Repr

/-- The answer of `verify` over the contents of the backing file. -/
def verify (s : Server) (data : List Nat) : Verdict :=
  let outcome := replay sha (c2string data)
  if 0 ≤ outcome.2.2 then .broken outcome.2.2
  else if outcome.2.1 ≠ s.seq ∨ hex outcome.1 ≠ hex s.tiphash then
    .diverged outcome.2.1 (hex outcome.1) s.seq (hex s.tiphash)
  else .ok s.seq

end Steps

end Infernode.Auditfs
