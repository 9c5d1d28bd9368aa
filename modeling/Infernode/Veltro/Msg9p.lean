import Infernode.Lib.Strings
import Infernode.Lib9.Rune

/-!
The drafts and the sources of `appl/veltro/msg9p.b`.

Owns: the writes to `ctl`, `draft`, `approve` and `deny`, the list that `pending` shows, and the
processes that send what was approved.
-/

namespace Infernode.Msg9p

open Text Strings

def MAXPENDING : Nat := 16

/-- `mod` stands for the module that was loaded. -/
structure SrcInfo where
  name : Str
  path : Str
  mod : Nat
deriving DecidableEq, Repr

structure PendingSend where
  id : Int
  data : Str
deriving DecidableEq, Repr

/-! ### Texts -/

/-- The text before the first such character, and the text after it. -/
def splitfirst (s : Str) (c : Nat) : Str × Str :=
  (s.takeWhile (· != c), (s.dropWhile (· != c)).drop 1)

/-- The white space that `msgstrip` takes off. -/
def isWhite (c : Nat) : Bool := c == 32 || c == 9 || c == 13 || c == 10

def msgstrip (s : Str) : Str := ((s.dropWhile isWhite).reverse.dropWhile isWhite).reverse

def isSafe (c : Nat) : Bool :=
  (decide (97 ≤ c) && decide (c ≤ 122)) || (decide (65 ≤ c) && decide (c ≤ 90)) ||
    (decide (48 ≤ c) && decide (c ≤ 57)) || c == 95 || c == 45 || c == 46

def safesrcname (s : Str) : Bool :=
  s != [] && s != str "." && s != str ".." && s.all isSafe

def hascontrol (s : Str) : Bool := s.any fun c => decide (c ≤ 32) || c == 0x7F

/-- The source, the message id and the body of a draft. -/
def parsed (data : Str) : Str × Str × Str :=
  let (src, r1) := splitfirst data 10
  let (origid, body) := splitfirst r1 10
  (msgstrip src, msgstrip origid, body)

/-! ### State -/

/-- A process that was spawned to send an approved draft; the ticket is the number of the step that
spawned it. -/
structure Spawned where
  ticket : Nat
  ps : PendingSend
deriving DecidableEq, Repr

/-- A call of `reply`. -/
structure Call where
  ticket : Nat
  src : SrcInfo
  origid : Str
  body : Str
deriving DecidableEq, Repr

/-- A draft that was taken by a write, and the number that the write names. -/
structure Taken where
  ticket : Nat
  ps : PendingSend
  number : Int
  approved : Bool
deriving DecidableEq, Repr

/-- `drafts`, `taken`, `calls` and `clock` are the history. -/
structure State where
  sources : List SrcInfo
  pendingSends : List PendingSend
  nextSendID : Int
  spawned : List Spawned
  drafts : List PendingSend
  taken : List Taken
  calls : List Call
  clock : Nat

def State.initial : State := ⟨[], [], 1, [], [], [], [], 0⟩

/-! ### Drafts -/

/-- `validreply` and the checks of `handlereply`, which differ in the verb. -/
def checkreply (verb : Str) (s : State) (data : Str) : Except Str SrcInfo :=
  let (src, origid, _) := parsed data
  if src = [] ∨ origid = [] then .error (verb ++ str ": want <srcname>\\n<origid>\\n<body>")
  else if safesrcname src = false then .error (verb ++ str ": unsafe source name")
  else if hascontrol origid = true then .error (verb ++ str ": unsafe message id")
  else
    match s.sources.find? fun source => decide (source.name = src) with
    | some source => .ok source
    | none => .error (verb ++ str ": no source: " ++ src)

def validreply (s : State) (data : Str) : Except Str Unit :=
  (checkreply (str "draft") s data).map fun _ => ()

def queuedraft (s : State) (data : Str) : Except Str State := do
  validreply s data
  if s.pendingSends.any fun ps => decide (ps.data = data) then pure s
  else if MAXPENDING ≤ s.pendingSends.length then .error (str "draft: approval queue full")
  else
    let ps := ⟨s.nextSendID, data⟩
    pure { s with
      nextSendID := wrap (s.nextSendID + 1)
      pendingSends := ps :: s.pendingSends
      drafts := s.drafts ++ [ps] }

/-- The line of a draft. `%s` copies a string up to its first NUL. -/
def pendingline (ps : PendingSend) : Str :=
  let (src, origid, body) := parsed ps.data
  decimal ps.id ++ str " " ++ Lib9.cstr src ++ str " " ++ Lib9.cstr origid ++ str " " ++
    decimal body.length ++ str "\n"

def genpending (s : State) : Str := s.pendingSends.flatMap pendingline

/-! ### Approval -/

def isBlank (c : Nat) : Bool := c == 32 || c == 9

def approvalword (data verb : Str) : Except Str Str :=
  let toks := tokens isBlank data
  let toks := if toks.head? = some verb then toks.tail else toks
  match toks with
  | [word] => .ok word
  | _ => .error (verb ++ str ": want " ++ verb ++ str " <id>")

def approvalid (data verb : Str) : Except Str Int := do
  let word ← approvalword data verb
  let (id, rest) := toint word
  if id ≤ 0 ∨ rest ≠ [] then .error (verb ++ str ": invalid id") else pure id

/-- The first draft with the id, and the others, whose order turns around. -/
def takepending (s : State) (id : Int) : Option PendingSend × List PendingSend :=
  (s.pendingSends.find? fun ps => decide (ps.id = id),
    (s.pendingSends.eraseP fun ps => decide (ps.id = id)).reverse)

def named (data verb : Str) : Int := (approvalword data verb).toOption.elim 0 strtol

def takedraft (s : State) (data verb : Str) (approved : Bool) : State × Except Str PendingSend :=
  match approvalid data verb with
  | .error e => (s, .error e)
  | .ok id =>
    match takepending s id with
    | (none, kept) =>
      ({ s with pendingSends := kept }, .error (verb ++ str ": unknown or consumed request"))
    | (some ps, kept) =>
      ({ s with
        pendingSends := kept
        taken := s.taken ++ [⟨s.clock, ps, named data verb, approved⟩] }, .ok ps)

/-- An approval that takes a draft is answered by the process that is spawned. -/
def approve (s : State) (data : Str) : State × Option Str :=
  match takedraft s data (str "approve") true with
  | (t, .ok ps) => ({ t with spawned := t.spawned ++ [⟨s.clock, ps⟩] }, none)
  | (t, .error e) => (t, some e)

def deny (s : State) (data : Str) : State × Option Str :=
  match takedraft s data (str "deny") false with
  | (t, .ok _) => (t, none)
  | (t, .error e) => (t, some e)

/-- The call of `reply`, and what it returns unless it is `nil`. -/
def handlereply (s : State) (proc : Spawned) (returns : Option Str) : State × Option Str :=
  match checkreply (str "reply") s proc.ps.data with
  | .ok source =>
    ({ s with calls := s.calls ++
      [⟨proc.ticket, source, (parsed proc.ps.data).2.1, (parsed proc.ps.data).2.2⟩] }, returns)
  | .error e => (s, some e)

/-! ### Sources -/

/-- What the outside answers: the module that `load` gives and why it gives none, and what the
calls of the module return unless it is `nil`. -/
structure Answers where
  load : Option Nat
  why : Str
  init : Option Str
  called : Option Str

def safedispath (path : Str) : Bool :=
  path.head? == some 47 && (str ".dis").isSuffixOf path && !hascontrol path &&
    ((path.drop 1).splitOn 47).all fun part => part != [] && part != str "." && part != str ".."

def doregister (s : State) (answers : Answers) : List Str → Except Str State
  | srcname :: dispath :: _ =>
    if safesrcname srcname = false then .error (str "register: unsafe source name")
    else if safedispath dispath = false then .error (str "register: unsafe module path")
    else if s.sources.any fun source => decide (source.name = srcname) then
      .error (str "source already registered: " ++ srcname)
    else
      match answers.load with
      | none => .error (str "cannot load " ++ dispath ++ str ": " ++ answers.why)
      | some mod =>
        match answers.init with
        | some err => .error (str "init " ++ srcname ++ str ": " ++ err)
        | none => .ok { s with sources := ⟨srcname, dispath, mod⟩ :: s.sources }
  | _ => .error (str "usage: register <name> <dispath> [config...]")

def dounregister (s : State) (srcname : Str) : Except Str State :=
  if s.sources.any fun source => decide (source.name = srcname) then
    .ok { s with sources :=
      (s.sources.filter fun source => !decide (source.name = srcname)).reverse }
  else .error (str "source not found: " ++ srcname)

def dosend (s : State) (answers : Answers) (srcname : Str) : Except Str State :=
  if s.sources.any fun source => decide (source.name = srcname) then
    answers.called.elim (.ok s) .error
  else .error (str "source not registered: " ++ srcname)

def flagword (word : Str) : Option (Nat × Bool) :=
  if word = str "seen" then some (1, false)
  else if word = str "unseen" then some (1, true)
  else if word = str "flagged" then some (2, true)
  else if word = str "unflagged" then some (2, false)
  else if word = str "urgent" then some (4, true)
  else if word = str "unurgent" then some (4, false)
  else if word = str "draft" then some (8, true)
  else if word = str "undraft" then some (8, false)
  else none

def doflag (s : State) (answers : Answers) : List Str → Except Str State
  | [srcname, origid, word] =>
    if safesrcname srcname = false then .error (str "flag: unsafe source name")
    else if hascontrol origid = true then .error (str "flag: unsafe message id")
    else
      match flagword (tolower word) with
      | none => .error (str "flag: unknown word '" ++ tolower word ++
          str "' (want seen|unseen|flagged|unflagged|urgent|draft)")
      | some _ =>
        if s.sources.any fun source => decide (source.name = srcname) then
          answers.called.elim (.ok s) .error
        else .error (str "flag: no source: " ++ srcname)
  | _ => .error (str "usage: flag <src> <origid> <seen|unseen|flagged|unflagged|urgent|draft>")

def handlectl (s : State) (answers : Answers) (data : Str) : Except Str State :=
  match tokens isBlank (splitfirst data 10).1 with
  | [] => .error (str "bad argument")
  | cmd :: toks =>
    let cmd := tolower cmd
    if cmd = str "register" then doregister s answers toks
    else if cmd = str "unregister" then
      match toks with
      | [] => .error (str "usage: unregister <name>")
      | name :: _ => dounregister s name
    else if cmd = str "send" then
      match toks with
      | srcname :: _ :: _ => dosend s answers srcname
      | _ => .error (str "usage: send <srcname> <recipient>\\n<body>")
    else if cmd = str "flag" then doflag s answers toks
    else .error (str "unknown command: " ++ cmd)

/-! ### Steps -/

inductive Act where
  | ctl (answers : Answers) (data : List Nat)
  | draft (data : List Nat)
  | flag (answers : Answers) (data : List Nat)
  | approve (data : List Nat)
  | deny (data : List Nat)
  | sends (k : Nat) (returns : Option Str)

/-- The text of a write, less one newline at its end. -/
def written (data : List Nat) : Str :=
  let text := Lib9.c2string data
  if text.getLast? = some 10 then text.dropLast else text

def answered (s : State) : Except Str State → State × Option Str
  | .ok t => (t, none)
  | .error e => (s, some e)

/-- A write as `serveloop` takes it, or the run of a process that was spawned. -/
def act (s : State) : Act → State × Option Str
  | .ctl answers data => answered s (handlectl s answers (written data))
  | .draft data => answered s (queuedraft s (written data))
  | .flag answers data =>
    answered s (doflag s answers
      (tokens (fun c => isBlank c || c == 13 || c == 10) (written data)))
  | .approve data => approve s (written data)
  | .deny data => deny s (written data)
  | .sends k returns =>
    match s.spawned[k]? with
    | none => (s, none)
    | some proc => handlereply { s with spawned := s.spawned.eraseIdx k } proc returns

def step (s : State) (action : Act) : State :=
  { (act s action).1 with clock := s.clock + 1 }

end Infernode.Msg9p
