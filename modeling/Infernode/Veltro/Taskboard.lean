import Infernode.Styx.Styxservers
import Infernode.Veltro.Dashevents

/-!
The file server of the dashboard, `appl/veltro/taskboard9p.b`.

Owns: the tasks and what an event of the user interface and a command do with them, `dirgen` and
the navigator, and what `serveloop` does with a request, each in one step; the replies of a step
are a list.

Does not own: the races of the two processes on the lists of events, which the model of
`pushevent` in steps is about.
-/

namespace Infernode.Dashboard

open Text Styx Lib9

/-! ### The qid scheme -/

def Qroot : Nat := 0
def Qctl : Nat := 1
def Qevent : Nat := 2
def Qsummary : Nat := 3
def Qtaskdir : Nat := 4
def Qtaskbase : Nat := 100
def TASK_STRIDE : Nat := 9
def Qt_dir : Nat := 0
def Qt_label : Nat := 1
def Qt_status : Nat := 2
def Qt_urgency : Nat := 3
def Qt_synopsis : Nat := 4
def Qt_category : Nat := 5
def Qt_instructions : Nat := 6
def Qt_progress : Nat := 7
def Qt_order : Nat := 8

def SUBFILE_NAMES : List Str :=
  [[], str "label", str "status", str "urgency", str "synopsis", str "category",
    str "instructions", str "progress", str "order"]

def Enotfound : Str := str "file does not exist"

def TYPE (path : Nat) : Nat := path % 65536

/-! ### Tasks -/

structure TaskEntry where
  id : Int
  label : Str
  status : Str
  urgency : Int
  synopsis : Str
  category : Str
  instructions : Str
  progress : Str
  order : Int
  hidden : Bool
  qbase : Int
deriving DecidableEq, Repr

structure PendingRead where
  fid : Nat
  tag : Nat
  offset : Nat
  count : Nat
  ft : Nat
deriving DecidableEq, Repr

structure Board where
  user : Str
  tasks : List TaskEntry
  nextqid : Int
  vers : Nat
  pending : List PendingRead
  eventbuf : List Str
  summarytext : Str
deriving DecidableEq, Repr

/-- What `readfile` gives for the files of a task, empty where it gives nil. -/
structure Files where
  label : Str
  status : Str
  urgency : Str
  instructions : Str

def findtask (tasks : List TaskEntry) (id : Int) : Option TaskEntry := tasks.find? (·.id == id)

def update (here : TaskEntry → Bool) (change : TaskEntry → TaskEntry) :
    List TaskEntry → List TaskEntry
  | [] => []
  | te :: rest => if here te then change te :: rest else te :: update here change rest

def addtask (b : Board) (id : Int) : Board :=
  { b with
    tasks := ⟨id, [], str "idle", 0, [], [], [], [], 0, false, b.nextqid⟩ :: b.tasks
    nextqid := toint (b.nextqid + TASK_STRIDE)
    vers := (b.vers + 1) % 4294967296 }

def strip (s : Str) : Str :=
  (s.reverse.dropWhile fun c => c == 10 || c == 32 || c == 9).reverse

def synctask (f : Files) (te : TaskEntry) : TaskEntry :=
  let te := if f.label ≠ [] then { te with label := strip f.label } else te
  let te := if f.status ≠ [] then { te with status := strip f.status } else te
  let te :=
    if f.urgency ≠ [] then { te with urgency := (Strings.toint (strip f.urgency)).1 } else te
  if te.instructions = [] ∧ f.instructions ≠ [] then
    { te with instructions := strip f.instructions }
  else te

/-! ### The summary -/

def categoryof (te : TaskEntry) : Str :=
  if te.category = [] then str "Uncategorized" else te.category

def categories (tasks : List TaskEntry) : List Str :=
  (tasks.foldl (fun seen te =>
    if te.hidden || seen.contains (categoryof te) then seen else categoryof te :: seen) []).reverse

def summaryline (te : TaskEntry) : Str :=
  str "- **[" ++ decimal te.id ++ str "] " ++ te.label ++ str "**" ++ (str " — " ++ te.status) ++
    (if te.progress ≠ [] then str " (" ++ te.progress ++ str ")" else []) ++
    (if te.synopsis ≠ [] then str " — " ++ te.synopsis else []) ++ str "\n"

def summaryof (tasks : List TaskEntry) : Str :=
  str "# Tasks\n" ++
    (categories tasks).flatMap (fun cat => str "\n## " ++ cat ++ str "\n" ++
      (tasks.filter fun te => !te.hidden && categoryof te == cat).flatMap summaryline) ++
    if tasks.all (·.hidden) then str "\n(no tasks)\n" else []

def rendersummary (b : Board) : Board := { b with summarytext := summaryof b.tasks }

/-! ### Commands -/

/-- A file of a task that is written: what is set, and the event. -/
structure Field where
  set : Str → TaskEntry → TaskEntry
  event : Int → Str → Str

def task (id : Int) (word : Str) : Str := str "task " ++ decimal id ++ word

def synopsis : Field where
  set data te := { te with synopsis := data }
  event id _ := task id (str " synopsis")

def category : Field where
  set data te := { te with category := data }
  event id data := task id (str " category " ++ data)

def instructions : Field where
  set data te := { te with instructions := data }
  event id _ := task id (str " instructions")

def progress : Field where
  set data te := { te with progress := data }
  event id data := task id (str " progress " ++ data)

def order : Field where
  set data te := { te with order := (Strings.toint data).1 }
  event id data := task id (str " order " ++ decimal (Strings.toint data).1)

def blank (c : Nat) : Bool := c == 32 || c == 9

def parseidtext (s : Str) : Int × Str :=
  let s := s.dropWhile blank
  let number := s.takeWhile isDigit
  if number = [] then (-1, [])
  else ((Strings.toint number).1, (s.dropWhile isDigit).dropWhile blank)

def command (b : Board) (f : Field) (rest : Str) : Except Str (Board × Str) :=
  let (id, tail) := parseidtext rest
  if id < 0 then .error (str "bad id")
  else
    match findtask b.tasks id with
    | none => .error (str "unknown task")
    | some _ =>
      .ok (rendersummary { b with tasks := update (·.id == id) (f.set tail) b.tasks },
        f.event id tail)

def handlectl (b : Board) (data : Str) : Except Str (Board × Str) :=
  if Strings.hasprefix data (str "synopsis ") then command b synopsis (data.drop 9)
  else if Strings.hasprefix data (str "categorize ") then command b category (data.drop 11)
  else if Strings.hasprefix data (str "progress ") then command b progress (data.drop 9)
  else if Strings.hasprefix data (str "order ") then command b order (data.drop 6)
  else if Strings.hasprefix data (str "instructions ") then command b instructions (data.drop 13)
  else .error (str "usage: synopsis|categorize|progress|order|instructions {id} {text}")

/-! ### Events of the user interface -/

def idof (ev word : Str) : Int := (Strings.toint (strip (ev.drop word.length))).1

def syncnew (f : Files) (te : TaskEntry) : TaskEntry :=
  let te := synctask f te
  if te.synopsis = [] then { te with synopsis := str "New task: " ++ te.label } else te

/-- The board after an event, and what is pushed. -/
def handleuievent (ui : Int → Files) (b : Board) (ev : Str) : Board × Option Str :=
  if Strings.hasprefix ev (str "activity new ") then
    let id := idof ev (str "activity new ")
    if 0 < id then
      let b := if (findtask b.tasks id).isNone then addtask b id else b
      (rendersummary { b with tasks := update (·.id == id) (syncnew (ui id)) b.tasks },
        some (task id (str " new")))
    else (b, none)
  else if Strings.hasprefix ev (str "activity delete ") then
    let id := idof ev (str "activity delete ")
    if 0 < id then
      (rendersummary
          { b with tasks := update (·.id == id) (fun te => { te with hidden := true }) b.tasks },
        some (task id (str " delete")))
    else (b, none)
  else if Strings.hasprefix ev (str "activity ") then
    let rest := strip (ev.drop 9)
    if Strings.hasprefix rest (str "urgency ") then
      let id := idof rest (str "urgency ")
      if 0 < id then
        match findtask b.tasks id with
        | none => (b, none)
        | some te =>
          (rendersummary { b with tasks := update (·.id == id) (synctask (ui id)) b.tasks },
            some (task id (str " urgency " ++ decimal (synctask (ui id) te).urgency)))
      else (b, none)
    else
      (rendersummary { b with
          tasks := b.tasks.map fun te => if te.hidden then te else synctask (ui te.id) te },
        none)
  else (b, none)

/-- The numbers of the activities that `initialsync` finds in the text of the ctl file. -/
def listed (info : Str) : List Int :=
  (tokens (· == 10) (strip info)).flatMap fun line =>
    if Strings.hasprefix line (str "activities:") then
      ((tokens (· == 32) (strip (line.drop 11))).map fun tok => (Strings.toint tok).1).filter
        fun id => 0 < id
    else []

def syncone (ui : Int → Files) (b : Board) (id : Int) : Board :=
  let b := addtask b id
  { b with tasks := update (·.id == id) (syncnew (ui id)) b.tasks }

def initialsync (ui : Int → Files) (b : Board) (info : Str) : Board :=
  if info = [] then b else rendersummary ((listed info).foldl (syncone ui) b)

/-! ### The navigator -/

/-- The entry that a qid is of, and the file of it. -/
def taskfromqid (tasks : List TaskEntry) (qtype : Nat) : Option (TaskEntry × Nat) :=
  if qtype < Qtaskbase then none
  else
    let off := qtype - Qtaskbase
    let base := Qtaskbase + off / TASK_STRIDE * TASK_STRIDE
    (tasks.find? fun te => te.qbase == (base : Int)).map fun te => (te, off % TASK_STRIDE)

def findtaskbyqbase (tasks : List TaskEntry) (qbase : Nat) : Option TaskEntry :=
  tasks.find? fun te => te.qbase == (qbase : Int)

def dir (user : Str) (qid : Qid) (name : Str) (length perm : Nat) : Dir :=
  { zerodir with
    qid := qid
    mode := if qid.qtype &&& QTDIR ≠ 0 then perm ||| DMDIR else perm
    name := name
    uid := user
    gid := user
    length := length }

def dirgen (b : Board) (p : Nat) : Option Dir × Str :=
  let qtype := TYPE p
  let directory (name : Str) := (some (dir b.user ⟨p, b.vers, QTDIR⟩ name 0 0o755), [])
  let file (name : Str) (perm : Nat) := (some (dir b.user ⟨p, b.vers, QTFILE⟩ name 0 perm), [])
  if qtype = Qroot then directory (str "/")
  else if qtype = Qctl then file (str "ctl") 0o644
  else if qtype = Qevent then file (str "event") 0o444
  else if qtype = Qsummary then file (str "summary") 0o444
  else if qtype = Qtaskdir then directory (str "tasks")
  else if Qtaskbase ≤ qtype then
    let off := qtype - Qtaskbase
    let base := Qtaskbase + off / TASK_STRIDE * TASK_STRIDE
    let suboff := off % TASK_STRIDE
    match findtaskbyqbase b.tasks base with
    | none => (none, Enotfound)
    | some te =>
      if suboff = Qt_dir then directory (decimal te.id)
      else if suboff = Qt_label ∨ suboff = Qt_status ∨ suboff = Qt_urgency then
        file (SUBFILE_NAMES.getD suboff []) 0o444
      else file (SUBFILE_NAMES.getD suboff []) 0o644
  else (none, Enotfound)

/-- The path of an `int`. -/
def big (n : Int) : Nat := (n % 18446744073709551616).toNat

def walk (b : Board) (p : Nat) (name : Str) : Option Dir × Str :=
  let qtype := TYPE p
  if qtype = Qroot then
    if name = str ".." then dirgen b p
    else if name = str "ctl" then dirgen b Qctl
    else if name = str "event" then dirgen b Qevent
    else if name = str "summary" then dirgen b Qsummary
    else if name = str "tasks" then dirgen b Qtaskdir
    else (none, Enotfound)
  else if qtype = Qtaskdir then
    if name = str ".." then dirgen b Qroot
    else
      match findtask b.tasks (Strings.toint name).1 with
      | none => (none, Enotfound)
      | some te => if te.hidden then (none, Enotfound) else dirgen b (big te.qbase)
  else if Qtaskbase ≤ qtype then
    let off := qtype - Qtaskbase
    let suboff := off % TASK_STRIDE
    let base := Qtaskbase + off / TASK_STRIDE * TASK_STRIDE
    if suboff ≠ Qt_dir then (none, str "not a directory")
    else if name = str ".." then dirgen b Qtaskdir
    else if name = str "label" then dirgen b (base + Qt_label)
    else if name = str "status" then dirgen b (base + Qt_status)
    else if name = str "urgency" then dirgen b (base + Qt_urgency)
    else if name = str "synopsis" then dirgen b (base + Qt_synopsis)
    else if name = str "category" then dirgen b (base + Qt_category)
    else if name = str "instructions" then dirgen b (base + Qt_instructions)
    else if name = str "progress" then dirgen b (base + Qt_progress)
    else if name = str "order" then dirgen b (base + Qt_order)
    else (none, Enotfound)
  else (none, str "not a directory")

/-- The paths of the entries of a directory, in order. -/
def entries (b : Board) (p : Nat) : List Nat :=
  let qtype := TYPE p
  if qtype = Qroot then [Qctl, Qevent, Qsummary, Qtaskdir]
  else if qtype = Qtaskdir then
    (b.tasks.filter fun te => !te.hidden).map fun te => big te.qbase
  else if Qtaskbase ≤ qtype then
    let off := qtype - Qtaskbase
    let base := Qtaskbase + off / TASK_STRIDE * TASK_STRIDE
    if off % TASK_STRIDE = Qt_dir then (List.range' 1 (TASK_STRIDE - 1)).map (base + ·) else []
  else []

/-- The entries from an index on, so many at most; the first that there is no such file of is
taken for the end. -/
def readdir (b : Board) (p offset count : Nat) : List Dir :=
  ((((entries b p).drop offset).take count).map fun q => (dirgen b q).1).takeWhile
    (·.isSome) |>.filterMap id

def navigator : Navigator Board where
  stat b p := (dirgen b p, b)
  walk b p name := (walk b p name, b)
  readdir b p offset count := (readdir b p offset count, b)
  create b _ _ := ((none, Eperm), b)
  remove b _ := (some Eperm, b)

/-! ### The serve loop -/

/-- The server after a step, and the replies that it writes. -/
abbrev Served := Option (Styxserver Board × List Rmsg)

def one (srv : Styxserver Board) (m : Rmsg) : Served :=
  (srv.replydirect m).map fun r => (srv, [r])

def handled (h : Option (Handled Board)) : Served := h.map fun h => (h.srv, [h.reply])

def readstr (tag offset count : Nat) (data : Str) : Rmsg :=
  ⟨tag, .read (Notify.readbytes offset (toint count).toNat (cvtca data))⟩

def deliver (srv : Styxserver Board) (msg : Str) :
    List PendingRead → List PendingRead → Bool → Option (List PendingRead × Bool × List Rmsg)
  | [], kept, delivered => some (kept, delivered, [])
  | p :: next, kept, delivered =>
    if p.ft = Qevent then do
      let r ← srv.replydirect (readstr p.tag p.offset p.count (msg ++ [10]))
      let (kept, delivered, sent) ← deliver srv msg next kept true
      return (kept, delivered, r :: sent)
    else deliver srv msg next (p :: kept) delivered

def pushevent (srv : Styxserver Board) (msg : Str) : Served := do
  let (kept, delivered, sent) ← deliver srv msg srv.t.pending [] false
  return ({ srv with t :=
    { srv.t with
      pending := kept
      eventbuf := if delivered then srv.t.eventbuf else msg :: srv.t.eventbuf } }, sent)

def subfile (te : TaskEntry) (suboff : Nat) : Option Str :=
  if suboff = Qt_label then some te.label
  else if suboff = Qt_status then some te.status
  else if suboff = Qt_urgency then some (decimal te.urgency)
  else if suboff = Qt_synopsis then some te.synopsis
  else if suboff = Qt_category then some te.category
  else if suboff = Qt_instructions then some te.instructions
  else if suboff = Qt_progress then some te.progress
  else if suboff = Qt_order then some (decimal te.order)
  else none

def serveread (srv : Styxserver Board) (tag fid offset count : Nat) : Served :=
  match srv.canread fid offset count with
  | .error merr => one srv ⟨tag, .error merr⟩
  | .ok c =>
    let b := srv.t
    let qtype := TYPE c.path
    if qtype = Qctl then one srv (readstr tag offset count [])
    else if qtype = Qevent then
      match b.eventbuf.getLast? with
      | some msg =>
        one { srv with t := { b with eventbuf := Taskboard.remaining msg b.eventbuf } }
          (readstr tag offset count (msg ++ [10]))
      | none =>
        some ({ srv with t :=
          { b with pending := ⟨c.fid, tag, offset, count, Qevent⟩ :: b.pending } }, [])
    else if qtype = Qsummary then one srv (readstr tag offset count b.summarytext)
    else if Qtaskbase ≤ qtype then
      match taskfromqid b.tasks qtype with
      | none => one srv ⟨tag, .error Enotfound⟩
      | some (te, suboff) =>
        match subfile te suboff with
        | some val => one srv (readstr tag offset count val)
        | none => do
            -- the break leaves the inner case statement only
            let r ← srv.replydirect ⟨tag, .error Enotfound⟩
            let r' ← srv.replydirect (readstr tag offset count [])
            return (srv, [r, r'])
    else one srv ⟨tag, .error Enotfound⟩

def canwrite (srv : Styxserver Board) (fid offset : Nat) : Except Str Fid :=
  match srv.getfid fid with
  | none => .error Ebadfid
  | some c =>
    if c.isopen = false then .error Enotopen
    else if c.qtype &&& QTDIR ≠ 0 then .error Eperm
    else if c.mode &&& 3 ≠ OWRITE ∧ c.mode &&& 3 ≠ ORDWR then .error Eaccess
    else if 9223372036854775808 ≤ offset then .error Eoffset
    else .ok c

def fieldof (suboff : Nat) : Option Field :=
  if suboff = Qt_synopsis then some synopsis
  else if suboff = Qt_category then some category
  else if suboff = Qt_instructions then some instructions
  else if suboff = Qt_progress then some progress
  else if suboff = Qt_order then some order
  else none

def pushreply (srv : Styxserver Board) (msg : Str) (tag count : Nat) : Served := do
  let (srv, sent) ← pushevent srv msg
  let r ← srv.replydirect ⟨tag, .write count⟩
  return (srv, sent ++ [r])

def unlined (s : Str) : Str := if s.getLast? = some 10 then s.dropLast else s

def servewrite (srv : Styxserver Board) (tag fid offset : Nat) (data : List Nat) : Served :=
  match canwrite srv fid offset with
  | .error merr => one srv ⟨tag, .error merr⟩
  | .ok c =>
    let b := srv.t
    let qtype := TYPE c.path
    let text := unlined (c2string data)
    if qtype = Qctl then
      match handlectl b text with
      | .error err => one srv ⟨tag, .error err⟩
      | .ok (b, msg) => pushreply { srv with t := b } msg tag data.length
    else if Qtaskbase ≤ qtype then
      match taskfromqid b.tasks qtype with
      | none => one srv ⟨tag, .error Enotfound⟩
      | some (te, suboff) =>
        match fieldof suboff with
        | some f =>
          let tasks := update (·.qbase == te.qbase) (f.set text) b.tasks
          pushreply { srv with t := rendersummary { b with tasks := tasks } }
            (f.event te.id text) tag data.length
        | none => one srv ⟨tag, .error Eperm⟩
    else one srv ⟨tag, .error Eperm⟩

def serve (srv : Styxserver Board) (gm : Tmsg) : Served :=
  match gm.pick with
  | .read fid offset count => serveread srv gm.tag fid offset count
  | .write fid offset data => servewrite srv gm.tag fid offset data
  | .clunk fid => handled (srv.clunk gm.tag fid)
  | .remove fid => handled (srv.remove gm.tag fid)
  | _ => handled (srv.default navigator Qroot 0 gm)

/-! ### Steps -/

inductive Step
  /-- What `initialsync` reads. -/
  | sync (info : Str) (ui : Int → Files)
  /-- What `eventwatcher` reads, and the files of the tasks as they are then. -/
  | event (ev : Str) (ui : Int → Files)
  | request (gm : Tmsg)

def step (srv : Styxserver Board) : Step → Served
  | .sync info ui => some ({ srv with t := initialsync ui srv.t info }, [])
  | .event ev ui =>
    match handleuievent ui srv.t (strip ev) with
    | (b, none) => some ({ srv with t := b }, [])
    | (b, some msg) => pushevent { srv with t := b } msg
  | .request gm => serve srv gm

/-- The text of a file, nil where there is none; the buffer has 8192 bytes. -/
def readfile (bytes : List Nat) : Str := c2string (bytes.take 8192)

/-- The user's name, with what is in `/dev/user`. -/
def username (bytes : List Nat) : Str :=
  strip (if readfile bytes = [] then str "inferno" else readfile bytes)

def start (bytes : List Nat) : Styxserver Board :=
  Styxserver.new
    ⟨username bytes, [], Qtaskbase, 0, [], [], str "# Tasks\n\n(no tasks)\n"⟩

end Infernode.Dashboard
