import Infernode.Styx.Fidtable
import Infernode.Veltro.Notify
import Infernode.Veltro.Tools9p

/-!
The tool files of `appl/veltro/tools9p.b`.

Owns: the lists of active and of inactive tools with the qids of the active ones, `ctladd` and
`ctlremove`, `dirgen` and the navigator, and what the serve loop does with a request; a call of a
tool ends in a step of its own.

Does not own: what a tool does, what the other files say, and the delegation of tools.
-/

namespace Infernode.Toolfs

open Text Styx Lib9 Strings
open Tools9p (toolpath TOOL_PATHS)

/-! ### Qids -/

def Qroot : Nat := 0
def Qtools : Nat := 1
def Qhelp : Nat := 2
def Qregistry : Nat := 3
def Qctl : Nat := 4
def Qpaths : Nat := 5
def Qbudget : Nat := 6
def Qactivity : Nat := 7
def Qprovision : Nat := 8
def Qmeta : Nat := 9
def Qmetarole : Nat := 10
def Qmetaxenith : Nat := 11
def Qmetaactid : Nat := 12
def Qmetanodevs : Nat := 13
def Qgrantable : Nat := 14
def Qtoolbase : Nat := 100
def TOOL_STRIDE : Nat := 5
def Qtool_dir : Nat := 0
def Qtool_ctl : Nat := 1
def Qtool_doc : Nat := 2
def Qtool_schema : Nat := 3
def Qtool_run : Nat := 4

def Enotfound : Str := str "file does not exist"

def TYPE (path : Nat) : Nat := path % 65536

/-- The path of an `int`. -/
def big (n : Int) : Nat := (n % 18446744073709551616).toNat

def blockof (qid : Nat) : Nat := Qtoolbase + (qid - Qtoolbase) / TOOL_STRIDE * TOOL_STRIDE

def suboff (qid : Nat) : Nat := (qid - Qtoolbase) % TOOL_STRIDE

/-! ### Tools -/

/-- `mod` says whether the module is loaded. -/
structure ToolInfo where
  name : Str
  mod : Bool
  qid : Int
  result : Option (List Nat)
deriving DecidableEq, Repr

structure Tools where
  tools : List ToolInfo
  alltools : List ToolInfo
  vers : Nat
  user : Str
deriving DecidableEq, Repr

def findin (tools : List ToolInfo) (name : Str) : Option ToolInfo :=
  tools.find? fun ti => ti.name == tolower name

def findtool (b : Tools) (name : Str) : Option ToolInfo := findin b.tools name

def findalltool (b : Tools) (name : Str) : Option ToolInfo := findin b.alltools name

def findtoolbyqid (b : Tools) (qid : Nat) : Option ToolInfo :=
  if qid < Qtoolbase then none else b.tools.find? fun ti => ti.qid == (blockof qid : Int)

/-- The active tools of the arguments, where it is known which modules can be loaded. -/
def inittools (loads : Str → Bool) : List Str → Int → List ToolInfo → List ToolInfo
  | [], _, tools => tools
  | arg :: args, qid, tools =>
    let name := tolower arg
    if toolpath name = none ∨ (findin tools name).isSome then inittools loads args qid tools
    else
      inittools loads args (wrap (qid + TOOL_STRIDE)) (tools ++ [⟨name, loads name, qid, none⟩])

/-- The other tools, loaded before the name space is restricted. -/
def inactive (loads : Str → Bool) (tools : List ToolInfo) : List ToolInfo :=
  ((TOOL_PATHS.filter fun known => (findin tools known.1).isNone).map fun known =>
    ⟨known.1, loads known.1, 0, none⟩).reverse

/-- The largest qid of the list, or one block below the first. -/
def maxqid (tools : List ToolInfo) : Int :=
  tools.foldl (fun most ti => if most < ti.qid then ti.qid else most) (Qtoolbase - TOOL_STRIDE)

def nextqid (b : Tools) : Int := wrap (maxqid b.tools + TOOL_STRIDE)

def ctladd (b : Tools) (name : Str) : Except Str Tools :=
  let lname := tolower name
  if (findtool b lname).isSome then .ok b
  else
    match findalltool b lname with
    | none => .error (str "unknown tool: " ++ name)
    | some ti =>
      if ti.mod = false then .error (str "tool module not loaded: " ++ name)
      else
        .ok { b with
          tools := { ti with qid := nextqid b } :: b.tools
          alltools := (b.alltools.filter fun at_ => at_.name != ti.name).reverse
          vers := (b.vers + 1) % 4294967296 }

def ctlremove (b : Tools) (name : Str) : Tools :=
  let lname := tolower name
  { b with
    tools := (b.tools.filter fun ti => ti.name != lname).reverse
    alltools := ((b.tools.filter fun ti => ti.name == lname).map fun ti =>
      { ti with qid := 0 }).reverse ++ b.alltools
    vers := (b.vers + 1) % 4294967296 }

/-! ### The navigator -/

def dir (user : Str) (qid : Qid) (name : Str) (perm : Nat) : Dir :=
  { zerodir with
    qid := qid
    mode := if qid.qtype &&& QTDIR ≠ 0 then perm ||| DMDIR else perm
    name := name
    uid := user
    gid := user }

def dirgen (b : Tools) (p : Nat) : Option Dir × Str :=
  let qtype := TYPE p
  let directory (name : Str) (perm : Nat) := (some (dir b.user ⟨p, b.vers, QTDIR⟩ name perm), [])
  let file (name : Str) (perm : Nat) := (some (dir b.user ⟨p, b.vers, QTFILE⟩ name perm), [])
  if qtype = Qroot then directory (str "/") 0o755
  else if qtype = Qtools then file (str "tools") 0o444
  else if qtype = Qgrantable then file (str "grantable") 0o444
  else if qtype = Qhelp then file (str "help") 0o644
  else if qtype = Qregistry then file (str "_registry") 0o444
  else if qtype = Qctl then file (str "ctl") 0o644
  else if qtype = Qpaths then file (str "paths") 0o444
  else if qtype = Qbudget then file (str "budget") 0o444
  else if qtype = Qactivity then file (str "activity") 0o444
  else if qtype = Qprovision then file (str "provision") 0o644
  else if qtype = Qmeta then directory (str "meta") 0o555
  else if qtype = Qmetarole then file (str "role") 0o444
  else if qtype = Qmetaxenith then file (str "xenith") 0o444
  else if qtype = Qmetaactid then file (str "actid") 0o444
  else if qtype = Qmetanodevs then file (str "nodevs") 0o444
  else if Qtoolbase ≤ qtype then
    match findtoolbyqid b qtype with
    | none => (none, Enotfound)
    | some ti =>
      if suboff qtype = Qtool_dir then directory ti.name 0o755
      else if suboff qtype = Qtool_ctl then file (str "ctl") 0o644
      else if suboff qtype = Qtool_doc then file (str "doc") 0o444
      else if suboff qtype = Qtool_schema then file (str "schema") 0o444
      else if suboff qtype = Qtool_run then file (str "run") 0o644
      else (none, Enotfound)
  else (none, Enotfound)

def step (b : Tools) (p : Nat) (name : Str) : Except Str Nat :=
  let qtype := TYPE p
  if qtype = Qroot then
    if name = str ".." then .ok p
    else if name = str "tools" then .ok Qtools
    else if name = str "grantable" then .ok Qgrantable
    else if name = str "help" then .ok Qhelp
    else if name = str "_registry" then .ok Qregistry
    else if name = str "ctl" then .ok Qctl
    else if name = str "paths" then .ok Qpaths
    else if name = str "budget" then .ok Qbudget
    else if name = str "activity" then .ok Qactivity
    else if name = str "meta" then .ok Qmeta
    else if name = str "provision" then
      if (findtool b (str "task")).isNone then .error Enotfound else .ok Qprovision
    else
      match findtool b name with
      | none => .error Enotfound
      | some ti => .ok (big ti.qid)
  else if qtype = Qmeta then
    if name = str ".." then .ok Qroot
    else if name = str "role" then .ok Qmetarole
    else if name = str "xenith" then .ok Qmetaxenith
    else if name = str "actid" then .ok Qmetaactid
    else if name = str "nodevs" then .ok Qmetanodevs
    else .error Enotfound
  else if Qtoolbase ≤ qtype then
    if suboff qtype ≠ Qtool_dir then .error (str "not a directory")
    else if name = str ".." then .ok Qroot
    else if name = str "ctl" then .ok (qtype + Qtool_ctl)
    else if name = str "doc" then .ok (qtype + Qtool_doc)
    else if name = str "schema" then .ok (qtype + Qtool_schema)
    else if name = str "run" then .ok (qtype + Qtool_run)
    else .error Enotfound
  else .error (str "not a directory")

def walk (b : Tools) (p : Nat) (name : Str) : Option Dir × Str :=
  match step b p name with
  | .error err => (none, err)
  | .ok p => dirgen b p

/-- The paths of the entries of a directory, in order. -/
def entries (b : Tools) (p : Nat) : List Nat :=
  let qtype := TYPE p
  if qtype = Qroot then
    [Qtools, Qhelp, Qregistry, Qctl, Qpaths, Qbudget, Qactivity, Qmeta, Qgrantable] ++
      (if (findtool b (str "task")).isSome then [Qprovision] else []) ++
      b.tools.map fun ti => big ti.qid
  else if qtype = Qmeta then [Qmetarole, Qmetaxenith, Qmetaactid, Qmetanodevs]
  else if Qtoolbase ≤ qtype ∧ suboff qtype = Qtool_dir then
    [qtype + Qtool_ctl, qtype + Qtool_doc, qtype + Qtool_schema, qtype + Qtool_run]
  else []

/-- The entries from an index on, so many at most; the first that there is no such file of is
taken for the end. -/
def readdir (b : Tools) (p offset count : Nat) : List Dir :=
  ((((entries b p).drop offset).take count).map fun q => (dirgen b q).1).takeWhile
    (·.isSome) |>.filterMap id

def navigator : Navigator Tools where
  stat b p := (dirgen b p, b)
  walk b p name := (walk b p name, b)
  readdir b p offset count := (readdir b p offset count, b)
  create b _ _ := ((none, Eperm), b)
  remove b _ := (some Eperm, b)

/-! ### The serve loop -/

/-- A call that runs: the tool, the fid that it was written to while that is in the table, and
the tag and the count for its reply. -/
structure Call where
  tool : Str
  args : Str
  fid : Option Nat
  tag : Nat
  count : Nat
deriving DecidableEq, Repr

/-- What a call left on the fid that made it, and which tool it ran. -/
structure Result where
  tool : Str
  bytes : List Nat
deriving DecidableEq, Repr

/-- `data` is the `data` of the fids. -/
structure Server where
  srv : Styxserver Tools
  calls : List Call
  data : Nat → Option Result

/-- The tool that a request is for, and what of it. -/
inductive Use
  | runs (tool : Str)
  | doc (tool : Str)
  | schema (tool : Str)
  | result (tool : Str)
deriving DecidableEq, Repr

/-- The server after a request, the reply if there is one yet, and the tool that it runs or
reads. -/
structure Served where
  server : Server
  reply : Option Rmsg
  use : Option Use

section Serve

-- what the other files say, the answer to a write to one of them, and what the tools say of
-- themselves
variable (text : Nat → Str) (answer : Nat → Str → RPick) (doc schema : Str → Str)

def Server.answered (s : Server) (m : Rmsg) (use : Option Use) : Option Served :=
  (s.srv.replydirect m).map fun m => ⟨s, some m, use⟩

def Server.handled (s : Server) (h : Option (Handled Tools)) : Option Served :=
  h.map fun h => ⟨{ s with srv := h.srv }, some h.reply, none⟩

def readbytes (tag offset count : Nat) (bytes : List Nat) : Rmsg :=
  ⟨tag, .read (Notify.readbytes offset (toint count).toNat bytes)⟩

/-- The entry of a tool is changed in place. -/
def update (name : Str) (f : ToolInfo → ToolInfo) (b : Tools) : Tools :=
  let one (ti : ToolInfo) := if ti.name = name then f ti else ti
  { b with tools := b.tools.map one, alltools := b.alltools.map one }

def Server.update (s : Server) (name : Str) (f : ToolInfo → ToolInfo) : Server :=
  { s with srv := { s.srv with t := Toolfs.update name f s.srv.t } }

def noresult : List Nat := cvtca (str "error: no result (write arguments first)")

def serveread (s : Server) (fuel tag fid offset count : Nat) : Option Served :=
  match s.srv.canread fid offset count with
  | .error err => s.answered ⟨tag, .error err⟩ none
  | .ok c =>
    if c.qtype &&& QTDIR ≠ 0 then s.handled (s.srv.read navigator fuel tag fid offset count)
    else
      let qtype := TYPE c.path
      if qtype < Qtoolbase then
        if qtype = Qroot ∨ qtype = Qmeta ∨ Qgrantable < qtype then
          s.answered ⟨tag, .error Eperm⟩ none
        else s.answered (readbytes tag offset count (cvtca (text qtype))) none
      else
        match findtoolbyqid s.srv.t qtype with
        | none => s.answered ⟨tag, .error Enotfound⟩ none
        | some ti =>
          if suboff qtype = Qtool_dir then
            s.handled (s.srv.read navigator fuel tag fid offset count)
          else if suboff qtype = Qtool_ctl ∨ suboff qtype = Qtool_run then
            match s.data fid with
            | some r => s.answered (readbytes tag offset count r.bytes) (some (.result r.tool))
            | none =>
              let result := ti.result.getD noresult
              (s.update ti.name fun ti => { ti with result := some result }).answered
                (readbytes tag offset count result) (some (.result ti.name))
          else if suboff qtype = Qtool_doc then
            s.answered (readbytes tag offset count (cvtca (doc ti.name))) (some (.doc ti.name))
          else if suboff qtype = Qtool_schema then
            s.answered (readbytes tag offset count (cvtca (schema ti.name)))
              (some (.schema ti.name))
          else s.answered ⟨tag, .error Enotfound⟩ none

def unlined (s : Str) : Str := if s.getLast? = some 10 then s.dropLast else s

/-- A write to the ctl file; the commands that are not about the list of tools are others. -/
def writectl (b : Tools) (data : Str) (count : Nat) : Tools × RPick :=
  if 4 < data.length ∧ data.take 4 = str "add " then
    match ctladd b (data.drop 4) with
    | .error err => (b, .error err)
    | .ok b => (b, .write count)
  else if 7 < data.length ∧ data.take 7 = str "remove " then
    (ctlremove b (data.drop 7), .write count)
  else (b, answer Qctl data)

def servewrite (s : Server) (tag fid offset : Nat) (data : List Nat) : Option Served :=
  match s.srv.canwrite fid offset with
  | .error err => s.answered ⟨tag, .error err⟩ none
  | .ok c =>
    let qtype := TYPE c.path
    let args := unlined (c2string data)
    if qtype = Qctl then
      let (b, pick) := writectl answer s.srv.t args data.length
      { s with srv := { s.srv with t := b } }.answered ⟨tag, pick⟩ none
    else if qtype = Qhelp ∨ qtype = Qprovision then s.answered ⟨tag, answer qtype args⟩ none
    else if Qtoolbase ≤ qtype then
      if suboff qtype ≠ Qtool_ctl ∧ suboff qtype ≠ Qtool_run then
        s.answered ⟨tag, .error Eperm⟩ none
      else
        match findtoolbyqid s.srv.t qtype with
        | none => s.answered ⟨tag, .error Enotfound⟩ none
        | some ti =>
          some ⟨{ s with calls := s.calls ++ [⟨ti.name, args, some fid, tag, data.length⟩] },
            none, some (.runs ti.name)⟩
    else s.answered ⟨tag, .error Eperm⟩ none

/-- An open is not asked whether the file is there. -/
def serveopen (s : Server) (tag fid omode : Nat) : Option Served :=
  match s.srv.getfid fid with
  | none => s.handled (s.srv.open navigator tag fid omode)
  | some c =>
    match openmode omode with
    | none => s.answered ⟨tag, .error Ebadarg⟩ none
    | some mode =>
      let qid : Qid := ⟨c.path, 0, c.qtype⟩
      { s with
        srv := s.srv.setfid (c.open mode qid)
        data := fun n => if n = fid then none else s.data n }.answered
        ⟨tag, .«open» qid s.srv.iounit⟩ none

/-- The fid is out of the table, and what a call leaves on it is seen by nobody. -/
def Server.retire (s : Server) (fid : Nat) : Server :=
  { s with
    calls := s.calls.map fun call =>
      if call.fid = some fid then { call with fid := none } else call
    data := fun n => if n = fid then none else s.data n }

def serve (s : Server) (fuel : Nat) (gm : Tmsg) : Option Served :=
  match gm.pick with
  | .«open» fid mode => serveopen s gm.tag fid mode
  | .read fid offset count => serveread text doc schema s fuel gm.tag fid offset count
  | .write fid offset data => servewrite answer s gm.tag fid offset data
  | .clunk fid => (s.retire fid).handled (s.srv.clunk gm.tag fid)
  | .remove fid => (s.retire fid).handled (s.srv.remove gm.tag fid)
  | _ => s.handled (s.srv.default navigator Qroot fuel gm)

end Serve

/-! ### Calls -/

/-- `setresult`: on the tool, and on the fid that made the call. -/
def Server.setresult (s : Server) (call : Call) (r : Str) : Server :=
  { s.update call.tool fun ti => { ti with result := some (cvtca r) } with
    data := fun n => if call.fid = some n then some ⟨call.tool, cvtca r⟩ else s.data n }

/-- A call ends with a result, the text of an error among them, or by an exception. -/
def Server.finish (s : Server) (k : Nat) (r : Option Str) : Server :=
  match s.calls[k]? with
  | none => s
  | some call =>
    let s := { s with calls := s.calls.eraseIdx k }
    match r with
    | none => s
    | some r => s.setresult call r

/-- A call, or a read of the texts of a tool, has loaded the module. -/
def Server.loaded (s : Server) (name : Str) : Server :=
  s.update name fun ti => { ti with mod := true }

def start (loads : Str → Bool) (args : List Str) (user : Str) : Server :=
  let tools := inittools loads args Qtoolbase []
  ⟨Styxserver.new ⟨tools, inactive loads tools, 0, user⟩, [], fun _ => none⟩

end Infernode.Toolfs
