import Infernode.Lib.Arg
import Infernode.Veltro.Grantpath

/-!
Delegation in `appl/veltro/tools9p.b`: the state that grants authority, the parser of
a provision request, and the start of the child process from the argument list that
it returns.

Owns: `pathperm`, `genwritepaths`, `childbudget`, `childpathallowed`,
`provisionparse`, the arguments of `init`, `inittools`, and the line of processes
that provision one another.

Does not own: the tools themselves, the file service, and the construction of a name
space from the grants.
-/

namespace Infernode.Tools9p

open Text Strings Veltro

/-! ### State -/

inductive Perm where
  | ro
  | rw
deriving DecidableEq, Repr

def Perm.text : Perm → Str
  | .ro => str "ro"
  | .rw => str "rw"

structure BoundPath where
  path : Str
  perm : Perm
deriving DecidableEq, Repr

/-- The scratch directory of the activity, an implicit capability. -/
def scratch : Str := str "/tmp/veltro/scratch"

def privilegedcontrolpath (path : Str) : Bool :=
  dangerous.any (atOrBelow · path) || walletcontrolpath path || ftreecontrolpath path ||
    tmpveltrointernalpath path || appipccontrolpath path || uiagentcontrolpath path ||
    llmctlcontrolpath path || auditcontrolpath path || calendarcontrolpath path ||
    fixedservicecontrolpath path

def bindpathallowed (path : Str) : Bool :=
  !privilegedcontrolpath path && !directmailsendpath path

/-- What every path passes before it becomes a bound path. -/
def Grantable (path : Str) : Prop :=
  validatepath path = none ∧ bindpathallowed path = true ∧ path ≠ scratch

instance (path : Str) : Decidable (Grantable path) := inferInstanceAs (Decidable (_ ∧ _ ∧ _))

inductive Role where
  | toplevel
  | child
deriving DecidableEq, Repr

def TOOL_PATHS : List (Str × Str) :=
  ["read", "list", "find", "search", "write", "edit", "exec", "launch", "spawn", "xenith", "present",
    "gap", "diff", "json", "webfetch", "git", "grep", "memory", "todo", "websearch", "browse",
    "charon", "gpu", "say", "hear", "vision", "editor", "shell", "fractal", "man", "matrix", "window",
    "task", "plan", "wiki", "keyring", "wallet", "payfetch", "limbo", "sms", "dial", "contacts"].map
      fun name => (str name, str "/dis/veltro/tools/" ++ str name ++ str ".dis")

def toolpath (name : Str) : Option Str := (TOOL_PATHS.find? (·.1 == tolower name)).map Prod.snd

/-- The variables of the module. `tools` are the names of the active tools, `alltools`
of the loaded inactive ones. -/
structure State where
  tools : List Str
  alltools : List Str
  extpaths : List Str
  boundpaths : List BoundPath
  budget : List Str
  activityid : Int
  mountpt : Str
  verbose : Bool
  agentrole : Role
  agentnodevs : Bool
  grantable : ∀ b ∈ boundpaths, Grantable b.path
  known : ∀ name, name ∈ tools ∨ name ∈ alltools → toolpath name ≠ none

def State.loaded : State :=
  ⟨[], [], [], [], [], 0, str "/tool", false, .toplevel, false, by simp, by simp⟩

/-! ### Tools -/

def inittools : List Str → List Str → List Str
  | [], active => active
  | arg :: args, active =>
    let name := tolower arg
    if toolpath name = none ∨ name ∈ active then inittools args active
    else inittools args (active ++ [name])

def findtool (st : State) (name : Str) : Bool := st.tools.contains (tolower name)

def findalltool (st : State) (name : Str) : Bool := st.alltools.contains (tolower name)

def toolavailable (st : State) (name : Str) : Bool := findtool st name || findalltool st name

def childbudget (st : State) : List Str := (st.budget.filter (toolavailable st)).reverse

/-- The read-only tools that every child gets from a parent that has them active. -/
def basics : List Str := [str "read", str "list", str "find", str "search", str "grep"]

/-! ### Paths -/

def findboundpath (boundpaths : List BoundPath) (path : Str) : Option BoundPath :=
  boundpaths.find? (·.path == path)

/-- Split `path:perm` or `path perm`; the default is `rw`. -/
def splitpathperm (s : Str) : Str × Perm :=
  let front := s.take (s.length - 3)
  if 3 < s.length ∧ s.drop (s.length - 3) = str ":ro" then (front, .ro)
  else if 3 < s.length ∧ s.drop (s.length - 3) = str ":rw" then (front, .rw)
  else if 3 < s.length ∧ s.drop (s.length - 3) = str " ro" then (front, .ro)
  else if 3 < s.length ∧ s.drop (s.length - 3) = str " rw" then (front, .rw)
  else (s, .rw)

def childpathallowed (st : State) (path : Str) : Bool :=
  if privilegedcontrolpath path then false
  else if directmailsendpath path then false
  else if path = str "/mnt/msg/draft" ∨ path = str "/mnt/msg/flag" then
    st.extpaths.any (· == path) || st.boundpaths.any (·.path == path)
  else st.extpaths.any (pathwithin · path) || st.boundpaths.any (pathwithin ·.path path)

/-- The permission of a path: that of a grant, or copy on write. -/
inductive Effective where
  | cow
  | grant (perm : Perm)
deriving DecidableEq, Repr

/-- One turn of the search for the narrowest grant. -/
def narrower (path : Str) (found : Str × Perm) (b : BoundPath) : Str × Perm :=
  if pathwithin b.path path = true ∧ (found.1.length < b.path.length ∨
      (b.path.length = found.1.length ∧ b.perm = .ro)) then
    (b.path, b.perm)
  else found

def pathperm (boundpaths : List BoundPath) (path : Str) : Effective :=
  if path = scratch then .cow else .grant (boundpaths.foldl (narrower path) ([], .ro)).2

def genwritepaths (boundpaths : List BoundPath) : List Str :=
  ((boundpaths.filter (·.perm == .rw)).map BoundPath.path).reverse

/-! ### Provision requests -/

def parseactivityid (s : Str) : Except Str Int :=
  if s = [] then .error (str "missing activity id")
  else if !s.all isDigit then .error (str "activity id must be decimal digits")
  else
    let id := wrap (natOfDigits s)
    if id < 0 then .error (str "invalid activity id") else .ok id

def validtooltoken (name : Str) : Bool :=
  !name.isEmpty && name.all fun c =>
    (decide (97 ≤ c) && decide (c ≤ 122)) || (decide (48 ≤ c) && decide (c ≤ 57)) || c == 45 ||
      c == 95 || c == 46

/-- The attributes of a request; a missing one is empty. -/
structure Attrs where
  tools : Option Str
  paths : Option Str
deriving DecidableEq, Repr

def attrs : List Str → Attrs → Except Str Attrs
  | [], found => .ok found
  | tok :: toks, found =>
    if 6 < tok.length ∧ tok.take 6 = str "tools=" then
      if found.tools ≠ none then .error (str "duplicate tools= attr")
      else attrs toks { found with tools := some (tok.drop 6) }
    else if 6 < tok.length ∧ tok.take 6 = str "paths=" then
      if found.paths ≠ none then .error (str "duplicate paths= attr")
      else attrs toks { found with paths := some (tok.drop 6) }
    else .error (str "unknown attr " ++ tok)

def requestedtools (st : State) : List Str → List Str → Except Str (List Str)
  | [], toollist => .ok toollist
  | tname :: ttoks, toollist =>
    if !validtooltoken tname then .error (str "invalid tool name " ++ tname)
    else if !(childbudget st).contains tname || !toolavailable st tname then
      .error (str "denied tool " ++ tname ++ str " (not in delegation budget)")
    else requestedtools st ttoks (tname :: toollist)

def withbasics (st : State) (toollist : List Str) : List Str :=
  basics.foldl
    (fun toollist name =>
      if findtool st name && !toollist.contains name then name :: toollist else toollist)
    toollist

def requestedpaths (st : State) : List Str → List BoundPath → Except Str (List BoundPath)
  | [], pathcaps => .ok pathcaps
  | raw :: ptoks, pathcaps =>
    if raw = [] then .error (str "empty path in paths=")
    else
      let (ppath, pperm) := splitpathperm raw
      match validatepath ppath with
      | some perr => .error (str "denied invalid path " ++ ppath ++ str ": " ++ perr)
      | none =>
        if !childpathallowed st ppath then
          .error (str "denied path " ++ ppath ++ str " (outside this agent's grants)")
        else
          let pperm := if pathperm st.boundpaths ppath = .grant .ro then .ro else pperm
          requestedpaths st ptoks (⟨ppath, pperm⟩ :: pathcaps)

def pathargs (b : BoundPath) : List Str := [str "-p", b.path ++ 58 :: b.perm.text]

def childargs (st : State) (id : Int) (toollist : List Str) (pathcaps : List BoundPath) : List Str :=
  str "tools9p" :: (if st.verbose then [str "-v"] else []) ++
    [str "-N", str "-r", str "child", str "-a", decimal id, str "-m", str "/tool." ++ decimal id] ++
    pathcaps.reverse.flatMap pathargs ++ toollist.reverse

def provisionparse (st : State) (args : Str) : Except (Int × Str) (Int × Str × List Str) :=
  match tokens (· == 32) args with
  | [] => .error (-1, str "no activity id")
  | idstr :: toks =>
    match parseactivityid idstr with
    | .error iderr => .error (-1, str "invalid id " ++ idstr ++ str ": " ++ iderr)
    | .ok id =>
      let parsed := do
        let found ← attrs toks ⟨none, none⟩
        let toollist ← requestedtools st (tokens (· == 44) (found.tools.getD [])) []
        let pathcaps ← requestedpaths st (tokens (· == 44) (found.paths.getD [])) []
        return childargs st id (withbasics st toollist) pathcaps
      match parsed with
      | .error err => .error (id, err)
      | .ok rargs => .ok (id, str "/tool." ++ decimal id, rargs)

/-! ### The start of a process -/

/-- Read a number in base 10, which wraps around. -/
def toint (s : Str) : Int :=
  let signed := takeSign (s.dropWhile fun c => c == 32 || c == 9 || c == 10)
  let n := wrap (natOfDigits (signed.2.takeWhile isDigit))
  if signed.1 then wrap (-n) else n

/-- The option `-p`: a path with a permission is bound, where it is not bound yet; one
without is an old-style grant. -/
def pathoption (st : State) (parg : Str) : Except Str State :=
  let suffix := parg.drop (parg.length - 3)
  let explicit := 3 < parg.length ∧ (suffix = str ":ro" ∨ suffix = str ":rw")
  let (ppath, pperm) := splitpathperm parg
  if valid : validatepath ppath = none then
    if allowed : bindpathallowed ppath = true then
      if ordinary : ppath ≠ scratch then
        if explicit then
          if findboundpath st.boundpaths ppath = none then
            .ok { st with
              boundpaths := ⟨ppath, pperm⟩ :: st.boundpaths
              grantable := by
                intro b member
                rcases List.mem_cons.1 member with rfl | old
                · exact ⟨valid, allowed, ordinary⟩
                · exact st.grantable b old }
          else .ok st
        else .ok { st with extpaths := ppath :: st.extpaths }
      else .ok st
    else .error (str "fail:usage")
  else .error (str "fail:usage")

/-- One option, its argument taken from what is left. -/
def option (c : Nat) (a : Arg) (st : State) : Except Str (State × Arg) :=
  let withArg (use : Str → Except Str State) : Except Str (State × Arg) :=
    match a.earg with
    | none => .error (str "fail:usage")
    | some (text, a) => (use text).map (·, a)
  if c = 68 then .ok (st, a) -- `-D` traces the protocol
  else if c = 118 then .ok ({ st with verbose := true }, a)
  else if c = 114 then
    withArg fun rarg =>
      if rarg = str "toplevel" then .ok { st with agentrole := .toplevel }
      else if rarg = str "child" then .ok { st with agentrole := .child }
      else .error (str "fail:usage")
  else if c = 78 then .ok ({ st with agentnodevs := true }, a)
  else if c = 109 then withArg fun marg => .ok { st with mountpt := marg }
  else if c = 112 then withArg (pathoption st)
  else if c = 97 then withArg fun aarg => .ok { st with activityid := toint aarg }
  else if c = 98 then
    withArg fun barg =>
      .ok { st with budget := (tokens (· == 44) barg).reverse ++ st.budget }
  else .error (str "fail:usage")

theorem size_option {c : Nat} {a a' : Arg} {st st' : State}
    (done : option c a st = .ok (st', a')) : a'.size ≤ a.size := by
  have taken : ∀ use : Str → Except Str State, ∀ st' a',
      (match a.earg with
        | none => Except.error (str "fail:usage")
        | some (text, a) => (use text).map (·, a)) = .ok (st', a') → a'.size ≤ a.size := by
    intro use _ _ done
    cases shape : a.earg with
    | none =>
      rw [shape] at done
      cases done
    | some pair =>
      have ⟨text, _⟩ := pair
      rw [shape] at done
      simp only at done
      cases result : use text with
      | error _ =>
        rw [result] at done
        cases done
      | ok _ =>
        rw [result] at done
        cases done
        exact Arg.size_earg shape
  unfold option at done
  simp only at done
  split_ifs at done <;> first | exact taken _ _ _ done | (cases done; exact Nat.le_refl _)

/-- The options of a command line, up to the first argument that is none. -/
def getopts (a : Arg) (st : State) : Except Str (State × List Str) :=
  if _ : a.opt.1 = 0 then .ok (st, a.opt.2.args)
  else
    match _ : option a.opt.1 a.opt.2 st with
    | .error raised => .error raised
    | .ok (st, rest) => getopts rest st
termination_by a.size
decreasing_by exact Nat.lt_of_le_of_lt (size_option ‹_›) (Arg.size_opt ‹_›)

/-- The pool of the known tools that are not active. -/
def inactive (tools : List Str) : List Str :=
  ((TOOL_PATHS.map Prod.fst).filter fun name => !tools.contains name).reverse

theorem toolpath_of_mem_inittools (args : List Str) : ∀ active : List Str,
    (∀ name ∈ active, toolpath name ≠ none) → ∀ name ∈ inittools args active,
      toolpath name ≠ none := by
  induction args with
  | nil => exact fun _ known => known
  | cons _ _ ih =>
    intro active known
    unfold inittools
    simp only
    split_ifs with skipped
    · exact ih active known
    refine ih _ ?_
    intro name member
    rcases List.mem_append.1 member with old | new
    · exact known name old
    · rw [List.mem_singleton.1 new]
      exact (not_or.1 skipped).1

theorem toolpath_of_mem_inactive {tools : List Str} :
    ∀ name ∈ inactive tools, toolpath name ≠ none := by
  have table : ∀ name ∈ TOOL_PATHS.map Prod.fst, toolpath name ≠ none := by decide +kernel
  intro name member
  exact table name (List.mem_of_mem_filter (List.mem_reverse.1 member))

def init (args : List Str) : Except Str State :=
  match getopts (Arg.init args) State.loaded with
  | .error raised => .error raised
  | .ok (st, args) =>
    if args = [] then .error (str "fail:usage")
    else
      let tools := inittools args []
      if tools = [] then .error (str "fail:no tools")
      else
        .ok { st with
          tools := tools
          alltools := inactive tools
          known := by
            rintro name (active | inactive)
            · exact toolpath_of_mem_inittools args [] (by simp) name active
            · exact toolpath_of_mem_inactive name inactive }

/-! ### Lines of descent -/

/-- The child that a request starts, if the request is accepted and the child starts. -/
def provision (st : State) (args : Str) : Option State :=
  match provisionparse st args with
  | .error _ => none
  | .ok (_, _, rargs) => (init rargs).toOption

def descend (st : State) : List Str → List State
  | [] => [st]
  | args :: requests =>
    match provision st args with
    | none => [st]
    | some child => st :: descend child requests

end Infernode.Tools9p
