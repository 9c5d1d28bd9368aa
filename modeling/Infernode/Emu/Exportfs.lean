import Infernode.Emu.Dotdot
import Mathlib.Data.List.GetD

/-!
The walks of `emu/port/exportfs.c`.

Owns: the names that `validname` accepts, the fids of an export, `Exattach`,
`Exwalk` and `Exclunk`, the files below an export root, and the theorem that walks
without null elements stay there.
-/

namespace Infernode.Emu

open Text List

/-! ### Names -/

/-- The characters that a name must not have. -/
def isfrog (c : Nat) : Bool := decide (c < 32) || c == 47 || c == 127

/-- `aname` as bytes, without its end. -/
def validname (aname : Str) (slashok : Bool) : Bool :=
  decide (aname.length < 65536) &&
    aname.all fun c => decide (128 ≤ c) || !isfrog c || (slashok && c == 47)

/-- An element that passes `validname(name, 0)`. -/
abbrev ValidName := { name : Str // validname name false = true }

/-! ### State -/

/-- A channel, and which of the names of the process it refers to: channels that are
clones of one another share a name. -/
structure Ref where
  chan : Chan
  name : Nat
deriving DecidableEq, Repr

structure Export where
  root : Ref
  names : List Stack
  fids : List (Nat × Ref)
deriving DecidableEq, Repr

def Exgetfid (fs : Export) (fid : Nat) : Option Ref :=
  (fs.fids.find? fun entry => entry.1 == fid).map Prod.snd

def Exmkfid (fs : Export) (fid : Nat) (r : Ref) : Option Export :=
  match Exgetfid fs fid with
  | some _ => none
  | none => some { fs with fids := (fid, r) :: fs.fids }

def Exputfid (fs : Export) (fid : Nat) : Export :=
  { fs with fids := fs.fids.filter fun entry => entry.1 != fid }

def setfid (fs : Export) (fid : Nat) (r : Ref) : Export :=
  { fs with fids := fs.fids.map fun entry => if entry.1 == fid then (fid, r) else entry }

def stackof (names : List Stack) (r : Ref) : Stack := names.getD r.name []

/-! ### Messages -/

inductive Message where
  | Tattach (fid : Nat)
  | Twalk (fid newfid : Nat) (wname : List ValidName)
  | Tclunk (fid : Nat)

inductive Reply where
  | Rattach
  | Rwalk (nwqid : Nat)
  | Rclunk
  | Rerror (ename : Str)
deriving DecidableEq, Repr

section Server

variable {D : Devices} (ns : Mounts D)

def exisroot (fs : Export) (c : Ref) : Bool := c.chan.file == fs.root.chan.file

def safewalk (names : List Stack) (c : Ref) (name : Str) : List Stack × Option Ref :=
  match walk ns false c.chan (stackof names c) [name] with
  | .error start => (names.set c.name start, none)
  | .ok (chan, cname) =>
    let names := names.set c.name cname.start
    if cname.own then (names ++ [cname.mtpt], some ⟨chan, names.length⟩)
    else (names, some ⟨chan, c.name⟩)

/-- At the root nothing goes up, and an empty name does nothing. -/
def exstep (fs : Export) (names : List Stack) (c : Ref) (name : Str) :
    List Stack × Option Ref :=
  if exisroot fs c = true ∧ (name = [] ∨ name = str "..") then (names, some c)
  else safewalk ns names c name

/-- Walk the elements: the names of the process, how many elements were walked, and the
channel if all were. -/
def exwalk (fs : Export) : List Stack → Ref → List ValidName → List Stack × Nat × Option Ref
  | names, c, [] => (names, 0, some c)
  | names, c, name :: wname =>
    match exstep ns fs names c name.1 with
    | (names, none) => (names, 0, none)
    | (names, some c) =>
      let (names, n, c) := exwalk fs names c wname
      (names, n + 1, c)

def Exwalk (fs : Export) (fid newfid : Nat) (wname : List ValidName) : Export × Reply :=
  match Exgetfid fs fid with
  | none => (fs, .Rerror (str "no such fid"))
  | some c =>
    match exwalk ns fs fs.names c wname with
    | (names, n, none) =>
      ({ fs with names := names }, if n = 0 then .Rerror (str "does not exist") else .Rwalk n)
    | (names, n, some c) =>
      let fs := { fs with names := names }
      if newfid ≠ fid then
        match Exmkfid fs newfid c with
        | none => (fs, .Rerror (str "fid in use"))
        | some fs => (fs, .Rwalk n)
      else (setfid fs fid c, .Rwalk n)

def Exattach (fs : Export) (fid : Nat) : Export × Reply :=
  match Exmkfid fs fid fs.root with
  | none => (fs, .Rerror (str "fid in use"))
  | some fs => (fs, .Rattach)

def Exclunk (fs : Export) (fid : Nat) : Export × Reply :=
  match Exgetfid fs fid with
  | none => (fs, .Rerror (str "no such fid"))
  | some _ => (Exputfid fs fid, .Rclunk)

def serve (fs : Export) : Message → Export × Reply
  | .Tattach fid => Exattach fs fid
  | .Twalk fid newfid wname => Exwalk ns fs fid newfid wname
  | .Tclunk fid => Exclunk fs fid

def run (fs : Export) (messages : List Message) : Export :=
  messages.foldl (fun fs message => (serve ns fs message).1) fs

end Server

def export_ (p : Place) : Export := ⟨⟨p.chan, 0⟩, [p.mtpt], []⟩

/-! ### The files below the root -/

section Confined

variable {D : Devices} (ns : Mounts D)

/-- The files that are reached from the root by going down: to a child, or across a
mount. -/
inductive Reach (root : File) : File → Prop where
  | root : Reach root root
  | child {f : File} {name : Str} {path : Nat} (reach : Reach root f)
      (found : D.child f name = some path) : Reach root (f.at path)
  | cross {f : File} {m : Mhead} {mount : Mount} (reach : Reach root f)
      (found : findmount ns f = some m) (member : mount ∈ m.mounts) : Reach root mount.to.file

def Confined (fs : Export) : Prop := ∀ entry ∈ fs.fids, Reach ns fs.root.chan.file entry.2.chan.file

/-- No element of a walk is null: none is `.`, and none is empty but at the root, where
it is skipped. -/
def NoNull (fs : Export) : List Stack → Ref → List ValidName → Prop
  | _, _, [] => True
  | names, c, name :: wname =>
    name.1 ≠ str "." ∧ (name.1 = [] → exisroot fs c = true) ∧
      match exstep ns fs names c name.1 with
      | (_, none) => True
      | (names, some c) => NoNull fs names c wname

variable {fs : Export}

theorem noNull_of_forall (wname : List ValidName) : ∀ {names : List Stack} {c : Ref},
    (∀ name ∈ wname, name.1 ≠ str "." ∧ name.1 ≠ []) → NoNull ns fs names c wname := by
  induction wname with
  | nil => exact fun _ => trivial
  | cons name _ ih =>
    intro _ _ proper
    have ⟨noDot, noEmpty⟩ := proper name mem_cons_self
    refine ⟨noDot, fun empty => absurd empty noEmpty, ?_⟩
    split
    · trivial
    · exact ih (forall_mem_cons.1 proper).2

def RunNoNull (fs : Export) : List Message → Prop
  | [] => True
  | message :: messages =>
    (∀ fid newfid wname c, message = .Twalk fid newfid wname → Exgetfid fs fid = some c →
      NoNull ns fs fs.names c wname) ∧ RunNoNull (serve ns fs message).1 messages

/-- A position below the root: the root with what its own stack held below, or the child
of a position below the root or of what is mounted there. -/
inductive Below (root : Pos) : Pos → Prop where
  | root {c : Chan} {slot : Option Chan} {s : Stack} (file : c.file = root.1.file)
      (tail : root.2.tail = s) (top : ∀ ch, slot = some ch → ch.file = root.1.file) :
      Below root (c, slot :: s)
  | down {p : Pos} {c ch : Chan} {name : Str} (below : Below root p) (isElem : IsElem name)
      (notUp : name ≠ str "..") (member : ch ∈ (resolve ns false p).1)
      (found : D.step ch.file name = some c.file) : Below root (c, none :: (resolve ns false p).2)

variable {ns} {root : Pos}

variable {p : Pos} {name : Str}

theorem Below.ne_nil (below : Below ns root p) : p.2 ≠ [] := by
  cases below <;> exact cons_ne_nil _ _

variable (ns) in
theorem resolve_ne_nil (nonempty : p.2 ≠ []) : (resolve ns false p).2 ≠ [] := by
  have ⟨c, s⟩ := p
  obtain ⟨slot, s, rfl⟩ := exists_cons_of_ne_nil nonempty
  rcases resolve_cases ns false (c, slot :: s) with
    ⟨_, resolved⟩ | ⟨m, _, _, _, resolved⟩
  · rw [resolved]
    exact cons_ne_nil _ _
  · rw [resolved]
    exact cons_ne_nil _ _

theorem Below.congr {c c' : Chan} {s : Stack} (below : Below ns root (c, s))
    (same : c'.file = c.file) : Below ns root (c', s) := by
  cases below with
  | root file tail top => exact Below.root (same.trans file) tail top
  | down below isElem notUp member found =>
    exact Below.down below isElem notUp member (same ▸ found)

theorem Below.reach (below : Below ns root p) : Reach ns root.1.file p.1.file := by
  induction below with
  | root file _ _ =>
    rw [file]
    exact Reach.root
  | @down p c ch name below isElem notUp member found ih =>
    have parent : Reach ns root.1.file ch.file := by
      rcases resolve_cases ns false p with
        ⟨_, resolved⟩ | ⟨m, cross, _, _, resolved⟩
      · rw [resolved] at member
        rw [mem_singleton.1 member]
        exact ih
      · rw [resolved] at member
        obtain ⟨_, isMount, rfl⟩ := mem_map.1 member
        exact Reach.cross ih cross isMount
    unfold Devices.step at found
    split_ifs at found with _ isDot
    · exact absurd isDot isElem.2
    · have ⟨_, child, same⟩ := Option.map_eq_some_iff.1 found
      rw [← same]
      exact Reach.child parent child

/-- The way up from a child of a position leads back to the position. -/
theorem Below.ascend {c ch : Chan} (below : Below ns root p) (isElem : IsElem name)
    (notUp : name ≠ str "..") (member : ch ∈ (resolve ns false p).1)
    (found : D.step ch.file name = some c.file) :
    Below ns root (ascend D (c, none :: (resolve ns false p).2)) := by
  have up := parent_of_step isElem notUp found
  have ⟨c', _⟩ := p
  obtain ⟨slot, rest, rfl⟩ := exists_cons_of_ne_nil below.ne_nil
  -- what `..` finds: the file of the position, and its slot with or without a crossing
  have landed : ∀ slot' : Option Chan, (∀ mp, slot' = some mp → mp.file = c'.file) →
      Below ns root (undo ⟨c'.file, c.mflag⟩ (slot' :: rest)) := by
    intro slot' sameFile
    cases below with
    | root file tail _ =>
      have atRoot : ∀ mp, slot' = some mp → mp.file = root.1.file :=
        fun mp shape => (sameFile mp shape).trans file
      cases rest with
      | nil =>
        cases slot' with
        | none => exact Below.root file tail (by simp)
        | some mp => exact Below.root (atRoot mp rfl) tail atRoot
      | cons _ _ =>
        cases slot' with
        | none => exact Below.root file tail (by simp)
        | some mp => exact Below.root (atRoot mp rfl) tail (by simp)
    | @down p' _ ch' name' below' isElem' notUp' member' found' =>
      have whole := Below.down (c := c') below' isElem' notUp' member' found'
      have ⟨_, _, more⟩ := exists_cons_of_ne_nil
        (resolve_ne_nil ns below'.ne_nil)
      rw [more] at whole ⊢
      cases slot' with
      | none => exact whole.congr rfl
      | some mp => exact whole.congr (sameFile mp rfl)
  unfold Emu.ascend
  rw [up]
  rcases resolve_cases ns false (c', slot :: rest) with
    ⟨_, resolved⟩ | ⟨m, _, same, _, resolved⟩
  · rw [resolved] at member ⊢
    obtain rfl := mem_singleton.1 member
    refine landed slot ?_
    rintro mp rfl
    cases below with
    | root file _ top => exact (top mp rfl).trans file.symm
  · rw [resolved]
    have back := landed (some m.from) (by rintro mp ⟨⟩; exact same)
    cases rest <;> exact back

/-- A step goes down from a position, or back up to the one before. -/
theorem Below.elem {q : Pos} (below : Below ns root p) (proper : name ≠ str "." ∧ name ≠ [])
    (notRoot : name = str ".." → p.1.file ≠ root.1.file) (step : elem ns false p name = some q) :
    Below ns root q := by
  by_cases isUp : name = str ".."
  · unfold Emu.elem at step
    split_ifs at step
    cases step
    cases below with
    | root file _ _ => exact absurd file (notRoot isUp)
    | down below isElem notUp member found => exact below.ascend isElem notUp member found
  · have ⟨_, member, found, _, stack⟩ := elem_down isUp step
    have ⟨_, _⟩ := q
    simp only at found stack
    rw [stack]
    exact Below.down below ⟨proper.2, proper.1⟩ isUp member found

/-! ### Runs -/

def RefBelow (ns : Mounts D) (root : Pos) (names : List Stack) (r : Ref) : Prop :=
  r.name < names.length ∧ Below ns root (r.chan, pinned r.chan (stackof names r))

theorem RefBelow.grow {names names' : List Stack} {r : Ref} (grows : names <+: names')
    (below : RefBelow ns root names r) : RefBelow ns root names' r := by
  have ⟨inNames, below⟩ := below
  have same : stackof names' r = stackof names r := by
    obtain ⟨_, rfl⟩ := grows
    unfold stackof
    rw [getD_append _ _ _ _ inNames]
  refine ⟨Nat.lt_of_lt_of_le inNames grows.length_le, ?_⟩
  rwa [same]

theorem set_stackof (names : List Stack) (c : Ref) :
    names.set c.name (stackof names c) = names := by
  unfold stackof
  by_cases inNames : c.name < names.length
  · rw [getD_eq_getElem _ _ inNames, set_getElem_self]
  · exact set_eq_of_length_le (Nat.le_of_not_lt inNames)

theorem pinned_of_ne_nil {s : Stack} (nonempty : s ≠ []) (c : Chan) : pinned c s = s :=
  if_neg nonempty

/-- A walk of one element that is not `.` leaves the names there are as they are. -/
theorem safewalk_spec (ns : Mounts D) (names : List Stack) (c : Ref) (noDot : name ≠ str ".") :
    names <+: (safewalk ns names c name).1 ∧
      ∀ c', (safewalk ns names c name).2 = some c' →
        c'.name < (safewalk ns names c name).1.length ∧
        elem ns false (c.chan, pinned c.chan (stackof names c)) name =
          some (c'.chan, stackof (safewalk ns names c name).1 c') := by
  have noDots : ∀ other ∈ [name], other ≠ str "." := by simpa using noDot
  have spec := walk_spec ns false c.chan (stackof names c) noDots
  unfold safewalk
  cases walked : walk ns false c.chan (stackof names c) [name] with
  | error _ =>
    rw [walked] at spec
    simp only
    rw [spec.2, set_stackof]
    exact ⟨prefix_rfl, fun c' none_ => absurd none_ (by simp)⟩
  | ok result =>
    have ⟨chan, cname⟩ := result
    rw [walked] at spec
    have ⟨run, start, own⟩ := spec
    simp only
    rw [start, set_stackof, if_pos (own (cons_ne_nil _ _))]
    refine ⟨prefix_append _ _, ?_⟩
    rintro c' ⟨⟩
    refine ⟨by simp, ?_⟩
    have found : stackof (names ++ [cname.mtpt]) ⟨chan, names.length⟩ = cname.mtpt := by
      simp [stackof]
    rw [found]
    rw [elems_cons] at run
    have ⟨_, step, done⟩ := Option.bind_eq_some_iff.1 run
    cases done
    exact step

theorem exstep_spec {names : List Stack} {c : Ref} (atRoot : fs.root.chan.file = root.1.file)
    (below : RefBelow ns root names c) (noDot : name ≠ str ".")
    (noEmpty : name = [] → exisroot fs c = true) :
    names <+: (exstep ns fs names c name).1 ∧
      ∀ c', (exstep ns fs names c name).2 = some c' →
        RefBelow ns root (exstep ns fs names c name).1 c' := by
  unfold exstep
  by_cases skipped : exisroot fs c = true ∧ (name = [] ∨ name = str "..")
  · rw [if_pos skipped]
    refine ⟨prefix_rfl, ?_⟩
    rintro c' ⟨⟩
    exact below
  rw [if_neg skipped]
  have ⟨grows, walked⟩ := safewalk_spec ns names c noDot
  refine ⟨grows, fun c' found => ?_⟩
  have ⟨inNames, step⟩ := walked c' found
  have notRoot : name = str ".." → c.chan.file ≠ root.1.file := by
    intro isUp same
    apply skipped
    refine ⟨?_, Or.inr isUp⟩
    rw [exisroot, atRoot, same]
    exact beq_self_eq_true _
  have nonempty : name ≠ [] := fun empty => skipped ⟨noEmpty empty, Or.inl empty⟩
  have after := below.2.elem ⟨noDot, nonempty⟩ notRoot step
  refine ⟨inNames, ?_⟩
  rwa [pinned_of_ne_nil after.ne_nil]

theorem exwalk_spec {fs : Export} (atRoot : fs.root.chan.file = root.1.file)
    (wname : List ValidName) : ∀ {names : List Stack} {c : Ref}, RefBelow ns root names c →
      NoNull ns fs names c wname →
        names <+: (exwalk ns fs names c wname).1 ∧
          ∀ c', (exwalk ns fs names c wname).2.2 = some c' →
            RefBelow ns root (exwalk ns fs names c wname).1 c' := by
  induction wname with
  | nil =>
    intro names c below _
    refine ⟨prefix_rfl, ?_⟩
    rintro c' ⟨⟩
    exact below
  | cons name _ ih =>
    intro names c below noNull
    have ⟨noDot, noEmpty, later⟩ := noNull
    have ⟨grows, walked⟩ := exstep_spec atRoot below noDot noEmpty
    unfold exwalk
    cases result : exstep ns fs names c name.1 with
    | mk _ c' =>
      rw [result] at grows walked later
      cases c' with
      | none => exact ⟨grows, fun c' none_ => absurd none_ (by simp)⟩
      | some c' =>
        have ⟨growsLater, walkedLater⟩ := ih (walked c' rfl) later
        exact ⟨grows.trans growsLater, walkedLater⟩

/-- What the walks of an export keep: the root and its own name, and fids below the root. -/
structure Kept (ns : Mounts D) (p : Place) (fs : Export) : Prop where
  chan : fs.root = ⟨p.chan, 0⟩
  stack : stackof fs.names fs.root = p.mtpt
  bound : 0 < fs.names.length
  fids : ∀ entry ∈ fs.fids, RefBelow ns (p.chan, pinned p.chan p.mtpt) fs.names entry.2

variable (ns) in
theorem Place.below_root (p : Place) : Below ns (p.chan, pinned p.chan p.mtpt)
    (p.chan, pinned p.chan p.mtpt) := by
  rcases p.settled_pinned with ⟨ch, shape, file⟩ | ⟨below, ch, shape, _⟩
  · simp only at shape file
    rw [shape]
    refine Below.root rfl rfl ?_
    rintro _ ⟨⟩
    exact file
  · simp only at shape
    rw [shape]
    exact Below.root rfl rfl (by simp)

theorem Kept.refBelow_root {p : Place} {fs : Export} (kept : Kept ns p fs) :
    RefBelow ns (p.chan, pinned p.chan p.mtpt) fs.names fs.root := by
  have below := p.below_root ns
  refine ⟨by rw [kept.chan]; exact kept.bound, ?_⟩
  rw [kept.stack, kept.chan]
  exact below

theorem Exgetfid_mem {fs : Export} {fid : Nat} {c : Ref} (found : Exgetfid fs fid = some c) :
    ∃ entry ∈ fs.fids, entry.2 = c := by
  unfold Exgetfid at found
  have ⟨entry, isEntry, same⟩ := Option.map_eq_some_iff.1 found
  exact ⟨entry, mem_of_find?_eq_some isEntry, same⟩

theorem Kept.names {p : Place} {fs : Export} (kept : Kept ns p fs) {names : List Stack}
    (grows : fs.names <+: names) : Kept ns p { fs with names := names } where
  chan := kept.chan
  stack := by
    rw [← kept.stack]
    obtain ⟨_, rfl⟩ := grows
    have inNames : fs.root.name < fs.names.length := by
      rw [kept.chan]
      exact kept.bound
    exact getD_append _ _ _ _ inNames
  bound := Nat.lt_of_lt_of_le kept.bound grows.length_le
  fids := fun entry member => (kept.fids entry member).grow grows

theorem Kept.add {p : Place} {fs fs' : Export} (kept : Kept ns p fs) {fid : Nat} {r : Ref}
    (below : RefBelow ns (p.chan, pinned p.chan p.mtpt) fs.names r)
    (made : Exmkfid fs fid r = some fs') : Kept ns p fs' := by
  unfold Exmkfid at made
  split at made
  · cases made
  cases made
  refine ⟨kept.chan, kept.stack, kept.bound, ?_⟩
  intro entry member
  rcases mem_cons.1 member with rfl | old
  · exact below
  · exact kept.fids entry old

theorem Kept.serve {p : Place} {fs : Export} (kept : Kept ns p fs) {message : Message}
    (noNull : ∀ fid newfid wname c, message = .Twalk fid newfid wname → Exgetfid fs fid = some c →
      NoNull ns fs fs.names c wname) : Kept ns p (serve ns fs message).1 := by
  cases message with
  | Tattach fid =>
    change Kept ns p (Exattach fs fid).1
    unfold Exattach
    cases made : Exmkfid fs fid fs.root with
    | none => exact kept
    | some _ => exact kept.add kept.refBelow_root made
  | Tclunk fid =>
    change Kept ns p (Exclunk fs fid).1
    unfold Exclunk
    cases Exgetfid fs fid with
    | none => exact kept
    | some _ =>
      refine ⟨kept.chan, kept.stack, kept.bound, ?_⟩
      intro entry member
      exact kept.fids entry (mem_of_mem_filter member)
  | Twalk fid newfid wname =>
    change Kept ns p (Exwalk ns fs fid newfid wname).1
    unfold Exwalk
    cases found : Exgetfid fs fid with
    | none => exact kept
    | some _ =>
      obtain ⟨entry, member, rfl⟩ := Exgetfid_mem found
      have ⟨grows, walked⟩ := exwalk_spec (by rw [kept.chan]) wname
        (kept.fids entry member) (noNull fid newfid wname entry.2 rfl found)
      simp only
      cases result : exwalk ns fs fs.names entry.2 wname with
      | mk names rest =>
        have ⟨_, c'⟩ := rest
        rw [result] at grows walked
        have keptNames := kept.names grows
        cases c' with
        | none => exact keptNames
        | some c' =>
          have below := walked c' rfl
          simp only
          split_ifs with other
          · cases made : Exmkfid { fs with names := names } newfid c' with
            | none => exact keptNames
            | some _ => exact keptNames.add below made
          refine ⟨keptNames.chan, keptNames.stack, keptNames.bound, ?_⟩
          intro _ member'
          obtain ⟨old, isOld, rfl⟩ := mem_map.1 member'
          split_ifs
          · exact below
          · exact keptNames.fids old isOld

/-- Walks without null elements stay below the export root, in every run of messages. -/
theorem run_confined (ns : Mounts D) (p : Place) (messages : List Message)
    (noNull : RunNoNull ns (export_ p) messages) : Confined ns (run ns (export_ p) messages) := by
  have general : ∀ messages fs, Kept ns p fs → RunNoNull ns fs messages →
      Kept ns p (run ns fs messages) := by
    intro messages
    induction messages with
    | nil => exact fun fs kept _ => kept
    | cons _ _ ih =>
      intro _ kept noNull
      exact ih _ (kept.serve noNull.1) noNull.2
  have kept := general messages (export_ p)
    ⟨rfl, rfl, Nat.one_pos, fun entry member => absurd member List.not_mem_nil⟩ noNull
  intro entry member
  rw [kept.chan]
  exact (kept.fids entry member).2.reach

end Confined

/-! ### A mount inside an export -/

def name (s : Str) (valid : validname s false = true) : ValidName := ⟨s, valid⟩

def attachAndWalk (wname : List ValidName) : List Message := [.Tattach 0, .Twalk 0 1 wname]

theorem run_confined_mounted : Confined sampleMounts (run sampleMounts (export_ samplePlace)
    (attachAndWalk [name (str "a") (by decide), name (str "b") (by decide),
      name (str "..") (by decide), name (str "..") (by decide)])) := by
  refine run_confined sampleMounts samplePlace _ ⟨?_, ?_, trivial⟩
  · rintro fid newfid wname c ⟨⟩
  · rintro fid newfid wname c ⟨⟩ _
    exact noNull_of_forall sampleMounts _ (by decide)

/-- Null elements put empty slots on the stack, and `..` then leaves what is mounted
inside the export for the directory above it. -/
theorem run_escapes : ¬Confined sampleMounts (run sampleMounts (export_ samplePlace)
    (attachAndWalk [name (str "a") (by decide), name (str ".") (by decide),
      name (str ".") (by decide), name (str "..") (by decide)])) := by
  have closed : ∀ f, Reach sampleMounts ⟨0, 0, 0⟩ f →
      f ∈ [⟨0, 0, 0⟩, ⟨0, 0, 1⟩, ⟨0, 0, 2⟩, ⟨0, 1, 1⟩, (⟨0, 1, 2⟩ : File)] := by
    intro _ reach
    induction reach with
    | root => decide
    | child _ found ih =>
      simp only [sampleDevices] at found
      simp only [List.mem_cons, List.not_mem_nil, or_false] at ih
      rcases ih with rfl | rfl | rfl | rfl | rfl <;>
        split_ifs at found <;> cases found <;> decide
    | cross _ found member _ =>
      obtain rfl := List.mem_singleton.1 (findmount_some found).2
      obtain rfl := List.mem_singleton.1 member
      decide
  intro confined
  have bad := closed ⟨0, 1, 0⟩ (confined (1, ⟨⟨⟨0, 1, 0⟩, 0⟩, 3⟩) (by decide +kernel))
  revert bad
  decide

end Infernode.Emu
