import Mathlib.Data.List.Nodup
import Mathlib.Tactic.IntervalCases
import Infernode.Veltro.Taskboard

/-!
The tree that the dashboard serves.

Owns: how the numbers and the qids of the entries lie, whose file a path is, and that a directory
lists what a walk reaches there.
-/

namespace Infernode.Dashboard

open Text Styx Lib9 List

/-! ### The entries -/

/-- What a step leaves of an entry: its number, its qid, and whether it shows. -/
abbrev Key := Int × Int × Bool

def key (te : TaskEntry) : Key := (te.id, te.qbase, te.hidden)

variable {here : TaskEntry → Bool} {change : TaskEntry → TaskEntry} {nextqid : Int} {base k : Nat}
    {name : Str}

theorem map_update {α : Type} {f : TaskEntry → α} (same : ∀ te, f (change te) = f te)
    (tasks : List TaskEntry) : (update here change tasks).map f = tasks.map f := by
  induction tasks with
  | nil => rfl
  | cons te rest ih =>
    unfold update
    cases here te with
    | true => exact congrArg (· :: rest.map f) (same te)
    | false => exact congrArg (f te :: ·) ih

variable {te : TaskEntry} {id : Int} {tasks : List TaskEntry} {b : Board} {p : Nat} {f : Dir}

theorem mem_update (tasks : List TaskEntry)
    (apart : ∀ t ∈ tasks, here t = true → te ≠ t ∧ te ≠ change t) :
    te ∈ update here change tasks ↔ te ∈ tasks := by
  induction tasks with
  | nil => exact Iff.rfl
  | cons t _ ih =>
    unfold update
    cases at_ : here t with
    | true =>
      have ⟨right, left⟩ := apart t mem_cons_self at_
      rw [if_pos rfl, mem_cons, mem_cons]
      exact ⟨fun member => Or.inr (member.resolve_left left),
        fun member => Or.inr (member.resolve_left right)⟩
    | false =>
      rw [if_neg Bool.false_ne_true, mem_cons, mem_cons,
        ih fun u member => apart u (mem_cons_of_mem t member)]

theorem key_synctask (f : Files) (te : TaskEntry) : key (synctask f te) = key te := by
  unfold synctask
  dsimp only
  split_ifs <;> rfl

theorem key_syncnew (f : Files) (te : TaskEntry) : key (syncnew f te) = key te := by
  unfold syncnew
  dsimp only
  split_ifs
  · exact key_synctask f te
  · exact key_synctask f te

/-- The numbers of the entries and their qids, each its own. -/
structure Laid (keys : List Key) (nextqid : Int) : Prop where
  ids : (keys.map fun k => k.1).Nodup
  bases : (keys.map fun k => k.2.1).Nodup
  positive : ∀ k ∈ keys, 0 < k.1 ∧ k.1 < 2147483648
  placed : ∀ k ∈ keys, ∃ n : Nat, k.2.1 = 100 + 9 * n ∧ k.2.1 + 9 ≤ nextqid
  next : ∃ n : Nat, nextqid = 100 + 9 * n ∧ nextqid ≤ 65536

def Board.Laid (b : Board) : Prop := Dashboard.Laid (b.tasks.map key) b.nextqid

variable {keys : List Key}

theorem laid_add (laid : Laid keys nextqid) (fresh : id ∉ keys.map fun k => k.1)
    (inRange : 0 < id ∧ id < 2147483648) (room : nextqid + 9 ≤ 65536) :
    Laid ((id, nextqid, false) :: keys) (nextqid + 9) := by
  obtain ⟨n, at_, -⟩ := laid.next
  refine ⟨nodup_cons.2 ⟨fresh, laid.ids⟩, nodup_cons.2 ⟨?_, laid.bases⟩, ?_, ?_,
    n + 1, ?_, room⟩
  · intro member
    have ⟨k, member, same⟩ := mem_map.1 member
    obtain ⟨m, -, below⟩ := laid.placed k member
    have same' : k.2.1 = nextqid := same
    omega
  · intro k member
    rcases mem_cons.1 member with rfl | older
    · exact inRange
    · exact laid.positive k older
  · intro k member
    rcases mem_cons.1 member with rfl | older
    · exact ⟨n, at_, le_rfl⟩
    · have ⟨m, base, _⟩ := laid.placed k older
      exact ⟨m, base, by omega⟩
  · rw [at_]
    push_cast
    ring

theorem Laid.mono {keys' : List Key} (laid : Laid keys nextqid)
    (same : (keys'.map fun k => (k.1, k.2.1)) = keys.map fun k => (k.1, k.2.1)) :
    Laid keys' nextqid := by
  have back : ∀ k ∈ keys', ∃ k' ∈ keys, k'.1 = k.1 ∧ k'.2.1 = k.2.1 := by
    intro k member
    have both := mem_map_of_mem (f := fun k : Key => (k.1, k.2.1)) member
    rw [same] at both
    have ⟨k', member', equal⟩ := mem_map.1 both
    have equal' := Prod.mk.inj (show (k'.1, k'.2.1) = (k.1, k.2.1) from equal)
    exact ⟨k', member', equal'.1, equal'.2⟩
  refine ⟨?_, ?_, ?_, ?_, laid.next⟩
  · have first := congrArg (List.map Prod.fst) same
    rw [map_map, map_map] at first
    have ids := laid.ids
    exact (Eq.mpr (congrArg List.Nodup first) ids :)
  · have second := congrArg (List.map Prod.snd) same
    rw [map_map, map_map] at second
    have bases := laid.bases
    exact (Eq.mpr (congrArg List.Nodup second) bases :)
  · intro k member
    obtain ⟨k', member', id, -⟩ := back k member
    rw [← id]
    exact laid.positive k' member'
  intro k member
  obtain ⟨k', member', -, base⟩ := back k member
  rw [← base]
  exact laid.placed k' member'

/-! ### Finding -/

theorem inRange_toint (s : Str) : (Strings.toint s).1 < 2147483648 := by
  have word : ∀ n : Int, wrap n < 2147483648 := by
    intro n
    have upper := (inWord_wrap n).2
    omega
  unfold Strings.toint
  dsimp only
  by_cases nothing : (takeSign (s.dropWhile fun c => c == 32 || c == 9 || c == 10)).2.takeWhile
      isDigit = []
  · rw [if_pos nothing]
    show (0 : Int) < 2147483648
    omega
  · rw [if_neg nothing]
    exact word _

theorem mem_findtask (found : findtask tasks id = some te) : te ∈ tasks ∧ te.id = id := by
  have here := find?_some (p := fun te : TaskEntry => te.id == id) found
  exact ⟨mem_of_find?_eq_some found, eq_of_beq here⟩

theorem mem_findbase (found : findtaskbyqbase tasks base = some te) :
    te ∈ tasks ∧ te.qbase = base := by
  have here := find?_some (p := fun te : TaskEntry => te.qbase == (base : Int)) found
  exact ⟨mem_of_find?_eq_some found, eq_of_beq here⟩

theorem findtask_some (laid : b.Laid) (member : te ∈ b.tasks) :
    findtask b.tasks te.id = some te := by
  have nodup : (b.tasks.map fun te => te.id).Nodup := by
    have ids := laid.ids
    rw [map_map] at ids
    exact ids
  cases found : findtask b.tasks te.id with
  | none =>
    have none_ := find?_eq_none.1 found te member
    exact absurd (beq_self_eq_true te.id) none_
  | some _ =>
    have ⟨there, same⟩ := mem_findtask found
    rw [inj_on_of_nodup_map nodup there member same]

theorem findtask_none (none_ : findtask b.tasks id = none) :
    id ∉ (b.tasks.map key).map fun k => k.1 := by
  rw [map_map]
  intro member
  have ⟨te, member, same⟩ := mem_map.1 member
  refine find?_eq_none.1 none_ te member ?_
  exact beq_iff_eq.2 same

theorem findbase_some (laid : b.Laid) (member : te ∈ b.tasks) (at_ : te.qbase = base) :
    findtaskbyqbase b.tasks base = some te := by
  have nodup : (b.tasks.map fun te => te.qbase).Nodup := by
    have bases := laid.bases
    rw [map_map] at bases
    exact bases
  cases found : findtaskbyqbase b.tasks base with
  | none =>
    have none_ := find?_eq_none.1 found te member
    exact absurd (beq_iff_eq.2 at_) none_
  | some _ =>
    have ⟨there, same⟩ := mem_findbase found
    rw [inj_on_of_nodup_map nodup there member (same.trans at_.symm)]

def baseof (qtype : Nat) : Nat := Qtaskbase + (qtype - Qtaskbase) / TASK_STRIDE * TASK_STRIDE

def suboffof (qtype : Nat) : Nat := (qtype - Qtaskbase) % TASK_STRIDE

/-- The number of the task that a file with this path is of. -/
def owner (b : Board) (p : Nat) : Option Int := (taskfromqid b.tasks (TYPE p)).map (·.1.id)

theorem taskfromqid_eq {qtype : Nat} (high : Qtaskbase ≤ qtype) :
    taskfromqid tasks qtype =
      (findtaskbyqbase tasks (baseof qtype)).map fun te => (te, suboffof qtype) :=
  if_neg (Nat.not_lt.2 high)

theorem owner_iff (laid : b.Laid) :
    owner b p = some id ↔
      Qtaskbase ≤ TYPE p ∧ ∃ te ∈ b.tasks, te.id = id ∧ te.qbase = baseof (TYPE p) := by
  unfold owner
  by_cases high : Qtaskbase ≤ TYPE p
  · rw [taskfromqid_eq high, Option.map_map]
    constructor
    · intro found
      have ⟨te, found, same⟩ := Option.map_eq_some_iff.1 found
      have ⟨member, base⟩ := mem_findbase found
      exact ⟨high, te, member, same, base⟩
    · rintro ⟨-, te, member, same, base⟩
      rw [findbase_some laid member base]
      exact congrArg some same
  · have none_ : taskfromqid b.tasks (TYPE p) = none := if_pos (Nat.not_le.1 high)
    rw [none_]
    exact ⟨nofun, fun both => absurd both.1 high⟩

/-- A path of the entry's qids, and what it is taken apart into. -/
theorem path_parts (laid : b.Laid) (member : te ∈ b.tasks) (small : k < 9) :
    TYPE (big te.qbase + k) = big te.qbase + k ∧ Qtaskbase ≤ big te.qbase + k ∧
      baseof (big te.qbase + k) = big te.qbase ∧ suboffof (big te.qbase + k) = k ∧
      te.qbase = big te.qbase := by
  have ⟨n, at_, below⟩ := laid.placed (key te) (mem_map_of_mem member)
  obtain ⟨_, -, _⟩ := laid.next
  have at_' : te.qbase = 100 + 9 * n := at_
  have below' : te.qbase + 9 ≤ b.nextqid := below
  have small' : 100 + 9 * n + 9 ≤ 65536 := by omega
  have path : big te.qbase = 100 + 9 * n := by
    unfold big
    rw [at_', Int.emod_eq_of_lt (by omega) (by omega)]
    omega
  rw [path]
  refine ⟨Nat.mod_eq_of_lt (by omega), ?_, ?_, ?_, ?_⟩
  · show 100 ≤ _
    omega
  · show 100 + (100 + 9 * n + k - 100) / 9 * 9 = _
    omega
  · show (100 + 9 * n + k - 100) % 9 = _
    omega
  · rw [at_']
    push_cast
    rfl

/-! ### The tree -/

theorem dirgen_high (high : Qtaskbase ≤ TYPE p) : dirgen b p =
    match findtaskbyqbase b.tasks (baseof (TYPE p)) with
    | none => (none, Enotfound)
    | some te =>
      if suboffof (TYPE p) = Qt_dir then
        (some (dir b.user ⟨p, b.vers, QTDIR⟩ (decimal te.id) 0 0o755), [])
      else if suboffof (TYPE p) = Qt_label ∨ suboffof (TYPE p) = Qt_status ∨
          suboffof (TYPE p) = Qt_urgency then
        (some (dir b.user ⟨p, b.vers, QTFILE⟩ (SUBFILE_NAMES.getD (suboffof (TYPE p)) []) 0 0o444),
          [])
      else
        (some (dir b.user ⟨p, b.vers, QTFILE⟩ (SUBFILE_NAMES.getD (suboffof (TYPE p)) []) 0 0o644),
          []) := by
  have high' : 100 ≤ TYPE p := high
  unfold dirgen
  dsimp only
  rw [if_neg (by unfold Qroot; omega), if_neg (by unfold Qctl; omega),
    if_neg (by unfold Qevent; omega), if_neg (by unfold Qsummary; omega),
    if_neg (by unfold Qtaskdir; omega), if_pos high]
  rfl

theorem dirgen_path (there : (dirgen b p).1 = some f) : f.qid.path = p := by
  by_cases high : Qtaskbase ≤ TYPE p
  · rw [dirgen_high high] at there
    cases found : findtaskbyqbase b.tasks (baseof (TYPE p)) with
    | none =>
      rw [found] at there
      cases there
    | some _ =>
      rw [found] at there
      dsimp only at there
      split_ifs at there
      · cases there
        rfl
      · cases there
        rfl
      · cases there
        rfl
  · unfold dirgen at there
    dsimp only at there
    rw [if_neg high] at there
    split_ifs at there
    · cases there
      rfl
    · cases there
      rfl
    · cases there
      rfl
    · cases there
      rfl
    · cases there
      rfl

def Directory (b : Board) (p : Nat) : Prop :=
  ∃ f, (dirgen b p).1 = some f ∧ f.qid.qtype = QTDIR

theorem directory_cases (laid : b.Laid) (directory : Directory b p) :
    TYPE p = Qroot ∨ TYPE p = Qtaskdir ∨ ∃ te ∈ b.tasks, TYPE p = big te.qbase := by
  have ⟨_, there, isDir⟩ := directory
  by_cases high : Qtaskbase ≤ TYPE p
  · rw [dirgen_high high] at there
    cases found : findtaskbyqbase b.tasks (baseof (TYPE p)) with
    | none =>
      rw [found] at there
      cases there
    | some te =>
      rw [found] at there
      dsimp only at there
      split_ifs at there with atdir readonly
      · have ⟨member, base⟩ := mem_findbase found
        refine Or.inr (Or.inr ⟨te, member, ?_⟩)
        obtain ⟨-, -, -, -, _⟩ := path_parts laid member (k := 0) (by omega)
        have base' : te.qbase = ((100 + (TYPE p - 100) / 9 * 9 : Nat) : Int) := base
        have atdir' : (TYPE p - 100) % 9 = 0 := atdir
        have high' : 100 ≤ TYPE p := high
        omega
      · cases there
        cases isDir
      · cases there
        cases isDir
  · unfold dirgen at there
    dsimp only at there
    rw [if_neg high] at there
    split_ifs at there with root ctl event summary tasks
    · exact Or.inl root
    · cases there
      cases isDir
    · cases there
      cases isDir
    · cases there
      cases isDir
    · exact Or.inr (Or.inl tasks)

theorem dirgen_task (laid : b.Laid) (member : te ∈ b.tasks) (small : k < 9) :
    ∃ f, (dirgen b (big te.qbase + k)).1 = some f ∧
      (k = 0 → f.name = decimal te.id) := by
  have ⟨type, high, base, suboff, same⟩ := path_parts laid member small
  have found := findbase_some laid member same
  rw [dirgen_high (by rw [type]; exact high), type, base, suboff, found]
  dsimp only
  split_ifs with first readonly
  · exact ⟨_, rfl, fun _ => rfl⟩
  · exact ⟨_, rfl, fun zero => absurd zero first⟩
  · exact ⟨_, rfl, fun zero => absurd zero first⟩

theorem entries_root (root : TYPE p = Qroot) :
    entries b p = [Qctl, Qevent, Qsummary, Qtaskdir] := if_pos root

theorem entries_taskdir (tasks : TYPE p = Qtaskdir) :
    entries b p = (b.tasks.filter fun te => !te.hidden).map fun te => big te.qbase := by
  unfold entries
  rw [tasks]
  rfl

theorem entries_task (laid : b.Laid) (member : te ∈ b.tasks) (here : TYPE p = big te.qbase) :
    entries b p = (List.range' 1 8).map (big te.qbase + ·) := by
  obtain ⟨-, high, base, suboff, -⟩ := path_parts laid member (k := 0) (by omega)
  have high' : 100 ≤ big te.qbase := high
  unfold entries
  dsimp only
  rw [here, if_neg (by unfold Qroot; omega), if_neg (by unfold Qtaskdir; omega),
    if_pos (show Qtaskbase ≤ big te.qbase from high),
    if_pos (show (big te.qbase - Qtaskbase) % TASK_STRIDE = Qt_dir from suboff)]
  show (List.range' 1 8).map (baseof (big te.qbase + 0) + ·) = _
  rw [base]

theorem entries_some (laid : b.Laid) (directory : Directory b p) :
    ∀ q ∈ entries b p, ((dirgen b q).1).isSome = true := by
  intro _ member
  rcases directory_cases laid directory with root | tasks | ⟨te, inTasks, here⟩
  · rw [entries_root root] at member
    simp only [mem_cons, not_mem_nil, or_false] at member
    rcases member with rfl | rfl | rfl | rfl
    · rfl
    · rfl
    · rfl
    · rfl
  · rw [entries_taskdir tasks] at member
    obtain ⟨_, shows, rfl⟩ := mem_map.1 member
    obtain ⟨f, there, -⟩ := dirgen_task laid (mem_filter.1 shows).1 (k := 0) (by omega)
    exact Option.isSome_of_eq_some there
  · rw [entries_task laid inTasks here] at member
    obtain ⟨k, range, rfl⟩ := mem_map.1 member
    have bounds := mem_range'_1.1 range
    obtain ⟨_, there, -⟩ := dirgen_task laid inTasks (k := k) (by omega)
    exact Option.isSome_of_eq_some there

theorem readdir_eq (laid : b.Laid) (directory : Directory b p) (offset count : Nat) :
    readdir b p offset count =
      (((entries b p).drop offset).take count).filterMap fun q => (dirgen b q).1 := by
  unfold readdir
  rw [takeWhile_eq_self_iff.2, filterMap_map]
  · rfl
  · intro _ member
    obtain ⟨q, taken, rfl⟩ := mem_map.1 member
    exact entries_some laid directory q (mem_of_mem_drop (mem_of_mem_take taken))

theorem mem_readdir (laid : b.Laid) (directory : Directory b p) :
    f ∈ readdir b p 0 (entries b p).length ↔ ∃ q ∈ entries b p, (dirgen b q).1 = some f := by
  rw [readdir_eq laid directory, drop_zero, take_length]
  exact mem_filterMap

theorem decimal_ne_dots (n : Int) : decimal n ≠ str ".." := by
  intro same
  have member : 46 ∈ decimal n := by
    rw [same]
    decide
  rcases mem_decimal member with digit | minus
  · exact absurd digit (by decide)
  · exact absurd minus (by decide)

theorem toint_id (laid : b.Laid) (member : te ∈ b.tasks) :
    (Strings.toint (decimal te.id)).1 = te.id := by
  have ⟨positive, small⟩ := laid.positive (key te) (mem_map_of_mem member)
  have positive' : 0 < te.id := positive
  have small' : te.id < 2147483648 := small
  refine Strings.toint_decimal (by omega) ?_
  unfold InWord
  omega

theorem walk_root (root : TYPE p = Qroot) :
    (∃ name, name ≠ str ".." ∧ (walk b p name).1 = some f) ↔
      ∃ q ∈ entries b p, (dirgen b q).1 = some f := by
  rw [entries_root root]
  constructor
  · rintro ⟨name, noDots, there⟩
    unfold walk at there
    dsimp only at there
    rw [if_pos root, if_neg noDots] at there
    split_ifs at there
    · exact ⟨Qctl, by decide, there⟩
    · exact ⟨Qevent, by decide, there⟩
    · exact ⟨Qsummary, by decide, there⟩
    · exact ⟨Qtaskdir, by decide, there⟩
  · rintro ⟨q, member, there⟩
    simp only [mem_cons, not_mem_nil, or_false] at member
    have walked : ∀ name, walk b p name = if name = str ".." then dirgen b p
        else if name = str "ctl" then dirgen b Qctl
        else if name = str "event" then dirgen b Qevent
        else if name = str "summary" then dirgen b Qsummary
        else if name = str "tasks" then dirgen b Qtaskdir
        else (none, Enotfound) := fun name => if_pos root
    rcases member with rfl | rfl | rfl | rfl
    · exact ⟨str "ctl", by decide, (congrArg Prod.fst (walked _)).trans there⟩
    · exact ⟨str "event", by decide, (congrArg Prod.fst (walked _)).trans there⟩
    · exact ⟨str "summary", by decide, (congrArg Prod.fst (walked _)).trans there⟩
    · exact ⟨str "tasks", by decide, (congrArg Prod.fst (walked _)).trans there⟩

theorem walk_taskdir_eq (tasks : TYPE p = Qtaskdir) (noDots : name ≠ str "..") :
    walk b p name =
      match findtask b.tasks (Strings.toint name).1 with
      | none => (none, Enotfound)
      | some te => if te.hidden then (none, Enotfound) else dirgen b (big te.qbase) := by
  unfold walk
  rw [tasks]
  dsimp only
  simp only [if_neg (show ¬Qtaskdir = Qroot by decide), if_pos, if_neg noDots]
  all_goals rfl

theorem walk_taskdir (laid : b.Laid) (tasks : TYPE p = Qtaskdir) :
    (∃ name, name ≠ str ".." ∧ (walk b p name).1 = some f) ↔
      ∃ q ∈ entries b p, (dirgen b q).1 = some f := by
  rw [entries_taskdir tasks]
  constructor
  · rintro ⟨name, noDots, there⟩
    rw [walk_taskdir_eq tasks noDots] at there
    cases found : findtask b.tasks (Strings.toint name).1 with
    | none =>
      rw [found] at there
      cases there
    | some te =>
      rw [found] at there
      cases hidden : te.hidden with
      | true =>
        dsimp only at there
        rw [if_pos hidden] at there
        cases there
      | false =>
        dsimp only at there
        rw [if_neg (by rw [hidden]; exact Bool.false_ne_true)] at there
        refine ⟨big te.qbase, mem_map_of_mem ?_, there⟩
        refine mem_filter.2 ⟨(mem_findtask found).1, ?_⟩
        rw [hidden]
        rfl
  · rintro ⟨q, member, there⟩
    obtain ⟨te, showing, rfl⟩ := mem_map.1 member
    have ⟨inTasks, shows⟩ := mem_filter.1 showing
    refine ⟨decimal te.id, decimal_ne_dots _, ?_⟩
    rw [walk_taskdir_eq tasks (decimal_ne_dots _), toint_id laid inTasks,
      findtask_some laid inTasks]
    dsimp only
    rw [if_neg]
    · exact there
    · intro hidden
      rw [hidden] at shows
      cases shows

theorem walk_task_eq (laid : b.Laid) (member : te ∈ b.tasks) (here : TYPE p = big te.qbase)
    (noDots : name ≠ str "..") : walk b p name =
      if name = str "label" then dirgen b (big te.qbase + 1)
      else if name = str "status" then dirgen b (big te.qbase + 2)
      else if name = str "urgency" then dirgen b (big te.qbase + 3)
      else if name = str "synopsis" then dirgen b (big te.qbase + 4)
      else if name = str "category" then dirgen b (big te.qbase + 5)
      else if name = str "instructions" then dirgen b (big te.qbase + 6)
      else if name = str "progress" then dirgen b (big te.qbase + 7)
      else if name = str "order" then dirgen b (big te.qbase + 8)
      else (none, Enotfound) := by
  obtain ⟨-, high, base, suboff, -⟩ := path_parts laid member (k := 0) (by omega)
  have high' : 100 ≤ big te.qbase := high
  unfold walk
  dsimp only
  rw [here, if_neg (by unfold Qroot; omega), if_neg (by unfold Qtaskdir; omega),
    if_pos (show Qtaskbase ≤ big te.qbase from high), if_neg (fun other => other suboff),
    if_neg noDots]
  rw [show Qtaskbase + (big te.qbase - Qtaskbase) / TASK_STRIDE * TASK_STRIDE = big te.qbase from
    base]
  rfl

theorem walk_task (laid : b.Laid) (member : te ∈ b.tasks) (here : TYPE p = big te.qbase) :
    (∃ name, name ≠ str ".." ∧ (walk b p name).1 = some f) ↔
      ∃ q ∈ entries b p, (dirgen b q).1 = some f := by
  rw [entries_task laid member here]
  constructor
  · rintro ⟨name, noDots, there⟩
    have file : ∀ k, 1 ≤ k → k < 9 → (dirgen b (big te.qbase + k)).1 = some f →
        ∃ q ∈ (List.range' 1 8).map (big te.qbase + ·), (dirgen b q).1 = some f :=
      fun k low small there =>
        ⟨_, mem_map_of_mem (mem_range'_1.2 ⟨low, small⟩), there⟩
    rw [walk_task_eq laid member here noDots] at there
    split_ifs at there
    · exact file 1 (by omega) (by omega) there
    · exact file 2 (by omega) (by omega) there
    · exact file 3 (by omega) (by omega) there
    · exact file 4 (by omega) (by omega) there
    · exact file 5 (by omega) (by omega) there
    · exact file 6 (by omega) (by omega) there
    · exact file 7 (by omega) (by omega) there
    · exact file 8 (by omega) (by omega) there
  · rintro ⟨q, inRange, there⟩
    obtain ⟨k, numbers, rfl⟩ := mem_map.1 inRange
    have ⟨_, _⟩ := mem_range'_1.1 numbers
    have walked (name : Str) (noDots : name ≠ str "..") :=
      congrArg Prod.fst (walk_task_eq laid member here noDots)
    interval_cases k
    · exact ⟨str "label", by decide, (walked _ (by decide)).trans there⟩
    · exact ⟨str "status", by decide, (walked _ (by decide)).trans there⟩
    · exact ⟨str "urgency", by decide, (walked _ (by decide)).trans there⟩
    · exact ⟨str "synopsis", by decide, (walked _ (by decide)).trans there⟩
    · exact ⟨str "category", by decide, (walked _ (by decide)).trans there⟩
    · exact ⟨str "instructions", by decide, (walked _ (by decide)).trans there⟩
    · exact ⟨str "progress", by decide, (walked _ (by decide)).trans there⟩
    · exact ⟨str "order", by decide, (walked _ (by decide)).trans there⟩

theorem mem_readdir_iff (laid : b.Laid) (directory : Directory b p) :
    f ∈ readdir b p 0 (entries b p).length ↔
      ∃ name, name ≠ str ".." ∧ (walk b p name).1 = some f := by
  rw [mem_readdir laid directory]
  rcases directory_cases laid directory with root | tasks | ⟨te, member, here⟩
  · exact (walk_root root).symm
  · exact (walk_taskdir laid tasks).symm
  · exact (walk_task laid member here).symm

end Infernode.Dashboard
