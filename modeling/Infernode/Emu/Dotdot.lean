import Infernode.Emu.Walk

/-!
`..` is lexical: it takes back the last element, mount points included.

Owns: the channels that walks leave (`Place`), and the theorem that an element and
`..` after it lead back, and that a path of depth 0 leads to the origin.
-/

namespace Infernode.Emu

open Text List

def IsElem (name : Str) : Prop := name ≠ [] ∧ name ≠ str "."

instance (name : Str) : Decidable (IsElem name) := inferInstanceAs (Decidable (_ ∧ _))

/-- The stack of a channel that a walk leaves: slot 0 holds the origin; at the origin
the channel is the file of slot 0, and beyond it the last slot is empty. -/
def Settled (p : Pos) : Prop :=
  (∃ ch, p.2 = [some ch] ∧ ch.file = p.1.file) ∨
    ∃ below ch, p.2 = none :: below ∧ below.getLast? = some (some ch)

/-- A channel as it was made or as a walk has left it, in any mount table. -/
structure Place where
  chan : Chan
  mtpt : Stack
  settled : mtpt = [] ∨ Settled (chan, mtpt)

/-- The files of the mount points that a stack records. -/
def crossed (s : Stack) : List (Option File) := s.map (Option.map Chan.file)

def base (s : Stack) : Option File := s.getLast?.bind (Option.map Chan.file)

/-- Where the walks of a place began: what slot 0 pins, or the place itself. -/
def Place.origin (p : Place) : File := (base p.mtpt).getD p.chan.file

def Place.depth (p : Place) : Nat := p.mtpt.length - 1

def depthAfter (depth : Nat) (names : List Str) : Nat :=
  names.foldl (fun depth name => if name = str ".." then depth - 1 else depth + 1) depth

theorem Place.settled_pinned (p : Place) : Settled (p.chan, pinned p.chan p.mtpt) := by
  unfold pinned
  rcases p.settled with fresh | settled
  · rw [if_pos fresh]
    exact Or.inl ⟨p.chan, rfl, rfl⟩
  · split_ifs
    · exact Or.inl ⟨p.chan, rfl, rfl⟩
    · exact settled

theorem ne_nil_of_getLast? {s : Stack} {ch : Option Chan} (isLast : s.getLast? = some ch) :
    s ≠ [] := by
  rintro rfl
  cases isLast

theorem File.at_at (f : File) (left right : Nat) : (f.at left).at right = f.at right := rfl

variable {names : List Str} {D : Devices} {nomount : Bool}

section Steps

variable {D : Devices} {ns : Mounts D} {nomount : Bool}

variable {name : Str} {p q : Pos}

theorem parent_of_step {f g : File} (isElem : IsElem name) (down : name ≠ str "..")
    (found : D.step f name = some g) : g.at (D.parent g) = f := by
  unfold Devices.step at found
  split_ifs at found with _ isDot
  · exact absurd isDot isElem.2
  · obtain ⟨_, child, rfl⟩ := Option.map_eq_some_iff.1 found
    rw [File.at_at]
    exact D.parent_child isElem.1 child

/-- What a step down does: it looks the name up in the channel or in what is mounted
there, and records the crossing. -/
theorem elem_down (down : name ≠ str "..") (step : elem ns nomount p name = some q) :
    ∃ c ∈ (resolve ns nomount p).1, D.step c.file name = some q.1.file ∧
      q.1.mflag = c.mflag ∧ q.2 = none :: (resolve ns nomount p).2 := by
  unfold elem at step
  split_ifs at step
  have ⟨c, member, entered⟩ := exists_of_findSome?_eq_some step
  obtain ⟨_, found, rfl⟩ := Option.map_eq_some_iff.1 entered
  exact ⟨c, member, found, rfl, rfl⟩

variable (ns nomount) in
theorem resolve_cases (p : Pos) :
    (crossing ns nomount p.1.file = none ∧ resolve ns nomount p = ([p.1], p.2)) ∨
      ∃ m, crossing ns nomount p.1.file = some m ∧ m.from.file = p.1.file ∧ m ∈ ns.heads ∧
        resolve ns nomount p =
          (m.mounts.map fun f => ⟨f.to.file, f.mflag⟩, setTop p.2 m.from) := by
  cases cross : crossing ns nomount p.1.file with
  | none => exact Or.inl ⟨rfl, by rw [resolve, cross]⟩
  | some m =>
    have found : findmount ns p.1.file = some m := by
      unfold crossing at cross
      split_ifs at cross
      exact cross
    have ⟨same, member⟩ := findmount_some found
    exact Or.inr ⟨m, rfl, same, member, by rw [resolve, cross]⟩

theorem ascend_elem (settled : Settled p) (isElem : IsElem name) (down : name ≠ str "..")
    (step : elem ns nomount p name = some q) :
    (ascend D q).1.file = p.1.file ∧ crossed (ascend D q).2 = crossed p.2 := by
  have ⟨_, member, found, _, stack⟩ := elem_down down step
  have up := parent_of_step isElem down found
  have ⟨c', s⟩ := p
  rcases resolve_cases ns nomount (c', s) with
    ⟨_, resolved⟩ | ⟨m, _, same, _, resolved⟩
  · rw [resolved] at member stack
    obtain rfl := mem_singleton.1 member
    unfold ascend
    rw [up, stack]
    rcases settled with ⟨ch, rfl, file⟩ | ⟨below, ch, rfl, isLast⟩
    · exact ⟨file, rfl⟩
    · obtain ⟨slot, others, rfl⟩ := exists_cons_of_ne_nil (ne_nil_of_getLast? isLast)
      exact ⟨rfl, rfl⟩
  · rw [resolved] at stack
    unfold ascend
    rw [up, stack]
    rcases settled with ⟨ch, rfl, file⟩ | ⟨below, ch, rfl, isLast⟩
    · exact ⟨same, by simp [setTop, dropTop, undo, crossed, same, file]⟩
    · obtain ⟨_, _, rfl⟩ := exists_cons_of_ne_nil (ne_nil_of_getLast? isLast)
      exact ⟨same, rfl⟩

theorem elem_settled (settled : Settled p) (step : elem ns nomount p name = some q) :
    Settled q ∧ base q.2 = base p.2 ∧ q.2.length - 1 = depthAfter (p.2.length - 1) [name] := by
  have ⟨c, s⟩ := p
  by_cases isUp : name = str ".."
  · unfold elem at step
    split_ifs at step
    cases step
    unfold ascend depthAfter
    simp only [foldl_cons, foldl_nil, if_pos isUp]
    rcases settled with ⟨ch, rfl, file⟩ | ⟨below, ch, rfl, isLast⟩
    · exact ⟨Or.inl ⟨ch, rfl, rfl⟩, rfl, rfl⟩
    obtain ⟨slot, others, rfl⟩ := exists_cons_of_ne_nil (ne_nil_of_getLast? isLast)
    cases others with
    | nil =>
      cases isLast
      exact ⟨Or.inl ⟨ch, rfl, rfl⟩, rfl, rfl⟩
    | cons next others =>
      have isLast' : (next :: others).getLast? = some (some ch) := by simpa using isLast
      cases slot with
      | none => exact ⟨Or.inr ⟨_, ch, rfl, isLast'⟩, by simp [undo, dropTop, base], rfl⟩
      | some _ => exact ⟨Or.inr ⟨_, ch, rfl, isLast'⟩, by simp [undo, dropTop, base], rfl⟩
  · have ⟨_, _, _, _, stack⟩ := elem_down isUp step
    unfold depthAfter
    simp only [foldl_cons, foldl_nil, if_neg isUp]
    rcases resolve_cases ns nomount (c, s) with
      ⟨_, resolved⟩ | ⟨m, _, same, _, resolved⟩
    · rw [resolved] at stack
      rw [stack]
      rcases settled with ⟨ch, rfl, file⟩ | ⟨below, ch, rfl, isLast⟩
      · exact ⟨Or.inr ⟨[some ch], ch, stack, rfl⟩, rfl, rfl⟩
      · obtain ⟨slot, others, rfl⟩ := exists_cons_of_ne_nil (ne_nil_of_getLast? isLast)
        exact ⟨Or.inr ⟨_, ch, stack, by simpa using isLast⟩, by simp [base], by simp⟩
    · rw [resolved] at stack
      rw [stack]
      rcases settled with ⟨ch, rfl, file⟩ | ⟨below, ch, rfl, isLast⟩
      · exact ⟨Or.inr ⟨[some m.from], m.from, stack, rfl⟩, by simp [base, setTop, same, file], rfl⟩
      · obtain ⟨_, _, rfl⟩ := exists_cons_of_ne_nil (ne_nil_of_getLast? isLast)
        exact ⟨Or.inr ⟨_, ch, stack, by simpa [setTop] using isLast⟩, by simp [base, setTop],
          by simp [setTop]⟩

theorem elems_settled (names : List Str) : ∀ {p q : Pos}, Settled p →
    elems ns nomount p names = some q →
      Settled q ∧ base q.2 = base p.2 ∧ q.2.length - 1 = depthAfter (p.2.length - 1) names := by
  induction names with
  | nil =>
    intro p q settled run
    cases run
    exact ⟨settled, rfl, rfl⟩
  | cons _ _ ih =>
    intro _ _ settled run
    rw [elems_cons, Option.bind_eq_some_iff] at run
    have ⟨_, step, rest⟩ := run
    have ⟨settledMiddle, baseMiddle, depthMiddle⟩ := elem_settled settled step
    have ⟨settledLast, baseLast, depthLast⟩ := ih settledMiddle rest
    exact ⟨settledLast, baseLast.trans baseMiddle, by rw [depthLast, depthMiddle]; rfl⟩

variable {c : Chan} {mtpt : Stack}

theorem walk_ok {c' : Chan} {n : Cname} (noDot : ∀ name ∈ names, name ≠ str ".")
    (walked : walk ns nomount c mtpt names = .ok (c', n)) :
    elems ns nomount (c, pinned c mtpt) names = some (c', n.mtpt) := by
  have spec := walk_spec ns nomount c mtpt noDot
  rw [walked] at spec
  exact spec.1

theorem exists_walk (noDot : ∀ name ∈ names, name ≠ str ".")
    (run : elems ns nomount (c, pinned c mtpt) names = some q) :
    ∃ n, walk ns nomount c mtpt names = .ok (q.1, n) ∧ n.mtpt = q.2 := by
  have spec := walk_spec ns nomount c mtpt noDot
  cases walked : walk ns nomount c mtpt names with
  | error _ =>
    rw [walked, run] at spec
    cases spec.1
  | ok result =>
    rw [walked, run] at spec
    have ⟨_, n⟩ := result
    cases spec.1
    exact ⟨n, rfl, rfl⟩

/-- An element and `..` after it lead back to the same file, on the near side of a mount
point, with the same mount points crossed; and a path whose depth, counted from the
origin and held there at 0, ends at 0 leads to the origin. -/
theorem walk_dotdot (p : Place) (names : List Str) (parsed : ∀ name ∈ names, IsElem name) :
    (∀ x, IsElem x → x ≠ str ".." → ∀ c n,
      walk ns nomount p.chan p.mtpt (names ++ [x]) = .ok (c, n) → D.isdir c.file = true →
        ∃ c₀ n₀ c₁ n₁, walk ns nomount p.chan p.mtpt names = .ok (c₀, n₀) ∧
          walk ns nomount p.chan p.mtpt (names ++ [x, str ".."]) = .ok (c₁, n₁) ∧
          c₁.file = c₀.file ∧ crossed n₁.mtpt = crossed n₀.mtpt) ∧
      ∀ c n, walk ns nomount p.chan p.mtpt names = .ok (c, n) → depthAfter p.depth names = 0 →
        c.file = p.origin ∧ n.mtpt.length = 1 := by
  have noDot : ∀ name ∈ names, name ≠ str "." := fun name member => (parsed name member).2
  constructor
  · intro x isElem down c n walked isDir
    have noDotX : ∀ more : List Str, (∀ name ∈ more, name ≠ str ".") →
        ∀ name ∈ names ++ more, name ≠ str "." := by
      intro _ clean name member
      rcases mem_append.1 member with old | new
      · exact noDot name old
      · exact clean name new
    have run := walk_ok (noDotX [x] (by simpa using isElem.2)) walked
    rw [elems_append, Option.bind_eq_some_iff] at run
    have ⟨q, front, last⟩ := run
    rw [elems_cons, Option.bind_eq_some_iff] at last
    obtain ⟨r, step, finish⟩ := last
    obtain rfl : r = (c, n.mtpt) := Option.some.inj finish
    obtain ⟨settled, _, _⟩ := elems_settled names p.settled_pinned front
    have up : elem ns nomount (c, n.mtpt) (str "..") = some (ascend D (c, n.mtpt)) := by
      rw [elem, if_neg (by simp [isDir]), if_pos rfl]
    have whole : elems ns nomount (p.chan, pinned p.chan p.mtpt) (names ++ [x, str ".."]) =
        some (ascend D (c, n.mtpt)) := by
      rw [elems_append, front, Option.bind_some, elems_cons, step, Option.bind_some, elems_cons, up]
      rfl
    obtain ⟨n₀, walked₀, stack₀⟩ := exists_walk noDot front
    obtain ⟨n₁, walked₁, stack₁⟩ := exists_walk
      (noDotX [x, str ".."] (by simpa using ⟨isElem.2, by decide⟩)) whole
    obtain ⟨file, stack⟩ := ascend_elem settled isElem down step
    exact ⟨q.1, n₀, _, n₁, walked₀, walked₁, file, by rw [stack₀, stack₁, stack]⟩
  · intro _ _ walked isOrigin
    have run := walk_ok noDot walked
    obtain ⟨settled, same, deep⟩ := elems_settled names p.settled_pinned run
    have start : (pinned p.chan p.mtpt).length - 1 = p.depth ∧
        (base (pinned p.chan p.mtpt)).getD p.chan.file = p.origin := by
      unfold pinned Place.origin Place.depth
      split_ifs with fresh
      · rw [fresh]
        exact ⟨rfl, rfl⟩
      · exact ⟨rfl, rfl⟩
    rw [start.1, isOrigin] at deep
    rcases settled with ⟨ch, shape, file⟩ | ⟨below, ch, shape, isLast⟩
    · simp only at shape file same
      rw [← start.2, ← same, shape]
      exact ⟨file.symm, rfl⟩
    obtain ⟨_, _, rfl⟩ := exists_cons_of_ne_nil (ne_nil_of_getLast? isLast)
    simp only at shape deep
    rw [shape] at deep
    simp at deep

end Steps

/-! ### A small name space -/

/-- Devices that are all alike: `/` has a directory `a`, and that a directory `b`. -/
def sampleDevices : Devices where
  isdir _ := true
  child f name :=
    if f.path = 0 ∧ name = str "a" then some 1
    else if f.path = 1 ∧ name = str "b" then some 2
    else none
  parent f := if f.path = 2 then 1 else 0
  parent_child := by
    intro f name path _ found
    simp only [File.at]
    split_ifs at found with first second
    · cases found
      simp [← first.1]
    · cases found
      simp [← second.1]

/-- The directory `a` of the second device is mounted on the directory `a` of the first. -/
def sampleMounts : Mounts sampleDevices where
  heads := [⟨⟨⟨0, 0, 1⟩, 0⟩, ⟨⟨⟨0, 1, 1⟩, 0⟩, 0⟩, []⟩]
  sameKind := fun _ _ _ _ => rfl

def samplePlace : Place := ⟨⟨⟨0, 0, 0⟩, 0⟩, [], Or.inl rfl⟩

/-- The running depth of a path, downward elements less upward ones. -/
def runningDepth (names : List Str) : Int :=
  (names.map fun name => if name = str ".." then (-1 : Int) else 1).sum

theorem walk_dotdot_mounted :
    (∃ c₀ n₀ c₁ n₁, walk sampleMounts false samplePlace.chan samplePlace.mtpt [str "a"] = .ok (c₀, n₀) ∧
      walk sampleMounts false samplePlace.chan samplePlace.mtpt ([str "a"] ++ [str "b", str ".."]) =
        .ok (c₁, n₁) ∧ c₁.file = c₀.file ∧ crossed n₁.mtpt = crossed n₀.mtpt) ∧
      (⟨0, 0, 0⟩ : File) = samplePlace.origin := by
  constructor
  · refine (walk_dotdot samplePlace [str "a"]
      (by decide +kernel)).1 (str "b") (by decide +kernel) (by decide +kernel) ?_ ?_ ?_ ?_
    · exact ⟨⟨0, 1, 2⟩, 0⟩
    · exact ⟨[none, some ⟨⟨0, 0, 1⟩, 0⟩, some ⟨⟨0, 0, 0⟩, 0⟩], true, []⟩
    · decide +kernel
    · rfl
  · exact ((@walk_dotdot _ sampleMounts false samplePlace [str "a", str ".."]
      (by decide +kernel)).2 ⟨⟨0, 0, 0⟩, 0⟩ ⟨[some ⟨⟨0, 0, 0⟩, 0⟩], true, []⟩ (by decide +kernel)
        (by decide +kernel)).1

/-- A path whose running depth is never positive can end below the origin. -/
theorem walk_leaves_origin :
    (∀ k, runningDepth ([str "..", str "a"].take k) ≤ 0) ∧
      ∃ c n, walk sampleMounts false samplePlace.chan samplePlace.mtpt [str "..", str "a"] =
        .ok (c, n) ∧ c.file ≠ samplePlace.origin := by
  constructor
  · intro k
    rcases k with _ | _ | k
    · decide +kernel
    · decide +kernel
    · rw [take_of_length_le (by simp)]
      decide +kernel
  · exact ⟨⟨⟨0, 0, 1⟩, 0⟩, ⟨[none, some ⟨⟨0, 0, 0⟩, 0⟩], true, []⟩, by decide +kernel,
      by decide +kernel⟩

/-! ### Two walks -/

/-- Where a walk ends, with the stack of mount points of its name. -/
def reached : Except Stack (Chan × Cname) → Option Pos
  | .ok (c, n) => some (c, n.mtpt)
  | .error _ => none

theorem reached_walk {ns : Mounts D} (c : Chan) (mtpt : Stack)
    (noDot : ∀ name ∈ names, name ≠ str ".") :
    reached (walk ns nomount c mtpt names) = elems ns nomount (c, pinned c mtpt) names := by
  have spec := walk_spec ns nomount c mtpt noDot
  cases walked : walk ns nomount c mtpt names with
  | error _ =>
    rw [walked] at spec
    exact spec.1.symm
  | ok _ =>
    rw [walked] at spec
    exact spec.1.symm

/-- A step never leaves the stack empty. -/
theorem elem_pinned {ns : Mounts D} {p q : Pos} {name : Str} (pinned : p.2 ≠ [])
    (step : elem ns nomount p name = some q) : q.2 ≠ [] := by
  have ⟨slot, below, is⟩ := exists_cons_of_ne_nil pinned
  unfold elem at step
  split at step
  · cases step
  split at step
  · cases step
    unfold ascend
    rw [is]
    rcases below with _ | ⟨slot', below⟩
    · exact cons_ne_nil _ _
    · cases slot' <;> (cases below <;> exact cons_ne_nil _ _)
  · have ⟨c, _, entered⟩ := exists_of_findSome?_eq_some step
    have ⟨_, _, same⟩ := Option.map_eq_some_iff.1 entered
    rw [← same]
    exact cons_ne_nil _ _

/-- To walk some names and then more from there is to walk them all, through unions and mount
points and whatever the batches of the three walks. -/
theorem walk_append (ns : Mounts D) (nomount : Bool) (c : Chan) (mtpt : Stack)
    (left right : List Str) (noDot : ∀ name ∈ left ++ right, name ≠ str ".") :
    reached (walk ns nomount c mtpt (left ++ right)) =
      (reached (walk ns nomount c mtpt left)).bind fun p =>
        reached (walk ns nomount p.1 p.2 right) := by
  have ⟨noDotLeft, noDotRight⟩ := forall_mem_append.1 noDot
  rw [reached_walk c mtpt noDot, reached_walk c mtpt noDotLeft, elems_append]
  have kept : ∀ (names : List Str) (p q : Pos), p.2 ≠ [] → elems ns nomount p names = some q →
      q.2 ≠ [] := by
    intro names
    induction names with
    | nil =>
      intro p q pinned run
      cases run
      exact pinned
    | cons name names ih =>
      intro p q pinned run
      rw [elems_cons] at run
      have ⟨r, first, later⟩ := Option.bind_eq_some_iff.1 run
      exact ih r q (elem_pinned pinned first) later
  have start : pinned c mtpt ≠ [] := by
    unfold pinned
    split
    · exact cons_ne_nil _ _
    · assumption
  cases run : elems ns nomount (c, pinned c mtpt) left with
  | none => rfl
  | some p =>
    rw [Option.bind_some, Option.bind_some, reached_walk p.1 p.2 noDotRight, pinned,
      if_neg (kept left _ p start run)]

theorem walk_append_mounted :
    reached (walk sampleMounts false samplePlace.chan samplePlace.mtpt ([str "a"] ++ [str "b"])) =
      (reached (walk sampleMounts false samplePlace.chan samplePlace.mtpt [str "a"])).bind fun p =>
        reached (walk sampleMounts false p.1 p.2 [str "b"]) :=
  walk_append sampleMounts false samplePlace.chan samplePlace.mtpt [str "a"] [str "b"] (by decide)

end Infernode.Emu
