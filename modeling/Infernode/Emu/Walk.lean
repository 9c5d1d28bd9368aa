import Infernode.Emu.Chan
import Mathlib.Data.List.TakeWhile

/-!
`walk` as one step for each element.

Owns: the step of one element from the near side of a mount point, and the theorem
that `walk` takes these steps one after another, whatever its batches.
-/

namespace Infernode.Emu

open Text List

/-! ### The step of one element -/

/-- Where a walk stands, on the near side of a mount point, and its stack. -/
abbrev Pos := Chan × Stack

def setTop (s : Stack) (mp : Chan) : Stack :=
  match s with
  | [] => []
  | _ :: below => some mp :: below

def dropTop : Stack → Stack
  | _ :: slot :: below => slot :: below
  | s => s

/-- `undomount` on a stack. -/
def undo (c : Chan) : Stack → Pos
  | [] => (c, [])
  | [slot] => (slot.getD c, [slot])
  | none :: below => (c, none :: below)
  | some nc :: below => (nc, none :: below)

section Steps

variable {D : Devices} (ns : Mounts D) (nomount : Bool)

def crossing (f : File) : Option Mhead := if nomount then none else findmount ns f

def resolve (p : Pos) : List Chan × Stack :=
  match crossing ns nomount p.1.file with
  | none => ([p.1], p.2)
  | some m => (m.mounts.map fun f => ⟨f.to.file, f.mflag⟩, setTop p.2 m.from)

variable (D) in
def enter (s : Stack) (name : Str) (c : Chan) : Option Pos :=
  (D.step c.file name).map fun g => (⟨g, c.mflag⟩, none :: s)

variable (D) in
/-- Go up, and back over the mount point there. -/
def ascend (p : Pos) : Pos :=
  undo ⟨p.1.file.at (D.parent p.1.file), p.1.mflag⟩ (dropTop p.2)

def elem (p : Pos) (name : Str) : Option Pos :=
  if D.isdir p.1.file = false then none
  else if name = str ".." then some (ascend D p)
  else (resolve ns nomount p).1.findSome? (enter D (resolve ns nomount p).2 name)

def elems (p : Pos) (names : List Str) : Option Pos := names.foldlM (elem ns nomount) p

end Steps

/-! ### Small facts -/

def Plain (name : Str) : Prop := name ≠ str "." ∧ name ≠ str ".."

theorem undomount_eq (c : Chan) (n : Cname) :
    undomount c n = ((undo c n.mtpt).1, { n with mtpt := (undo c n.mtpt).2 }) := by
  have ⟨mtpt, _, _⟩ := n
  rcases mtpt with _ | ⟨slot, _ | ⟨slot', below⟩⟩
  · rfl
  · rfl
  · cases slot <;> rfl

theorem mtpt_addelem_dotdot (n : Cname) :
    (n.addelem (str "..")).mtpt = dropTop n.mtpt ∧ (n.addelem (str "..")).start = n.start ∧
      (n.addelem (str "..")).own = true := by
  have ⟨mtpt, _, _⟩ := n
  unfold Cname.addelem
  rw [if_neg (by decide), if_pos rfl]
  rcases mtpt with _ | ⟨slot, _ | ⟨slot', below⟩⟩ <;> exact ⟨rfl, rfl, rfl⟩

variable {name : Str} {f : File} {names : List Str}

theorem addelem_plain {n : Cname} (plain : Plain name) : n.addelem name = n.unshare := by
  unfold Cname.addelem
  rw [if_neg plain.1, if_neg plain.2]

theorem addelems_plain (names : List Str) : ∀ (n : Cname) (mp : Option Chan), names ≠ [] →
    (∀ name ∈ names, Plain name) →
      (addelems n names mp).mtpt = mp :: (List.replicate (names.length - 1) none ++ n.mtpt) ∧
        (addelems n names mp).start = n.start ∧ (addelems n names mp).own = true := by
  induction names with
  | nil => exact fun _ _ nonempty => absurd rfl nonempty
  | cons name names ih =>
    intro n mp _ plain
    have first := addelem_plain (n := n) (plain name mem_cons_self)
    cases names with
    | nil =>
      unfold addelems
      rw [first]
      exact ⟨rfl, rfl, rfl⟩
    | cons _ _ =>
      unfold addelems
      rw [first]
      have ⟨mtpt, start, own⟩ := ih
        (n.unshare.cnamepush none) mp (cons_ne_nil _ _)
        (forall_mem_cons.1 plain).2
      refine ⟨?_, start, own⟩
      rw [mtpt]
      have grows : ∀ k, List.replicate k none ++ (none :: n.mtpt) =
          List.replicate (k + 1) none ++ n.mtpt := by
        intro _
        rw [replicate_succ']
        simp
      exact congrArg (mp :: ·) (grows _)

theorem Devices.walk_cons {D : Devices} {g : File} (found : D.step f name = some g)
    (names : List Str) : D.walk f (name :: names) = g :: D.walk g names := by
  simp only [Devices.walk, found]

theorem Devices.walk_cons_none {D : Devices} (missing : D.step f name = none) (names : List Str) :
    D.walk f (name :: names) = [] := by
  simp only [Devices.walk, missing]

theorem batch_plain (nonempty : names ≠ []) (notUp : names.head? ≠ some (str ".."))
    (noDot : ∀ name ∈ names, name ≠ str ".") :
    batch names ≠ [] ∧ (∀ name ∈ batch names, Plain name) ∧
      ∃ rest, names = batch names ++ rest := by
  obtain ⟨first, others, rfl⟩ := exists_cons_of_ne_nil nonempty
  have taken : batch (first :: others) =
      ((first :: others).take MAXWELEM).takeWhile fun name => name ≠ str ".." := if_neg notUp
  have isPrefix : batch (first :: others) <+: first :: others := by
    rw [taken]
    exact (List.takeWhile_prefix _).trans (List.take_prefix _ _)
  refine ⟨?_, ?_, isPrefix.imp fun rest same => same.symm⟩
  · have down : first ≠ str ".." := fun same => notUp (congrArg some same)
    rw [taken, MAXWELEM, take_succ_cons, takeWhile_cons_of_pos (by simpa using down)]
    exact cons_ne_nil _ _
  intro name member
  refine ⟨noDot name (isPrefix.subset member), ?_⟩
  rw [taken] at member
  simpa using mem_takeWhile_imp member

section Steps

variable {D : Devices} {ns : Mounts D} {nomount : Bool}

theorem findmount_some {m : Mhead} (found : findmount ns f = some m) :
    m.from.file = f ∧ m ∈ ns.heads :=
  ⟨by simpa using find?_some found, mem_of_find?_eq_some found⟩

theorem elems_append (p : Pos) (left right : List Str) :
    elems ns nomount p (left ++ right) =
      (elems ns nomount p left).bind fun q => elems ns nomount q right := by
  unfold elems
  rw [foldlM_append]
  rfl

theorem elems_cons (p : Pos) (name : Str) (names : List Str) :
    elems ns nomount p (name :: names) =
      (elem ns nomount p name).bind fun q => elems ns nomount q names := by
  unfold elems
  rw [foldlM_cons]
  rfl

theorem elem_of_noCrossing {c : Chan} {s : Stack} (plain : Plain name)
    (none_ : crossing ns nomount c.file = none) :
    elem ns nomount (c, s) name = enter D s name c := by
  unfold elem resolve
  simp only [none_, if_neg plain.2]
  cases kind : D.isdir c.file with
  | false => simp [enter, Devices.step, kind]
  | true => simp

variable (ns nomount) in
/-- The walk of a batch from a file that was just entered is a run of steps up to the
first mount point. -/
theorem elems_batch (rest : List Str) : ∀ (g : File) (mflag : Nat) (s : Stack),
    (∀ name ∈ rest, Plain name) →
      match if nomount then none else
          firstmount ns ((g :: D.walk g rest).take rest.length) with
      | some (i, m) => i < rest.length ∧ ∃ f, findmount ns f = some m ∧ nomount = false ∧
          elems ns nomount (⟨g, mflag⟩, none :: s) (rest.take i) =
            some (⟨f, mflag⟩, List.replicate (i + 1) none ++ s)
      | none =>
        if (g :: D.walk g rest).length < rest.length + 1 then
          elems ns nomount (⟨g, mflag⟩, none :: s) rest = none
        else
          ∃ f, (g :: D.walk g rest).getLast? = some f ∧
            (g :: D.walk g rest).length = rest.length + 1 ∧
            elems ns nomount (⟨g, mflag⟩, none :: s) rest =
              some (⟨f, mflag⟩, List.replicate (rest.length + 1) none ++ s) := by
  induction rest with
  | nil =>
    intro g mflag s _
    cases nomount <;> exact ⟨g, rfl, rfl, rfl⟩
  | cons name rest ih =>
    intro g mflag s plain
    have isPlain := plain name mem_cons_self
    cases cross : crossing ns nomount g with
    | some m =>
      have mounts : nomount = false := by
        unfold crossing at cross
        split_ifs at cross with off
        simpa using off
      subst mounts
      have found : findmount ns g = some m := cross
      simp only [length_cons, take_succ_cons, firstmount, found, Bool.false_eq_true,
        if_false]
      exact ⟨Nat.succ_pos _, g, found, trivial, rfl⟩
    | none =>
      have here := elem_of_noCrossing (s := none :: s) (c := ⟨g, mflag⟩) isPlain cross
      have later : (if nomount then none else
          firstmount ns ((g :: D.walk g (name :: rest)).take (name :: rest).length)) =
            (if nomount then none else firstmount ns
              ((D.walk g (name :: rest)).take rest.length)).map
                fun found => (found.1 + 1, found.2) := by
        unfold crossing at cross
        cases nomount with
        | true => rfl
        | false =>
          have missing : findmount ns g = none := cross
          simp only [length_cons, take_succ_cons, firstmount, missing,
            Bool.false_eq_true, if_false]
      rw [later]
      cases found : D.step g name with
      | none =>
        rw [Devices.walk_cons_none found]
        have stuck : elems ns nomount (⟨g, mflag⟩, none :: s) (name :: rest) = none := by
          rw [elems_cons, here, enter, found]
          rfl
        cases nomount <;> simpa [firstmount] using stuck
      | some g' =>
        have step : ∀ more, elems ns nomount (⟨g, mflag⟩, none :: s) (name :: more) =
            elems ns nomount (⟨g', mflag⟩, none :: none :: s) more := by
          intro _
          rw [elems_cons, here, enter, found]
          rfl
        have grows : ∀ k, List.replicate k none ++ (none :: s) =
            List.replicate (k + 1) none ++ s := by
          intro _
          rw [replicate_succ']
          simp
        have tail := ih g' mflag (none :: s)
          (forall_mem_cons.1 plain).2
        rw [Devices.walk_cons found]
        cases stops : (if nomount then none else
            firstmount ns ((g' :: D.walk g' rest).take rest.length)) with
        | some _ =>
          rw [stops] at tail
          have ⟨inside, f, isMount, mounts, run⟩ := tail
          refine ⟨Nat.succ_lt_succ inside, f, isMount, mounts, ?_⟩
          rw [take_succ_cons, step, run, grows]
        | none =>
          rw [stops] at tail
          simp only [Option.map_none]
          by_cases short : (g' :: D.walk g' rest).length < rest.length + 1
          · rw [if_pos short] at tail
            rw [if_pos (by simpa using short), step, tail]
          rw [if_neg short] at tail
          have ⟨f, isLast, long, run⟩ := tail
          rw [if_neg (by simpa using short)]
          refine ⟨f, by simpa using isLast, by simpa using long, ?_⟩
          rw [step, run, grows, length_cons]

/-! ### The loop -/

variable (ns nomount) in
/-- The variables of the loop stand for a position: its channel, or, where names to go
down are left, what is mounted on it. -/
inductive Rep : Walking → Pos → List Str → Prop where
  | here (c : Chan) (n : Cname) (names : List Str) : Rep ⟨c, none, false, n⟩ (c, n.mtpt) names
  | past (c : Chan) (s : Stack) (n : Cname) (m : Mhead) (name : Str) (names : List Str)
      (found : findmount ns c.file = some m) (mounts : nomount = false)
      (crossed : n.mtpt = setTop s m.from) (down : name ≠ str "..") :
      Rep ⟨⟨m.mount.to.file, mheadflag m⟩, some m, true, n⟩ (c, s) (name :: names)

variable {w : Walking} {p : Pos}

theorem Rep.isdir_eq (rep : Rep ns nomount w p names) : D.isdir w.c.file = D.isdir p.1.file := by
  cases rep with
  | here => rfl
  | past _ _ _ m _ _ found _ _ _ =>
    have ⟨same, member⟩ := findmount_some found
    rw [ns.sameKind m member m.mount mem_cons_self, same]

/-- Crossing the mount point at the beginning of a turn resolves the position. -/
theorem Rep.resolve_eq (rep : Rep ns nomount w p names) :
    candidates nomount (domount ns nomount w) = (resolve ns nomount p).1 ∧
      (domount ns nomount w).cname.mtpt = (resolve ns nomount p).2 ∧
      (domount ns nomount w).cname.start = w.cname.start := by
  cases rep with
  | here c n _ =>
    unfold domount resolve crossing
    cases nomount with
    | true => exact ⟨rfl, rfl, rfl⟩
    | false =>
      simp only [Bool.or_self, Bool.false_eq_true, if_false]
      cases found : findmount ns c.file with
      | none => exact ⟨rfl, rfl, rfl⟩
      | some _ =>
        refine ⟨rfl, ?_, ?_⟩
        · obtain ⟨mtpt, own, start⟩ := n
          cases mtpt <;> rfl
        · obtain ⟨mtpt, _, _⟩ := n
          cases mtpt <;> rfl
  | past _ _ _ _ _ _ found mounts crossed _ =>
    subst mounts
    unfold domount resolve crossing
    simp only [Bool.or_true, if_true, Bool.false_eq_true, if_false, found]
    exact ⟨rfl, crossed, trivial⟩

theorem trywalk_spec (name : Str) (rest : List Str) (s : Stack) (cs : List Chan) :
    match trywalk D (name :: rest) cs with
    | none => cs.findSome? (enter D s name) = none
    | some (files, mflag) => ∃ g, files = g :: D.walk g rest ∧
        cs.findSome? (enter D s name) = some (⟨g, mflag⟩, none :: s) := by
  induction cs with
  | nil => rfl
  | cons c cs ih =>
    cases found : D.step c.file name with
    | none =>
      have skip : trywalk D (name :: rest) (c :: cs) = trywalk D (name :: rest) cs := by
        unfold trywalk
        rw [Devices.walk_cons_none found]
        cases cs <;> rfl
      have skipStep : (c :: cs).findSome? (enter D s name) = cs.findSome? (enter D s name) := by
        rw [findSome?_cons, enter, found]
        rfl
      rw [skip, skipStep]
      exact ih
    | some g =>
      have hit : trywalk D (name :: rest) (c :: cs) = some (g :: D.walk g rest, c.mflag) := by
        unfold trywalk
        rw [Devices.walk_cons found]
      rw [hit]
      refine ⟨g, rfl, ?_⟩
      rw [findSome?_cons, enter, found]
      rfl

theorem turn_spec (rep : Rep ns nomount w p names) (nonempty : names ≠ [])
    (noDot : ∀ name ∈ names, name ≠ str ".") :
    match turn ns nomount w names with
    | .error start => elems ns nomount p names = none ∧ start = w.cname.start
    | .ok (w', n) => 0 < n ∧ w'.cname.start = w.cname.start ∧ w'.cname.own = true ∧
        ∃ q, elems ns nomount p (names.take n) = some q ∧ Rep ns nomount w' q (names.drop n) := by
  have sameKind := rep.isdir_eq
  unfold turn
  by_cases kind : D.isdir w.c.file = false
  · rw [if_pos kind]
    obtain ⟨name, rest, rfl⟩ := exists_cons_of_ne_nil nonempty
    refine ⟨?_, rfl⟩
    rw [elems_cons, elem, if_pos (sameKind ▸ kind)]
    rfl
  rw [if_neg kind]
  by_cases isUp : names.head? = some (str "..")
  · rw [if_pos isUp]
    cases rep with
    | past _ _ _ _ _ _ _ _ _ down => exact absurd (Option.some.inj isUp) down
    | here c n _ =>
      obtain ⟨name, rest, rfl⟩ := exists_cons_of_ne_nil nonempty
      obtain rfl : name = str ".." := Option.some.inj isUp
      have ⟨mtpt, start, own⟩ := mtpt_addelem_dotdot n
      have step : elem ns nomount (c, n.mtpt) (str "..") = some (ascend D (c, n.mtpt)) := by
        rw [elem, if_neg kind, if_pos rfl]
      simp only [undomount_eq, mtpt]
      refine ⟨Nat.one_pos, start, own, ascend D (c, n.mtpt), ?_, ?_⟩
      · rw [take_succ_cons, take_zero, elems_cons, step]
        rfl
      · exact Rep.here _ { n.addelem (str "..") with mtpt := _ } _
  rw [if_neg isUp]
  have ⟨batchNonempty, plain, more, split⟩ := batch_plain nonempty isUp noDot
  have ⟨cands, mtpt, start⟩ := rep.resolve_eq
  have ⟨name, rest, shape⟩ := exists_cons_of_ne_nil batchNonempty
  rw [shape] at plain split
  have isPlain := plain name mem_cons_self
  have restPlain : ∀ other ∈ rest, Plain other :=
    (forall_mem_cons.1 plain).2
  simp only [shape, cands]
  have first : elem ns nomount p name =
      (resolve ns nomount p).1.findSome? (enter D (resolve ns nomount p).2 name) := by
    rw [elem, if_neg (sameKind ▸ kind), if_neg isPlain.2]
  have tried := trywalk_spec (D := D) name rest (resolve ns nomount p).2 (resolve ns nomount p).1
  cases result : trywalk D (name :: rest) (resolve ns nomount p).1 with
  | none =>
    rw [result] at tried
    refine ⟨?_, start⟩
    rw [split, cons_append, elems_cons, first, tried]
    rfl
  | some hit =>
    have ⟨_, mflag⟩ := hit
    rw [result] at tried
    obtain ⟨g, rfl, entered⟩ := tried
    have run := elems_batch ns nomount rest g mflag
      (resolve ns nomount p).2 restPlain
    have go : ∀ others, elems ns nomount p (name :: others) =
        elems ns nomount (⟨g, mflag⟩, none :: (resolve ns nomount p).2) others := by
      intro _
      rw [elems_cons, first, entered]
      rfl
    simp only [length_cons, Nat.add_sub_cancel]
    cases stops : (if nomount then none else
        firstmount ns ((g :: D.walk g rest).take rest.length)) with
    | some found =>
      have ⟨i, m⟩ := found
      rw [stops] at run
      have ⟨inside, f, isMount, mounts, steps⟩ := run
      have taken : (name :: rest).take (i + 1) ≠ [] := by simp
      have ⟨stack, sameStart, owned⟩ := addelems_plain ((name :: rest).take (i + 1))
        (domount ns nomount w).cname (some m.from) taken
        (fun other member => plain other (mem_of_mem_take member))
      have dropped : names.drop (i + 1) = rest[i] :: (rest.drop (i + 1) ++ more) := by
        rw [split, cons_append, drop_succ_cons,
          drop_append_of_le_length (Nat.le_of_lt inside), drop_eq_getElem_cons inside,
          cons_append]
      have kept : names.take (i + 1) = name :: rest.take i := by
        rw [split, cons_append, take_succ_cons,
          take_append_of_le_length (Nat.le_of_lt inside)]
      refine ⟨Nat.succ_pos i, sameStart.trans start, owned,
        (⟨f, mflag⟩, List.replicate (i + 1) none ++ (resolve ns nomount p).2), ?_, ?_⟩
      · rw [kept, go, steps]
      rw [dropped]
      refine Rep.past _ _ _ _ _ _ isMount mounts ?_
        (restPlain _ (getElem_mem inside)).2
      rw [stack, mtpt]
      have size : ((name :: rest).take (i + 1)).length - 1 = i := by
        rw [length_take, length_cons]
        omega
      rw [size]
      rfl
    | none =>
      rw [stops] at run
      have all : names.take (rest.length + 1) = name :: rest := by
        rw [split]
        exact take_left' rfl
      by_cases short : (g :: D.walk g rest).length < rest.length + 1
      · rw [if_pos short] at run
        cases last : (g :: D.walk g rest).getLast? with
        | none => exact absurd (getLast?_eq_none_iff.1 last) (cons_ne_nil _ _)
        | some _ =>
          simp only
          rw [if_pos (show (D.walk g rest).length + 1 < rest.length + 1 from short)]
          refine ⟨?_, start⟩
          rw [split, elems_append, go, run]
          rfl
      · rw [if_neg short] at run
        have ⟨_, isLast, long, steps⟩ := run
        have ⟨stack, sameStart, owned⟩ := addelems_plain (name :: rest)
          (domount ns nomount w).cname none (cons_ne_nil _ _) plain
        rw [isLast]
        simp only
        rw [if_neg (show ¬(D.walk g rest).length + 1 < rest.length + 1 from short),
          show (D.walk g rest).length + 1 = rest.length + 1 from long]
        refine ⟨Nat.succ_pos _, sameStart.trans start, owned, _, by rw [all, go, steps], ?_⟩
        have same : List.replicate (rest.length + 1) none ++ (resolve ns nomount p).2 =
            (addelems (domount ns nomount w).cname (name :: rest) none).mtpt := by
          rw [stack, mtpt, length_cons, Nat.add_sub_cancel]
          rfl
        rw [same]
        exact Rep.here _ _ _

variable (ns nomount) in
theorem turns_spec (fuel : Nat) : ∀ {w : Walking} {p : Pos} {names : List Str},
    names.length ≤ fuel → Rep ns nomount w p names → (∀ name ∈ names, name ≠ str ".") →
      match turns ns nomount fuel w names with
      | .error start => elems ns nomount p names = none ∧ start = w.cname.start
      | .ok w' => elems ns nomount p names = some (w'.c, w'.cname.mtpt) ∧
          w'.cname.start = w.cname.start ∧ (names ≠ [] → w'.cname.own = true) := by
  have done : ∀ {w : Walking} {p : Pos}, Rep ns nomount w p [] →
      elems ns nomount p [] = some (w.c, w.cname.mtpt) := by
    rintro _ _ ⟨⟩
    rfl
  induction fuel with
  | zero =>
    intro w p names enough rep _
    obtain rfl := eq_nil_of_length_eq_zero (Nat.le_zero.1 enough)
    exact ⟨done rep, rfl, fun nonempty => absurd rfl nonempty⟩
  | succ fuel ih =>
    intro w p names _ rep noDot
    cases names with
    | nil => exact ⟨done rep, rfl, fun nonempty => absurd rfl nonempty⟩
    | cons name rest =>
      have step := turn_spec rep (cons_ne_nil _ _) noDot
      unfold turns
      cases result : turn ns nomount w (name :: rest) with
      | error _ =>
        rw [result] at step
        exact step
      | ok pair =>
        have ⟨w', n⟩ := pair
        rw [result] at step
        have ⟨_, sameStart, owned, q, steps, later⟩ := step
        have fewer : ((name :: rest).drop n).length ≤ fuel := by
          rw [length_drop]
          omega
        have tail := ih fewer later
          (fun other member => noDot other (mem_of_mem_drop member))
        have whole : elems ns nomount p (name :: rest) =
            elems ns nomount q ((name :: rest).drop n) := by
          conv_lhs => rw [← take_append_drop n (name :: rest)]
          rw [elems_append, steps]
          rfl
        rw [whole]
        simp only
        cases final : turns ns nomount fuel w' ((name :: rest).drop n) with
        | error _ =>
          rw [final] at tail
          exact ⟨tail.1, tail.2.trans sameStart⟩
        | ok _ =>
          rw [final] at tail
          have ⟨run, start, ownedLater⟩ := tail
          refine ⟨run, start.trans sameStart, fun _ => ?_⟩
          by_cases nothing : (name :: rest).drop n = []
          · rw [nothing] at final
            cases fuel <;> (cases final; exact owned)
          · exact ownedLater nothing

def pinned (c : Chan) (mtpt : Stack) : Stack := if mtpt = [] then [some c] else mtpt

variable (ns nomount) in
/-- `walk` takes one step for each element, and leaves the starting name as it is. -/
theorem walk_spec (c : Chan) (mtpt : Stack) (noDot : ∀ name ∈ names, name ≠ str ".") :
    match walk ns nomount c mtpt names with
    | .error start => elems ns nomount (c, pinned c mtpt) names = none ∧ start = mtpt
    | .ok (c', n) => elems ns nomount (c, pinned c mtpt) names = some (c', n.mtpt) ∧
        n.start = mtpt ∧ (names ≠ [] → n.own = true) := by
  have stack : (pin c mtpt).mtpt = pinned c mtpt ∧ (pin c mtpt).start = mtpt := by
    unfold pin pinned
    split_ifs with fresh
    · exact ⟨rfl, fresh.symm⟩
    · exact ⟨rfl, rfl⟩
  have spec := turns_spec ns nomount names.length (Nat.le_refl _)
    (Rep.here c (pin c mtpt) names) noDot
  unfold walk
  rw [stack.1] at spec
  cases result : turns ns nomount names.length ⟨c, none, false, pin c mtpt⟩ names with
  | error _ =>
    rw [result] at spec
    exact ⟨spec.1, spec.2.trans stack.2⟩
  | ok _ =>
    rw [result] at spec
    exact ⟨spec.1, spec.2.1.trans stack.2, spec.2.2⟩

end Steps

end Infernode.Emu
