import Infernode.Veltro.Dashsteps

/-!
The dashboard over whole runs.

Owns: what a step has to be spared, and that a run whose steps are spared it gives each request
one reply, lists in each directory what a walk reaches there, lists the activities that there are,
and keeps the files of the tasks apart.
-/

namespace Infernode.Dashboard

open Text Styx List Option

/-! ### Writes -/

/-- The text of one file is set, and nothing else. -/
def Field.Proper (f : Field) : Prop := ∀ data te, key (f.set data te) = key te

variable {b : Board} {f : Field} {srv : Styxserver Board} {exist : List Int} {a : Step} {p : Nat}

variable {b' : Board} {rest name : Str} {k fid offset : Nat} {c : Fid} {id : Int} {sent : List Rmsg}
    {te : TaskEntry}

theorem command_kept (proper : f.Proper) {msg : Str} (done : command b f rest = .ok (b', msg)) :
    Kept b b' ∧ b'.pending = b.pending := by
  unfold command at done
  dsimp only at done
  split_ifs at done
  cases found : findtask b.tasks (parseidtext rest).1 with
  | none =>
    rw [found] at done
    cases done
  | some _ =>
    rw [found] at done
    cases done
    exact ⟨⟨rfl, map_update (proper _) b.tasks, rfl⟩, rfl⟩

theorem command_short {err : Str} (refused : command b f rest = .error err) : Styx.Short err := by
  unfold command at refused
  dsimp only at refused
  split_ifs at refused
  · cases refused
    exact (by decide : Styx.Short (str "bad id"))
  cases found : findtask b.tasks (parseidtext rest).1 with
  | none =>
    rw [found] at refused
    cases refused
    exact (by decide : Styx.Short (str "unknown task"))
  | some _ =>
    rw [found] at refused
    cases refused

theorem handlectl_cases (b : Board) (data : Str) :
    (∃ f rest, Field.Proper f ∧ handlectl b data = command b f rest) ∨
      handlectl b data =
        .error (str "usage: synopsis|categorize|progress|order|instructions {id} {text}") := by
  unfold handlectl
  split_ifs
  · exact Or.inl ⟨synopsis, _, fun _ _ => rfl, rfl⟩
  · exact Or.inl ⟨category, _, fun _ _ => rfl, rfl⟩
  · exact Or.inl ⟨progress, _, fun _ _ => rfl, rfl⟩
  · exact Or.inl ⟨order, _, fun _ _ => rfl, rfl⟩
  · exact Or.inl ⟨instructions, _, fun _ _ => rfl, rfl⟩
  · exact Or.inr rfl

theorem fieldof_proper (is : fieldof k = some f) : f.Proper := by
  unfold fieldof at is
  split_ifs at is
  · cases is
    exact fun _ _ => rfl
  · cases is
    exact fun _ _ => rfl
  · cases is
    exact fun _ _ => rfl
  · cases is
    exact fun _ _ => rfl
  · cases is
    exact fun _ _ => rfl

def writefield (srv : Styxserver Board) (te : TaskEntry) (f : Field) (text : Str)
    (tag count : Nat) : Served :=
  pushreply { srv with t := rendersummary { srv.t with
      tasks := update (·.qbase == te.qbase) (f.set text) srv.t.tasks } }
    (f.event te.id text) tag count

theorem servewrite_high (tag : Nat) (data : List Nat) (able : canwrite srv fid offset = .ok c)
    (high : Qtaskbase ≤ TYPE c.path) :
    servewrite srv tag fid offset data =
      match findtaskbyqbase srv.t.tasks (baseof (TYPE c.path)) with
      | none => one srv ⟨tag, .error Enotfound⟩
      | some te =>
        match fieldof (suboffof (TYPE c.path)) with
        | some f => writefield srv te f (unlined (Lib9.c2string data)) tag data.length
        | none => one srv ⟨tag, .error Eperm⟩ := by
  have high' : 100 ≤ TYPE c.path := high
  unfold servewrite
  rw [able]
  dsimp only
  rw [if_neg (by unfold Qctl; omega), if_pos high, taskfromqid_eq high]
  cases findtaskbyqbase srv.t.tasks (baseof (TYPE c.path)) with
  | none => rfl
  | some _ => rfl

theorem servewrite_answered (tag fid offset : Nat) (data : List Nat) (held : Held srv.t) :
    Answered [tag] srv.t (servewrite srv tag fid offset data) := by
  cases able : canwrite srv fid offset with
  | error merr =>
    unfold servewrite
    rw [able]
    exact error_answered (canwrite_short srv fid offset merr able) held
  | ok c =>
    by_cases high : Qtaskbase ≤ TYPE c.path
    · rw [servewrite_high tag data able high]
      cases findtaskbyqbase srv.t.tasks (baseof (TYPE c.path)) with
      | none => exact error_answered (by decide : Styx.Short Enotfound) held
      | some _ =>
        dsimp only
        cases is : fieldof (suboffof (TYPE c.path)) with
        | none => exact error_answered (by decide : Styx.Short Eperm) held
        | some _ =>
          exact pushreply_answered _ tag data.length
            ⟨rfl, map_update (fieldof_proper is _) srv.t.tasks, rfl⟩ held rfl
    · unfold servewrite
      rw [able]
      dsimp only
      rw [if_neg high]
      split_ifs
      · rcases handlectl_cases srv.t (unlined (Lib9.c2string data)) with
          ⟨f, rest, proper, is⟩ | usage
        · rw [is]
          cases done : command srv.t f rest with
          | error _ => exact error_answered (command_short done) held
          | ok result =>
            have ⟨_, _⟩ := result
            have ⟨kept, pending⟩ := command_kept proper done
            exact pushreply_answered _ tag data.length kept held pending
        · rw [usage]
          exact error_answered (by decide : Styx.Short (str
            "usage: synopsis|categorize|progress|order|instructions {id} {text}")) held
      · exact error_answered (by decide : Styx.Short Eperm) held

/-- A write to a file of a task leaves the other tasks alone. -/
theorem servewrite_apart {srv' : Styxserver Board} (laid : srv.t.Laid) {tag : Nat} {data : List Nat}
    (able : canwrite srv fid offset = .ok c) (owned : owner srv.t c.path = some id)
    (served : servewrite srv tag fid offset data = some (srv', sent)) (other : te.id ≠ id) :
    te ∈ srv'.t.tasks ↔ te ∈ srv.t.tasks := by
  have ⟨high, mine, member, is, base⟩ := (owner_iff laid).1 owned
  have unwritten : ∀ {m : Rmsg}, one srv m = some (srv', sent) → srv'.t = srv.t := by
    intro _ replied
    obtain ⟨r, -, same⟩ := map_eq_some_iff.1 replied
    cases same
    rfl
  rw [servewrite_high tag data able high, findbase_some laid member base] at served
  dsimp only at served
  cases field : fieldof (suboffof (TYPE c.path)) with
  | none =>
    rw [field] at served
    rw [unwritten served]
  | some f =>
    rw [field] at served
    have tasks : srv'.t.tasks =
        update (·.qbase == mine.qbase) (f.set (unlined (Lib9.c2string data))) srv.t.tasks := by
      unfold writefield pushreply at served
      have ⟨⟨pushed, deliveries⟩, push, rest⟩ := bind_eq_some_iff.1 served
      obtain ⟨_, -, same⟩ := bind_eq_some_iff.1 rest
      cases same
      obtain ⟨⟨left, delivered, out⟩, -, same'⟩ := bind_eq_some_iff.1 push
      cases same'
      rfl
    rw [tasks]
    refine mem_update srv.t.tasks fun t inTasks here => ?_
    have same : t = mine := by
      have found := findbase_some laid inTasks ((eq_of_beq here).trans base)
      rw [findbase_some laid member base] at found
      exact (Option.some.inj found).symm
    have mineId : t.id = id := same ▸ is
    have setId : (f.set (unlined (Lib9.c2string data)) t).id = id :=
      (congrArg Prod.fst (fieldof_proper field _ t)).trans mineId
    constructor
    · rintro rfl
      exact other mineId
    · intro equal
      rw [equal] at other
      exact other setId

theorem serve_answered (laid : srv.t.Laid) (short : Styx.Short srv.t.user) (held : Held srv.t)
    {gm : Tmsg} (inRange : gm.InRange) (real : ∀ error, gm.pick ≠ .readerror error)
    (file : ∀ fid offset count c, gm.pick = .read fid offset count →
      srv.canread fid offset count = .ok c → isdir (TYPE c.path) = false) :
    Answered [gm.tag] srv.t (serve srv gm) := by
  have ⟨tag, pick⟩ := gm
  have library : (∀ fid offset count, pick ≠ .read fid offset count) →
      Answered [tag] srv.t (handled (srv.default navigator Qroot 0 ⟨tag, pick⟩)) := by
    intro noRead
    refine handled_answered held (default_answers (polite laid short) Qroot 0 ⟨real, noRead, ?_⟩)
    rintro fid newfid names is
    have same : pick = .walk fid newfid names := is
    subst same
    have few : names.length ≤ 16 := inRange.2.2.2.1
    omega
  cases pick with
  | read fid offset count =>
    exact serveread_answered tag held fun c => file fid offset count c rfl
  | write fid offset data => exact servewrite_answered tag fid offset data held
  | clunk fid => exact handled_answered held (clunk_answers fid)
  | remove fid => exact handled_answered held (remove_answers fid)
  | readerror error => exact absurd rfl (real error)
  | version _ _ => exact library nofun
  | auth _ _ _ => exact library nofun
  | attach _ _ _ _ => exact library nofun
  | flush _ => exact library nofun
  | walk _ _ _ => exact library nofun
  | «open» _ _ => exact library nofun
  | create _ _ _ _ => exact library nofun
  | stat _ => exact library nofun
  | wstat _ _ => exact library nofun

/-! ### Runs -/

/-- The server, the tags of the requests and of the replies, and the activities that there are. -/
structure Run where
  srv : Styxserver Board
  asked : List Nat
  answered : List Nat
  exist : List Int

def Run.board (r : Run) : Board := r.srv.t

/-- `init`, with what is in `/dev/user`. -/
def begun (bytes : List Nat) : Run := ⟨start bytes, [], [], []⟩

def asks : Step → List Nat
  | .request gm => [gm.tag]
  | _ => []

def perform (r : Run) (a : Step) : Option Run :=
  (step r.srv a).map fun (srv, sent) =>
    ⟨srv, r.asked ++ asks a, r.answered ++ sent.map (·.tag), activities r.exist a⟩

/-- There is room for the activities that come, each of them is new or still there, and no
directory is read. -/
def Spared (srv : Styxserver Board) : Step → Prop
  | .sync info _ => SparedSync srv.t (listed info)
  | .event ev _ => SparedEvent srv.t (strip ev)
  | .request gm => gm.InRange ∧ (∀ error, gm.pick ≠ .readerror error) ∧
      ∀ fid offset count c, gm.pick = .read fid offset count →
        srv.canread fid offset count = .ok c → isdir (TYPE c.path) = false

inductive Later (r : Run) : Run → Prop
  | refl : Later r r
  | step {r' r'' : Run} {a : Step} (later : Later r r') (spared : Spared r'.srv a)
      (performs : perform r' a = some r'') : Later r r''

/-- The dashboard as it is meant to be served. -/
structure Consistent (r : Run) : Prop where
  /-- Every step that is spared can be done. -/
  answers : ∀ a, Spared r.srv a → (perform r a).isSome = true
  /-- Each request has one reply, or is a read that waits for an event. -/
  replies : ∀ tag, r.asked.count tag =
    r.answered.count tag + (r.board.pending.map (·.tag)).count tag
  /-- A directory lists the files that a walk reaches, as the walk gives them, each once. -/
  listings : ∀ p, Directory r.board p → ∃ listing : List Dir,
    (∀ offset count, readdir r.board p offset count = (listing.drop offset).take count) ∧
    (listing.map (·.qid.path)).Nodup ∧
    ∀ f, f ∈ listing ↔ ∃ name, name ≠ str ".." ∧ (walk r.board p name).1 = some f
  /-- The directory of the tasks lists the activities that there are. -/
  tasks : ∀ id, id ∈ r.exist ↔
    ∃ f ∈ readdir r.board Qtaskdir 0 (entries r.board Qtaskdir).length, f.name = decimal id
  /-- A walk to a task gives a path of this task. -/
  walked : ∀ p name f, TYPE p = Qtaskdir → name ≠ str ".." → (walk r.board p name).1 = some f →
    owner r.board f.qid.path = some (Strings.toint name).1
  /-- A walk within a task stays there. -/
  within : ∀ p name f id, owner r.board p = some id → name ≠ str ".." →
    (walk r.board p name).1 = some f → owner r.board f.qid.path = some id
  /-- A read of a file of a task is of this task. -/
  reads : ∀ tag fid offset count c id, r.srv.canread fid offset count = .ok c →
    isdir (TYPE c.path) = false → owner r.board c.path = some id →
    ∃ te ∈ r.board.tasks, te.id = id ∧ ∃ val, subfile te (suboffof (TYPE c.path)) = some val ∧
      serve r.srv ⟨tag, .read fid offset count⟩ = one r.srv (readstr tag offset count val)
  /-- A write to a file of a task leaves the other tasks as they are. -/
  writes : ∀ tag fid offset data c id, canwrite r.srv fid offset = .ok c →
    owner r.board c.path = some id → ∀ srv sent,
    serve r.srv ⟨tag, .write fid offset data⟩ = some (srv, sent) →
    ∀ te : TaskEntry, te.id ≠ id → (te ∈ srv.t.tasks ↔ te ∈ r.board.tasks)

structure Inv (r : Run) : Prop where
  short : Styx.Short r.board.user
  laid : r.board.Laid
  held : Held r.board
  shows : Shows r.board r.exist
  replies : ∀ tag, r.asked.count tag =
    r.answered.count tag + (r.board.pending.map (·.tag)).count tag

/-- What a step does to what there is to be invariant. -/
structure Moves (b : Board) (exist : List Int) (a : Step) (srv : Styxserver Board)
    (sent : List Rmsg) : Prop where
  user : srv.t.user = b.user
  laid : srv.t.Laid
  held : Held srv.t
  shows : Shows srv.t (activities exist a)
  balanced : Balanced (asks a) b sent srv.t
  stays : ∀ te ∈ b.tasks, ∃ te' ∈ srv.t.tasks, te'.id = te.id ∧ te'.qbase = te.qbase

theorem Moves.of_kept (grows : Grows b b' exist (activities exist a)) (shown : Shows b exist)
    (kept : Kept b' srv.t) (held : Held srv.t) (balanced : Balanced (asks a) b sent srv.t) :
    Moves b exist a srv sent where
  user := kept.user.trans grows.user
  laid := by
    unfold Board.Laid
    rw [kept.keys, kept.next]
    exact grows.laid
  held := held
  shows := (grows.shows shown).same kept.keys
  balanced := balanced
  stays te member := by
    have ⟨te', member', id, base⟩ := grows.stays te member
    obtain ⟨te'', member'', id', base', -⟩ := key_back kept.keys te' member'
    exact ⟨te'', member'', id'.trans id, base'.trans base⟩

theorem step_moves (short : Styx.Short srv.t.user) (laid : srv.t.Laid) (held : Held srv.t)
    (shown : Shows srv.t exist) (spared : Spared srv a) :
    ∃ srv' sent, step srv a = some (srv', sent) ∧ Moves srv.t exist a srv' sent := by
  cases a with
  | sync _ ui =>
    have grows := grows_initialsync laid exist ui spared
    have pending := grows.pending
    refine ⟨_, _, rfl, Moves.of_kept grows shown (Kept.refl _) ?_ ?_⟩
    · unfold Held
      rw [pending]
      exact held
    · intro tag
      rw [pending]
      rfl
  | event ev ui =>
    have grows := grows_event laid shown ui spared
    have pending := grows.pending
    rcases happens : handleuievent ui srv.t (strip ev) with ⟨b, pushed⟩
    rw [happens] at grows pending
    have pending' : b.pending = srv.t.pending := pending
    have held' : Held b := by
      unfold Held
      rw [pending']
      exact held
    cases pushed with
    | none =>
      have stepped : step srv (.event ev ui) = some ({ srv with t := b }, []) := by
        rw [step, happens]
      refine ⟨_, _, stepped, Moves.of_kept grows shown (Kept.refl _) held' ?_⟩
      intro tag
      rw [← pending']
      rfl
    | some msg =>
      have stepped : step srv (.event ev ui) = pushevent { srv with t := b } msg := by
        rw [step, happens]
      obtain ⟨srv', sent, push, kept, none_, tags⟩ :=
        pushevent_all { srv with t := b } msg held'
      refine ⟨srv', sent, stepped.trans push, Moves.of_kept grows shown kept ?_ ?_⟩
      · intro _ member
        rw [none_] at member
        exact absurd member not_mem_nil
      · intro _
        rw [none_, tags, ← pending']
        exact Nat.add_comm _ _
  | request _ =>
    obtain ⟨inRange, real, file⟩ := spared
    obtain ⟨srv', sent, served, kept, held', balanced⟩ :=
      serve_answered laid short held inRange real file
    exact ⟨srv', sent, served, Moves.of_kept (Grows.same exist laid rfl rfl rfl rfl) shown kept
      held' balanced⟩

variable {r : Run}

theorem perform_moves (inv : Inv r) (spared : Spared r.srv a) :
    ∃ r', perform r a = some r' ∧ Inv r' ∧
      ∀ te ∈ r.board.tasks, ∃ te' ∈ r'.board.tasks, te'.id = te.id ∧ te'.qbase = te.qbase := by
  have ⟨srv, sent, stepped, moves⟩ := step_moves inv.short inv.laid inv.held inv.shows spared
  refine ⟨⟨srv, r.asked ++ asks a, r.answered ++ sent.map (·.tag), activities r.exist a⟩, ?_,
    ⟨?_, moves.laid, moves.held, moves.shows, ?_⟩, moves.stays⟩
  · unfold perform
    rw [stepped]
    rfl
  · show Styx.Short srv.t.user
    rw [moves.user]
    exact inv.short
  intro tag
  have before := inv.replies tag
  have now := moves.balanced tag
  rw [count_append, count_append]
  show _ = _ + (srv.t.pending.map (·.tag)).count tag
  unfold Run.board at before
  omega

theorem utflen_le (s : Str) : utflen s ≤ 3 * s.length := by
  have first := countP_le_length (p := fun c => decide (0x7F < c)) (l := s)
  have second := countP_le_length (p := fun c => decide (0x7FF < c)) (l := s)
  unfold utflen
  omega

theorem length_strip (s : Str) : (strip s).length ≤ s.length := by
  have same : s.reverse.length = s.length := length_reverse
  unfold strip
  rw [length_reverse, ← same]
  exact (dropWhile_suffix _).length_le

theorem short_username (bytes : List Nat) : Styx.Short (username bytes) := by
  have named : (if readfile bytes = [] then str "inferno" else readfile bytes).length ≤ 8192 := by
    split_ifs
    · decide
    · refine le_trans (Lib9.length_c2string_le _) ?_
      rw [length_take]
      exact Nat.min_le_left _ _
  have stripped := le_trans (length_strip _) named
  have bound := utflen_le (username bytes)
  have length : (username bytes).length ≤ 8192 := stripped
  unfold Styx.Short
  omega

theorem inv_begun (bytes : List Nat) : Inv (begun bytes) where
  short := short_username bytes
  laid := by
    refine ⟨nodup_nil, nodup_nil, nofun, nofun, 0, rfl, ?_⟩
    show (100 : Int) ≤ 65536
    omega
  held := nofun
  shows := fun id => ⟨nofun, fun ⟨te, member, _⟩ => absurd member not_mem_nil⟩
  replies := fun tag => rfl

theorem later_inv {r' : Run} (inv : Inv r) (later : Later r r') :
    Inv r' ∧ ∀ te ∈ r.board.tasks, ∃ te' ∈ r'.board.tasks,
      te'.id = te.id ∧ te'.qbase = te.qbase := by
  induction later with
  | refl => exact ⟨inv, fun te member => ⟨te, member, rfl, rfl⟩⟩
  | step _ spared performs ih =>
    have ⟨inv', stays⟩ := ih
    have ⟨_, performs', inv'', stays'⟩ := perform_moves inv' spared
    rw [performs] at performs'
    cases performs'
    refine ⟨inv'', fun te member => ?_⟩
    have ⟨te', member', id, base⟩ := stays te member
    have ⟨te'', member'', id', base'⟩ := stays' te' member'
    exact ⟨te'', member'', id'.trans id, base'.trans base⟩

/-! ### What every state has -/

theorem exists_listing {α β : Type} {g : α → Option β} {l : List α}
    (all : ∀ a ∈ l, (g a).isSome = true) : ∃ listing : List β, l.map g = listing.map some := by
  induction l with
  | nil => exact ⟨[], rfl⟩
  | cons a _ ih =>
    have ⟨rest, same⟩ := ih fun a' member =>
      all a' (mem_cons_of_mem a member)
    have ⟨d, is⟩ := isSome_iff_exists.1 (all a mem_cons_self)
    exact ⟨d :: rest, by rw [map_cons, map_cons, is, same]⟩

theorem entries_nodup (laid : b.Laid) (directory : Directory b p) : (entries b p).Nodup := by
  rcases directory_cases laid directory with root | tasks | ⟨te, member, here⟩
  · rw [entries_root root]
    decide
  · rw [entries_taskdir tasks]
    have bases : (b.tasks.map fun te => te.qbase).Nodup := by
      have bases := laid.bases
      rw [List.map_map] at bases
      exact bases
    have shown : ((b.tasks.filter fun te => !te.hidden).map fun te => te.qbase).Nodup :=
      List.Nodup.sublist (filter_sublist.map _) bases
    have same : ((b.tasks.filter fun te => !te.hidden).map fun te => te.qbase) =
        ((b.tasks.filter fun te => !te.hidden).map fun te => big te.qbase).map
          fun q : Nat => (q : Int) := by
      rw [List.map_map]
      refine map_congr_left fun te member => ?_
      have inTasks := (mem_filter.1 member).1
      obtain ⟨-, -, -, -, base⟩ := path_parts laid inTasks (k := 0) (by omega)
      exact base
    rw [same] at shown
    exact List.Nodup.of_map _ shown
  · rw [entries_task laid member here]
    exact List.Nodup.map (fun k k' same => Nat.add_left_cancel same) nodup_range'

theorem listing_of (laid : b.Laid) (directory : Directory b p) :
    ∃ listing : List Dir,
      (∀ offset count, readdir b p offset count = (listing.drop offset).take count) ∧
      (listing.map (·.qid.path)).Nodup ∧
      ∀ f, f ∈ listing ↔ ∃ name, name ≠ str ".." ∧ (walk b p name).1 = some f := by
  have ⟨listing, same⟩ := exists_listing (entries_some laid directory)
  have pieces : ∀ offset count,
      readdir b p offset count = (listing.drop offset).take count := by
    intro _ _
    rw [readdir_eq laid directory]
    show List.filterMap (id ∘ fun q => (dirgen b q).1) _ = _
    rw [← filterMap_map, map_take, map_drop, same, ← map_drop,
      ← map_take, filterMap_map]
    exact filterMap_some
  refine ⟨listing, pieces, ?_, ?_⟩
  · have paths : listing.map (·.qid.path) = entries b p := by
      have back : ((entries b p).map fun q => (dirgen b q).1).map
          (Option.map fun f : Dir => f.qid.path) = (entries b p).map some := by
        rw [List.map_map]
        refine map_congr_left fun q member => ?_
        have ⟨f, is⟩ := isSome_iff_exists.1 (entries_some laid directory q member)
        show Option.map _ (dirgen b q).1 = some q
        rw [is]
        exact congrArg some (dirgen_path is)
      rw [same, List.map_map] at back
      refine map_injective_iff.2 (some_injective Nat) ?_
      rw [List.map_map]
      exact back
    rw [paths]
    exact entries_nodup laid directory
  · intro _
    rw [← mem_readdir_iff laid directory, pieces, drop_zero, take_of_length_le]
    have lengths := congrArg List.length same
    rw [length_map, length_map] at lengths
    exact le_of_eq lengths.symm

theorem directory_tasks (b : Board) : Directory b Qtaskdir := ⟨_, rfl, rfl⟩

theorem mem_tasks_iff (laid : b.Laid) (shown : Shows b exist) (id : Int) : id ∈ exist ↔
      ∃ f ∈ readdir b Qtaskdir 0 (entries b Qtaskdir).length, f.name = decimal id := by
  rw [shown id]
  constructor
  · rintro ⟨te, member, is, hidden⟩
    have ⟨f, there, named⟩ := dirgen_task laid member (k := 0) (by omega)
    refine ⟨f, (mem_readdir laid (directory_tasks b)).2 ⟨big te.qbase, ?_, there⟩, ?_⟩
    · rw [entries_taskdir rfl]
      refine mem_map_of_mem (mem_filter.2 ⟨member, ?_⟩)
      rw [hidden]
      rfl
    · rw [named rfl, is]
  rintro ⟨f, member, named⟩
  have ⟨_, member, there⟩ := (mem_readdir laid (directory_tasks b)).1 member
  rw [entries_taskdir rfl] at member
  obtain ⟨te, showing, rfl⟩ := mem_map.1 member
  have ⟨inTasks, shows⟩ := mem_filter.1 showing
  have ⟨f', there', named'⟩ := dirgen_task laid inTasks (k := 0) (by omega)
  have same : f' = f := Option.some.inj (there'.symm.trans there)
  subst same
  refine ⟨te, inTasks, decimal_injective ((named' rfl).symm.trans named), ?_⟩
  exact Bool.not_eq_true' te.hidden ▸ shows

theorem owner_task (laid : b.Laid) (member : te ∈ b.tasks) (small : k < 9) :
    owner b (big te.qbase + k) = some te.id := by
  obtain ⟨type, high, base, -, same⟩ := path_parts laid member small
  refine (owner_iff laid).2 ⟨by rw [type]; exact high, te, member, rfl, ?_⟩
  rw [type, base]
  exact same

theorem owner_walked (laid : b.Laid) {f : Dir} (tasks : TYPE p = Qtaskdir)
    (noDots : name ≠ str "..") (there : (walk b p name).1 = some f) :
    owner b f.qid.path = some (Strings.toint name).1 := by
  rw [walk_taskdir_eq tasks noDots] at there
  cases found : findtask b.tasks (Strings.toint name).1 with
  | none =>
    rw [found] at there
    cases there
  | some _ =>
    rw [found] at there
    dsimp only at there
    have ⟨member, is⟩ := mem_findtask found
    split_ifs at there
    rw [dirgen_path there, ← is]
    exact owner_task laid member (k := 0) (by omega)

theorem owner_within (laid : b.Laid) {f : Dir} (owned : owner b p = some id)
    (noDots : name ≠ str "..") (there : (walk b p name).1 = some f) :
    owner b f.qid.path = some id := by
  obtain ⟨high, te, member, rfl, base⟩ := (owner_iff laid).1 owned
  have high' : 100 ≤ TYPE p := high
  by_cases atdir : suboffof (TYPE p) = Qt_dir
  · have here : TYPE p = big te.qbase := by
      obtain ⟨-, -, -, -, _⟩ := path_parts laid member (k := 0) (by omega)
      have base' : te.qbase = ((100 + (TYPE p - 100) / 9 * 9 : Nat) : Int) := base
      have atdir' : (TYPE p - 100) % 9 = 0 := atdir
      omega
    have ⟨_, inEntries, there'⟩ := (walk_task laid member here).1 ⟨name, noDots, there⟩
    rw [entries_task laid member here] at inEntries
    obtain ⟨_, numbers, rfl⟩ := mem_map.1 inEntries
    have bounds := mem_range'_1.1 numbers
    rw [dirgen_path there']
    exact owner_task laid member (by omega)
  · unfold walk at there
    dsimp only at there
    rw [if_neg (by unfold Qroot; omega), if_neg (by unfold Qtaskdir; omega), if_pos high,
      if_pos (show (TYPE p - Qtaskbase) % TASK_STRIDE ≠ Qt_dir from atdir)] at there
    cases there

theorem consistent_of_inv (inv : Inv r) : Consistent r where
  answers a spared := by
    obtain ⟨_, performs, -⟩ := perform_moves inv spared
    exact isSome_of_eq_some performs
  replies := inv.replies
  listings p directory := listing_of inv.laid directory
  tasks := mem_tasks_iff inv.laid inv.shows
  walked p name f tasks noDots there := owner_walked inv.laid tasks noDots there
  within p name f id owned noDots there := owner_within inv.laid owned noDots there
  reads tag fid offset count c id able file owned := by
    have ⟨high, te, member, is, base⟩ := (owner_iff inv.laid).1 owned
    exact ⟨te, member, is,
      serveread_task tag able file high (findbase_some inv.laid member base)⟩
  writes tag fid offset data c id able owned srv sent served te other :=
    servewrite_apart inv.laid able owned served other

/-- A run that is spared what goes wrong serves a consistent tree, and a path of a file of one task
stays with this task. -/
theorem dashboard_consistent {bytes : List Nat} {r : Run} (later : Later (begun bytes) r) :
    Consistent r ∧ ∀ r', Later r r' → ∀ p id, owner r.board p = some id →
      owner r'.board p = some id := by
  obtain ⟨inv, -⟩ := later_inv (inv_begun bytes) later
  refine ⟨consistent_of_inv inv, ?_⟩
  intro _ later' _ _ owned
  have ⟨inv', stays⟩ := later_inv inv later'
  have ⟨high, te, member, is, base⟩ := (owner_iff inv.laid).1 owned
  have ⟨te', member', id', base'⟩ := stays te member
  exact (owner_iff inv'.laid).2 ⟨high, te', member', id'.trans is, base'.trans base⟩

/-- The files of a task in the user interface. -/
def labelled (_ : Int) : Files := ⟨str "Report", [], [], []⟩

/-- A task comes, and the server is asked for its version. -/
theorem dashboard_consistent_begun : ∃ r, [Step.event (str "activity new 1\n") labelled,
    .request ⟨65535, .version 8192 (str "9P2000")⟩].foldlM perform (begun []) = some r ∧
      Consistent r := by
  have room : (100 : Int) + 9 ≤ 65536 := by omega
  have first := Later.step (a := .event (str "activity new 1\n") labelled)
    (Later.refl (r := begun [])) (fun _ _ => room) rfl
  have second := Later.step (a := .request ⟨65535, .version 8192 (str "9P2000")⟩) first
    ⟨⟨by decide, by decide, fun c member => by revert c; decide, by decide⟩, nofun, nofun⟩ rfl
  exact ⟨_, rfl, (dashboard_consistent second).1⟩

/-- A task is deleted and comes again; the directory of the tasks does not list it. -/
theorem dashboard_inconsistent : ∃ r, [Step.event (str "activity new 1\n") labelled,
    .event (str "activity delete 1\n") labelled,
    .event (str "activity new 1\n") labelled].foldlM perform (begun []) = some r ∧
      ¬Consistent r := by
  have ⟨r, performs, empty⟩ := map_eq_some_iff.1
    (by decide +kernel : ([Step.event (str "activity new 1\n") labelled,
      .event (str "activity delete 1\n") labelled,
      .event (str "activity new 1\n") labelled].foldlM perform (begun [])).map
        (fun r => (readdir r.board Qtaskdir 0 (entries r.board Qtaskdir).length, r.exist)) =
      some ([], [1]))
  refine ⟨r, performs, fun consistent => ?_⟩
  have parts := Prod.mk.inj empty
  have there : (1 : Int) ∈ r.exist := by
    rw [parts.2]
    exact mem_singleton_self 1
  obtain ⟨_, member, -⟩ := (consistent.tasks 1).1 there
  rw [parts.1] at member
  exact absurd member not_mem_nil

end Infernode.Dashboard
