import Infernode.Styx.Answers
import Infernode.Veltro.Dashtree

/-!
The steps of the dashboard.

Owns: what an event needs, and that it moves no entry and shows the activities that there are; that
a request gets one reply, a read of a directory apart.
-/

namespace Infernode.Dashboard

open Text Styx Lib9 List

/-! ### Events -/

def Shows (b : Board) (exist : List Int) : Prop :=
  ∀ id, id ∈ exist ↔ ∃ te ∈ b.tasks, te.id = id ∧ te.hidden = false

/-- What an event does to the board: no entry moves, and the ones that show are these. -/
structure Grows (b b' : Board) (exist exist' : List Int) : Prop where
  user : b'.user = b.user
  pending : b'.pending = b.pending
  laid : b'.Laid
  stays : ∀ te ∈ b.tasks, ∃ te' ∈ b'.tasks, te'.id = te.id ∧ te'.qbase = te.qbase
  shows : Shows b exist → Shows b' exist'

variable {b : Board} {exist : List Int} {tasks : List TaskEntry} {id : Int}
    {change : TaskEntry → TaskEntry} {srv : Styxserver Board}

variable {b' : Board} {exist' : List Int} {n : Int} {tag fid offset count : Nat}

theorem Grows.trans {b'' : Board} {exist'' : List Int} (first : Grows b b' exist exist')
    (second : Grows b' b'' exist' exist'') :
    Grows b b'' exist exist'' where
  user := second.user.trans first.user
  pending := second.pending.trans first.pending
  laid := second.laid
  stays te member := by
    have ⟨te', member', id, base⟩ := first.stays te member
    have ⟨te'', member'', id', base'⟩ := second.stays te' member'
    exact ⟨te'', member'', id'.trans id, base'.trans base⟩
  shows shown := second.shows (first.shows shown)

theorem key_back {tasks' : List TaskEntry} (same : tasks'.map key = tasks.map key) :
    ∀ te ∈ tasks, ∃ te' ∈ tasks', te'.id = te.id ∧ te'.qbase = te.qbase ∧
      te'.hidden = te.hidden := by
  intro te member
  have there := mem_map_of_mem (f := key) member
  rw [← same] at there
  have ⟨te', member', equal⟩ := mem_map.1 there
  have parts := Prod.mk.inj (show (te'.id, te'.qbase, te'.hidden) = (te.id, te.qbase, te.hidden)
    from equal)
  have parts' := Prod.mk.inj parts.2
  exact ⟨te', member', parts.1, parts'.1, parts'.2⟩

theorem Shows.same {b b' : Board} {exist : List Int} (shown : Shows b exist)
    (same : b'.tasks.map key = b.tasks.map key) : Shows b' exist := by
  intro id
  rw [shown id]
  constructor
  · rintro ⟨te, member, is, hidden⟩
    obtain ⟨te', member', id', -, hidden'⟩ := key_back same te member
    exact ⟨te', member', id'.trans is, hidden'.trans hidden⟩
  · rintro ⟨te, member, is, hidden⟩
    obtain ⟨te', member', id', -, hidden'⟩ := key_back same.symm te member
    exact ⟨te', member', id'.trans is, hidden'.trans hidden⟩

/-- A step that changes the texts of entries only. -/
theorem Grows.same {b b' : Board} (exist : List Int) (laid : b.Laid) (user : b'.user = b.user)
    (pending : b'.pending = b.pending) (keys : b'.tasks.map key = b.tasks.map key)
    (next : b'.nextqid = b.nextqid) : Grows b b' exist exist where
  user := user
  pending := pending
  laid := by
    unfold Board.Laid
    rw [keys, next]
    exact laid
  stays te member := by
    obtain ⟨te', member', id, base, -⟩ := key_back keys te member
    exact ⟨te', member', id, base⟩
  shows shown := shown.same keys

theorem toint_small (low : 0 ≤ n) (high : n < 2147483648) : toint n = n := by
  have inWord : InWord n := by
    unfold InWord
    omega
  exact wrap_of_inWord inWord

theorem grows_addtask (laid : b.Laid) (exist : List Int) (fresh : findtask b.tasks id = none)
    (inRange : 0 < id ∧ id < 2147483648) (room : b.nextqid + 9 ≤ 65536) :
    Grows b (addtask b id) exist (id :: exist) where
  user := rfl
  pending := rfl
  laid := by
    obtain ⟨_, _, -⟩ := laid.next
    have next : (addtask b id).nextqid = b.nextqid + 9 := by
      show toint (b.nextqid + 9) = _
      exact toint_small (by omega) (by omega)
    unfold Board.Laid
    rw [next]
    exact laid_add laid (findtask_none fresh) inRange room
  stays te member := ⟨te, mem_cons_of_mem _ member, rfl, rfl⟩
  shows shown := by
    intro other
    rw [mem_cons, shown other]
    constructor
    · rintro (rfl | ⟨te, member, is, hidden⟩)
      · exact ⟨_, mem_cons_self, rfl, rfl⟩
      · exact ⟨te, mem_cons_of_mem _ member, is, hidden⟩
    rintro ⟨te, member, is, hidden⟩
    rcases mem_cons.1 member with rfl | older
    · exact Or.inl is.symm
    · exact Or.inr ⟨te, older, is, hidden⟩

theorem update_absent (absent : id ∉ tasks.map fun te => te.id) :
    tasks.map (fun te => if te.id = id then change te else te) = tasks := by
  have kept : ∀ te ∈ tasks, (if te.id = id then change te else te) = te := by
    intro _ member
    refine if_neg fun same => absent ?_
    rw [← same]
    exact mem_map_of_mem member
  rw [map_congr_left kept, map_id']

theorem update_eq_map (nodup : (tasks.map fun te => te.id).Nodup) :
    update (·.id == id) change tasks =
      tasks.map fun te => if te.id = id then change te else te := by
  induction tasks with
  | nil => rfl
  | cons te _ ih =>
    rw [map_cons, nodup_cons] at nodup
    unfold update
    by_cases same : te.id = id
    · rw [if_pos (beq_iff_eq.2 same), map_cons, if_pos same,
        update_absent (same ▸ nodup.1)]
    · rw [if_neg (fun equal => same (beq_iff_eq.1 equal)), map_cons, if_neg same,
        ih nodup.2]

theorem map_hide (id : Int) (tasks : List TaskEntry) :
    (update (·.id == id) (fun te => { te with hidden := true }) tasks).map
      (fun te => (te.id, te.qbase)) = tasks.map fun te => (te.id, te.qbase) := by
  apply map_update
  intro _
  rfl

theorem grows_hide (laid : b.Laid) (id : Int) (exist : List Int) :
    Grows b { b with tasks := update (·.id == id) (fun te => { te with hidden := true }) b.tasks }
      exist (exist.filter (· ≠ id)) where
  user := rfl
  pending := rfl
  laid := by
    refine Laid.mono laid ?_
    show ((update _ _ b.tasks).map key).map (fun k => (k.1, k.2.1)) =
      (b.tasks.map key).map fun k => (k.1, k.2.1)
    rw [map_map, map_map]
    exact map_hide id b.tasks
  stays te member := by
    have there := mem_map_of_mem (f := fun te : TaskEntry => (te.id, te.qbase)) member
    rw [← map_hide id b.tasks] at there
    have ⟨te', member', equal⟩ := mem_map.1 there
    have parts := Prod.mk.inj (show (te'.id, te'.qbase) = (te.id, te.qbase) from equal)
    exact ⟨te', member', parts.1, parts.2⟩
  shows shown := by
    have nodup : (b.tasks.map fun te => te.id).Nodup := by
      have ids := laid.ids
      rw [map_map] at ids
      exact ids
    intro other
    rw [mem_filter, shown other]
    show _ ↔ ∃ te ∈ update (·.id == id) (fun te => { te with hidden := true }) b.tasks, _
    rw [update_eq_map nodup]
    constructor
    · rintro ⟨⟨te, member, is, hidden⟩, different⟩
      have kept : te.id ≠ id := by
        rw [is]
        exact of_decide_eq_true different
      exact ⟨te, mem_map.2 ⟨te, member, if_neg kept⟩, is, hidden⟩
    rintro ⟨te, member, is, hidden⟩
    have ⟨old, inTasks, changed⟩ := mem_map.1 member
    by_cases same : old.id = id
    · rw [if_pos same] at changed
      rw [← changed] at hidden
      cases hidden
    rw [if_neg same] at changed
    subst changed
    refine ⟨⟨old, inTasks, is, hidden⟩, decide_eq_true ?_⟩
    rw [← is]
    exact same

theorem grows_sync (laid : b.Laid) (exist : List Int) {here : TaskEntry → Bool}
    (same : ∀ te, key (change te) = key te) :
    Grows b { b with tasks := update here change b.tasks } exist exist :=
  Grows.same exist laid rfl rfl (map_update same b.tasks) rfl

theorem grows_render (grows : Grows b b' exist exist') : Grows b (rendersummary b') exist exist' :=
  grows.trans (Grows.same exist' grows.laid rfl rfl rfl rfl)

def activities (exist : List Int) : Step → List Int
  | .sync info _ => (listed info).reverse ++ exist
  | .event ev _ =>
    let ev := strip ev
    if Strings.hasprefix ev (str "activity new ") then
      let id := idof ev (str "activity new ")
      if 0 < id ∧ id ∉ exist then id :: exist else exist
    else if Strings.hasprefix ev (str "activity delete ") then
      exist.filter (· ≠ idof ev (str "activity delete "))
    else exist
  | .request _ => exist

def SparedEvent (b : Board) (ev : Str) : Prop :=
  Strings.hasprefix ev (str "activity new ") = true →
    0 < idof ev (str "activity new ") →
    match findtask b.tasks (idof ev (str "activity new ")) with
    | none => b.nextqid + TASK_STRIDE ≤ 65536
    | some te => te.hidden = false

theorem grows_event (laid : b.Laid) (shown : Shows b exist) {ev : Str} (ui : Int → Files)
    (spared : SparedEvent b (strip ev)) :
    Grows b (handleuievent ui b (strip ev)).1 exist (activities exist (.event ev ui)) := by
  have none_ : Grows b b exist exist := Grows.same exist laid rfl rfl rfl rfl
  unfold handleuievent activities
  dsimp only
  by_cases new : Strings.hasprefix (strip ev) (str "activity new ") = true
  · rw [if_pos new, if_pos new]
    by_cases positive : 0 < idof (strip ev) (str "activity new ")
    · have spared' := spared new positive
      rw [if_pos positive]
      cases found : findtask b.tasks (idof (strip ev) (str "activity new ")) with
      | none =>
        rw [found] at spared'
        have absent : idof (strip ev) (str "activity new ") ∉ exist := by
          intro member
          obtain ⟨te, member, is, -⟩ := (shown _).1 member
          rw [← is, findtask_some laid member] at found
          cases found
        rw [if_pos (show (none : Option TaskEntry).isNone = true from rfl),
          if_pos ⟨positive, absent⟩]
        have added := grows_addtask laid exist found ⟨positive, inRange_toint _⟩ spared'
        exact grows_render (added.trans (grows_sync added.laid _ (key_syncnew _)))
      | some te =>
        rw [found] at spared'
        have present : idof (strip ev) (str "activity new ") ∈ exist :=
          (shown _).2 ⟨te, (mem_findtask found).1, (mem_findtask found).2, spared'⟩
        rw [if_neg (show ¬(some te).isNone = true from Bool.false_ne_true),
          if_neg (fun both => both.2 present)]
        exact grows_render (grows_sync laid exist (key_syncnew _))
    · rw [if_neg positive, if_neg (fun both => positive both.1)]
      exact none_
  · rw [if_neg new, if_neg new]
    by_cases delete : Strings.hasprefix (strip ev) (str "activity delete ") = true
    · rw [if_pos delete, if_pos delete]
      by_cases positive : 0 < idof (strip ev) (str "activity delete ")
      · rw [if_pos positive]
        exact grows_render (grows_hide laid _ exist)
      rw [if_neg positive]
      have absent : ∀ id ∈ exist, id ≠ idof (strip ev) (str "activity delete ") := by
        rintro id member rfl
        obtain ⟨te, member, is, -⟩ := (shown _).1 member
        have above := (laid.positive (key te) (mem_map_of_mem member)).1
        exact positive (is ▸ above)
      rw [filter_eq_self.2 fun id member => decide_eq_true (absent id member)]
      exact none_
    · rw [if_neg delete, if_neg delete]
      by_cases activity : Strings.hasprefix (strip ev) (str "activity ") = true
      · rw [if_pos activity]
        by_cases urgency : Strings.hasprefix (strip ((strip ev).drop 9)) (str "urgency ") = true
        · rw [if_pos urgency]
          by_cases positive : 0 < idof (strip ((strip ev).drop 9)) (str "urgency ")
          · rw [if_pos positive]
            cases findtask b.tasks (idof (strip ((strip ev).drop 9)) (str "urgency ")) with
            | none => exact none_
            | some _ => exact grows_render (grows_sync laid exist (key_synctask _))
          · rw [if_neg positive]
            exact none_
        rw [if_neg urgency]
        refine Grows.same exist laid rfl rfl ?_ rfl
        show (b.tasks.map fun te => if te.hidden then te else synctask (ui te.id) te).map key = _
        rw [map_map]
        refine map_congr_left fun te _ => ?_
        show key (if te.hidden then te else synctask (ui te.id) te) = key te
        split_ifs
        · rfl
        · exact key_synctask _ te
      · rw [if_neg activity]
        exact none_

def SparedSync (b : Board) (ids : List Int) : Prop :=
  ids.Nodup ∧ (∀ id ∈ ids, findtask b.tasks id = none) ∧
    b.nextqid + TASK_STRIDE * ids.length ≤ 65536

theorem grows_syncs (ui : Int → Files) (ids : List Int)
    (inRange : ∀ id ∈ ids, 0 < id ∧ id < 2147483648) : ∀ {b : Board} (exist : List Int),
    b.Laid → SparedSync b ids → Grows b (ids.foldl (syncone ui) b) exist (ids.reverse ++ exist) := by
  induction ids with
  | nil => exact fun exist laid _ => Grows.same exist laid rfl rfl rfl rfl
  | cons id rest ih =>
    intro b exist laid spared
    have ⟨nodup, fresh, room⟩ := spared
    rw [nodup_cons] at nodup
    have room' : b.nextqid + 9 * (rest.length + 1 : Nat) ≤ 65536 := room
    have added := grows_addtask laid exist (fresh id mem_cons_self)
      (inRange id mem_cons_self) (by omega)
    have synced : Grows b (syncone ui b id) exist (id :: exist) :=
      added.trans (grows_sync added.laid _ (key_syncnew _))
    have others := ih (fun other member =>
      inRange other (mem_cons_of_mem id member)) (id :: exist) synced.laid ?_
    · rw [foldl_cons, reverse_cons, append_assoc]
      exact synced.trans others
    have keys : ((syncone ui b id).tasks.map fun te => te.id) =
        id :: b.tasks.map fun te => te.id :=
      map_update (fun te => congrArg Prod.fst (key_syncnew (ui id) te)) _
    refine ⟨nodup.2, ?_, ?_⟩
    · intro other member
      have absent : other ∉ (syncone ui b id).tasks.map fun te => te.id := by
        rw [keys, mem_cons]
        rintro (rfl | older)
        · exact nodup.1 member
        have ⟨te, there, is⟩ := mem_map.1 older
        have none_ := fresh other (mem_cons_of_mem id member)
        rw [← is, findtask_some laid there] at none_
        cases none_
      refine find?_eq_none.2 fun te there is => absent ?_
      rw [← beq_iff_eq.1 is]
      exact mem_map_of_mem there
    · obtain ⟨_, _, -⟩ := laid.next
      have next : (syncone ui b id).nextqid = b.nextqid + 9 := by
        show toint (b.nextqid + 9) = _
        exact toint_small (by omega) (by omega)
      rw [next]
      show b.nextqid + 9 + 9 * (rest.length : Int) ≤ 65536
      push_cast at room'
      omega

theorem listed_inRange (info : Str) : ∀ id ∈ listed info, 0 < id ∧ id < 2147483648 := by
  intro _ member
  obtain ⟨_, -, member⟩ := mem_flatMap.1 member
  split_ifs at member
  · have ⟨member, positive⟩ := mem_filter.1 member
    obtain ⟨tok, -, rfl⟩ := mem_map.1 member
    exact ⟨of_decide_eq_true positive, inRange_toint tok⟩
  · cases member

theorem grows_initialsync (laid : b.Laid) (exist : List Int) (ui : Int → Files) {info : Str}
    (spared : SparedSync b (listed info)) :
    Grows b (initialsync ui b info) exist (activities exist (.sync info ui)) := by
  unfold initialsync activities
  by_cases nothing : info = []
  · rw [if_pos nothing, nothing]
    exact Grows.same exist laid rfl rfl rfl rfl
  · rw [if_neg nothing]
    exact grows_render (grows_syncs ui (listed info) (listed_inRange info) exist laid spared)

/-! ### Short texts -/

theorem short_decimal (inRange : 0 < n ∧ n < 2147483648) : Styx.Short (decimal n) := by
  have ascii : ∀ c ∈ decimal n, c < 128 := by
    intro _ member
    rcases mem_decimal member with digit | rfl
    · have bounds := isDigit_bounds digit
      omega
    · omega
  have length : (decimal n).length ≤ 10 + 1 := length_decimal_le (by omega) (by omega)
  unfold Styx.Short
  rw [utflen_eq, cvtca_ascii ascii]
  omega

theorem short_name (k : Nat) : Styx.Short (SUBFILE_NAMES.getD k []) := by
  have all : ∀ name ∈ SUBFILE_NAMES, Styx.Short name := by decide
  rw [getD_eq_getElem?_getD]
  cases found : SUBFILE_NAMES[k]? with
  | none => exact (by decide : Styx.Short [])
  | some name => exact all name (mem_of_getElem? found)

theorem short_dir {user name : Str} (short : Styx.Short user) (shortName : Styx.Short name)
    (qid : Qid) (length perm : Nat) : (dir user qid name length perm).Short :=
  ⟨shortName, short, short, (by decide : Styx.Short [])⟩

theorem dirgen_fine (laid : b.Laid) (short : Styx.Short b.user) (p : Nat) : Fine (dirgen b p) := by
  by_cases high : Qtaskbase ≤ TYPE p
  · rw [dirgen_high high]
    cases found : findtaskbyqbase b.tasks (baseof (TYPE p)) with
    | none => exact (by decide : Styx.Short Enotfound)
    | some te =>
      have inRange := laid.positive (key te) (mem_map_of_mem (mem_findbase found).1)
      dsimp only
      split_ifs
      · exact short_dir short (short_decimal inRange) _ _ _
      · exact short_dir short (short_name _) _ _ _
      · exact short_dir short (short_name _) _ _ _
  · unfold dirgen
    dsimp only
    rw [if_neg high]
    split_ifs
    · exact short_dir short (by decide) _ _ _
    · exact short_dir short (by decide) _ _ _
    · exact short_dir short (by decide) _ _ _
    · exact short_dir short (by decide) _ _ _
    · exact short_dir short (by decide) _ _ _
    · exact (by decide : Styx.Short Enotfound)

theorem fine_ite {c : Prop} [Decidable c] {x y : Option Dir × Str} (first : Fine x)
    (second : Fine y) : Fine (if c then x else y) := by
  split_ifs
  · exact first
  · exact second

theorem walk_fine (laid : b.Laid) (short : Styx.Short b.user) (p : Nat) (name : Str) :
    Fine (walk b p name) := by
  have every := dirgen_fine laid short
  have missing : Styx.Short Enotfound := by decide
  have file : Styx.Short (str "not a directory") := by decide
  by_cases tasks : TYPE p = Qtaskdir
  · by_cases dots : name = str ".."
    · have up : walk b p name = dirgen b Qroot := by
        unfold walk
        dsimp only
        rw [tasks, if_neg (by decide), if_pos rfl, if_pos dots]
      rw [up]
      exact every _
    rw [walk_taskdir_eq tasks dots]
    cases findtask b.tasks (Strings.toint name).1 with
    | none => exact missing
    | some _ =>
      dsimp only
      split_ifs
      · exact missing
      · exact every _
  · unfold walk
    dsimp only
    rw [if_neg tasks]
    repeat' first
      | exact every _
      | exact missing
      | exact file
      | apply fine_ite

theorem polite (laid : b.Laid) (short : Styx.Short b.user) : navigator.Polite b where
  stat_same _ := rfl
  stat_fine p := dirgen_fine laid short p
  walk_same _ _ := rfl
  walk_fine p name := walk_fine laid short p name

theorem short_readstr (tag offset count : Nat) (data : Str) :
    (readstr tag offset count data).pick.Short := by
  have word := Int.bmod_lt (x := count) (m := 4294967296) (by decide)
  have bound : (toint count).toNat ≤ 2147483648 := by
    unfold toint
    omega
  show (Notify.readbytes offset (toint count).toNat (cvtca data)).length ≤ 2147483648
  unfold Notify.readbytes
  split_ifs
  · exact Nat.zero_le _
  · rw [length_take]
    exact le_trans (Nat.min_le_left _ _) bound

/-! ### Requests -/

structure Kept (b b' : Board) : Prop where
  user : b'.user = b.user
  keys : b'.tasks.map key = b.tasks.map key
  next : b'.nextqid = b.nextqid

theorem Kept.refl (b : Board) : Kept b b := ⟨rfl, rfl, rfl⟩

/-- Every pending read is one of the event file. -/
def Held (b : Board) : Prop := ∀ p ∈ b.pending, p.ft = Qevent

/-- There are replies to these requests and to the reads that wait no longer, one to each. -/
def Balanced (asked : List Nat) (b : Board) (sent : List Rmsg) (b' : Board) : Prop :=
  ∀ tag, asked.count tag + (b.pending.map (·.tag)).count tag =
    (sent.map (·.tag)).count tag + (b'.pending.map (·.tag)).count tag

def Answered (asked : List Nat) (b : Board) (h : Served) : Prop :=
  ∃ srv sent, h = some (srv, sent) ∧ Kept b srv.t ∧ Held srv.t ∧ Balanced asked b sent srv.t

theorem one_answered {m : Rmsg} (short : m.pick.Short) (kept : Kept b srv.t) (held : Held b)
    (pending : srv.t.pending = b.pending) : Answered [m.tag] b (one srv m) := by
  have ⟨r, replied, same⟩ := srv.replydirect_some short
  refine ⟨srv, [r], ?_, kept, ?_, ?_⟩
  · unfold one
    rw [replied]
    rfl
  · unfold Held
    rw [pending]
    exact held
  · intro _
    rw [pending, map_singleton, same]

theorem error_answered {err : Str} (short : Styx.Short err) (held : Held srv.t) :
    Answered [tag] srv.t (one srv ⟨tag, .error err⟩) :=
  one_answered (m := ⟨tag, .error err⟩) short (Kept.refl _) held rfl

theorem handled_answered {h : Option (Handled Board)} (held : Held b) (answers : Answers h tag b) :
    Answered [tag] b (handled h) := by
  obtain ⟨h, rfl, same, t⟩ := answers
  refine ⟨h.srv, [h.reply], rfl, ?_, ?_, ?_⟩
  · rw [t]
    exact Kept.refl b
  · rw [t]
    exact held
  · intro _
    rw [t, map_singleton, same]

theorem deliver_all (srv : Styxserver Board) (msg : Str) (kept : List PendingRead) :
    ∀ (ps : List PendingRead) (delivered : Bool), (∀ p ∈ ps, p.ft = Qevent) →
      ∃ delivered' sent, deliver srv msg ps kept delivered = some (kept, delivered', sent) ∧
        sent.map (·.tag) = ps.map (·.tag) := by
  intro ps
  induction ps with
  | nil => exact fun delivered _ => ⟨delivered, [], rfl, rfl⟩
  | cons p next ih =>
    intro _ held
    have ⟨r, replied, same⟩ :=
      srv.replydirect_some (short_readstr p.tag p.offset p.count (msg ++ [10]))
    have ⟨delivered', sent, rest, tags⟩ :=
      ih true fun q member => held q (mem_cons_of_mem p member)
    refine ⟨delivered', r :: sent, ?_, ?_⟩
    · unfold deliver
      rw [if_pos (held p mem_cons_self), replied]
      show (deliver srv msg next kept true).bind _ = _
      rw [rest]
      rfl
    · rw [map_cons, map_cons, tags, same]
      rfl

theorem pushevent_all (srv : Styxserver Board) (msg : Str) (held : Held srv.t) :
    ∃ srv' sent, pushevent srv msg = some (srv', sent) ∧ Kept srv.t srv'.t ∧
      srv'.t.pending = [] ∧ sent.map (·.tag) = srv.t.pending.map (·.tag) := by
  have ⟨delivered, sent, all, tags⟩ := deliver_all srv msg [] srv.t.pending false held
  refine ⟨{ srv with t := { srv.t with
    pending := []
    eventbuf := if delivered then srv.t.eventbuf else msg :: srv.t.eventbuf } }, sent, ?_,
    ⟨rfl, rfl, rfl⟩, rfl, tags⟩
  unfold pushevent
  rw [all]
  rfl

theorem pushreply_answered (msg : Str) (tag count : Nat) (kept : Kept b srv.t) (held : Held b)
    (pending : srv.t.pending = b.pending) : Answered [tag] b (pushreply srv msg tag count) := by
  have held' : Held srv.t := by
    unfold Held
    rw [pending]
    exact held
  have ⟨srv', sent, pushed, kept', none_, tags⟩ := pushevent_all srv msg held'
  have ⟨r, replied, same⟩ := srv'.replydirect_some (m := ⟨tag, .write count⟩) trivial
  refine ⟨srv', sent ++ [r], ?_, ?_, ?_, ?_⟩
  · unfold pushreply
    rw [pushed]
    show (srv'.replydirect ⟨tag, .write count⟩).bind _ = _
    rw [replied]
    rfl
  · exact ⟨kept'.user.trans kept.user, kept'.keys.trans kept.keys, kept'.next.trans kept.next⟩
  · intro _ member
    rw [none_] at member
    exact absurd member not_mem_nil
  intro _
  rw [none_, map_append, tags, pending, map_singleton, same, count_append]
  show _ = _ + 0
  rw [Nat.add_zero, Nat.add_comm]

theorem canread_short (srv : Styxserver Board) (fid offset count : Nat) :
    ∀ err, srv.canread fid offset count = .error err → Styx.Short err := by
  intro _ refused
  unfold Styxserver.canread at refused
  cases found : srv.getfid fid with
  | none =>
    rw [found] at refused
    cases refused
    exact (by decide : Styx.Short Ebadfid)
  | some _ =>
    rw [found] at refused
    dsimp only at refused
    split_ifs at refused
    · cases refused
      exact (by decide : Styx.Short Enotopen)
    · cases refused
      exact (by decide : Styx.Short Eaccess)
    · cases refused
      exact (by decide : Styx.Short Ecount)
    · cases refused
      exact (by decide : Styx.Short Eoffset)

theorem canwrite_short (srv : Styxserver Board) (fid offset : Nat) :
    ∀ err, canwrite srv fid offset = .error err → Styx.Short err := by
  intro _ refused
  unfold canwrite at refused
  cases found : srv.getfid fid with
  | none =>
    rw [found] at refused
    cases refused
    exact (by decide : Styx.Short Ebadfid)
  | some _ =>
    rw [found] at refused
    dsimp only at refused
    split_ifs at refused
    · cases refused
      exact (by decide : Styx.Short Enotopen)
    · cases refused
      exact (by decide : Styx.Short Eperm)
    · cases refused
      exact (by decide : Styx.Short Eaccess)
    · cases refused
      exact (by decide : Styx.Short Eoffset)

def isdir (qtype : Nat) : Bool :=
  qtype == Qroot || qtype == Qtaskdir || decide (Qtaskbase ≤ qtype) && suboffof qtype == Qt_dir

theorem subfile_some (te : TaskEntry) {k : Nat} (low : k ≠ 0) (small : k < 9) :
    ∃ val, subfile te k = some val := by
  interval_cases k
  · exact absurd rfl low
  · exact ⟨_, rfl⟩
  · exact ⟨_, rfl⟩
  · exact ⟨_, rfl⟩
  · exact ⟨_, rfl⟩
  · exact ⟨_, rfl⟩
  · exact ⟨_, rfl⟩
  · exact ⟨_, rfl⟩
  · exact ⟨_, rfl⟩

theorem serveread_task (tag : Nat) {c : Fid} (able : srv.canread fid offset count = .ok c)
    (file : isdir (TYPE c.path) = false) {te : TaskEntry} (high : Qtaskbase ≤ TYPE c.path)
    (found : findtaskbyqbase srv.t.tasks (baseof (TYPE c.path)) = some te) :
    ∃ val, subfile te (suboffof (TYPE c.path)) = some val ∧
      serveread srv tag fid offset count = one srv (readstr tag offset count val) := by
  have high' : 100 ≤ TYPE c.path := high
  have notDir : suboffof (TYPE c.path) ≠ 0 := by
    intro zero
    unfold isdir at file
    rw [zero, decide_eq_true high] at file
    simp only [Bool.or_eq_false_iff] at file
    exact absurd file.2 (by decide)
  have small : suboffof (TYPE c.path) < 9 := Nat.mod_lt _ (by decide)
  obtain ⟨val, is⟩ := subfile_some te notDir small
  refine ⟨val, is, ?_⟩
  unfold serveread
  rw [able]
  dsimp only
  rw [if_neg (by unfold Qctl; omega), if_neg (by unfold Qevent; omega),
    if_neg (by unfold Qsummary; omega), if_pos high, taskfromqid_eq high, found]
  simp only [Option.map_some, is]

theorem serveread_answered (tag : Nat) (held : Held srv.t)
    (file : ∀ c, srv.canread fid offset count = .ok c → isdir (TYPE c.path) = false) :
    Answered [tag] srv.t (serveread srv tag fid offset count) := by
  cases able : srv.canread fid offset count with
  | error merr =>
    unfold serveread
    rw [able]
    exact error_answered (canread_short srv fid offset count merr able) held
  | ok c =>
    by_cases high : Qtaskbase ≤ TYPE c.path
    · cases found : findtaskbyqbase srv.t.tasks (baseof (TYPE c.path)) with
      | some _ =>
        obtain ⟨val, -, read⟩ := serveread_task tag able (file c able) high found
        rw [read]
        exact one_answered (m := readstr tag offset count val) (short_readstr _ _ _ _)
          (Kept.refl _) held rfl
      | none =>
        have high' : 100 ≤ TYPE c.path := high
        unfold serveread
        rw [able]
        dsimp only
        rw [if_neg (by unfold Qctl; omega), if_neg (by unfold Qevent; omega),
          if_neg (by unfold Qsummary; omega), if_pos high, taskfromqid_eq high, found]
        exact error_answered (by decide : Styx.Short Enotfound) held
    · unfold serveread
      rw [able]
      dsimp only
      rw [if_neg high]
      split_ifs
      · exact one_answered (m := readstr tag offset count []) (short_readstr _ _ _ _)
          (Kept.refl _) held rfl
      · cases srv.t.eventbuf.getLast? with
        | some msg =>
          exact one_answered (m := readstr tag offset count (msg ++ [10]))
            (short_readstr _ _ _ _) ⟨rfl, rfl, rfl⟩ held rfl
        | none =>
          refine ⟨_, _, rfl, ⟨rfl, rfl, rfl⟩, ?_, ?_⟩
          · intro p member
            rcases mem_cons.1 member with rfl | older
            · rfl
            · exact held p older
          intro other
          show _ = 0 + (tag :: srv.t.pending.map (·.tag)).count other
          rw [Nat.zero_add]
          exact count_append.symm
      · exact one_answered (m := readstr tag offset count srv.t.summarytext)
          (short_readstr _ _ _ _) (Kept.refl _) held rfl
      · exact error_answered (by decide : Styx.Short Enotfound) held

end Infernode.Dashboard
