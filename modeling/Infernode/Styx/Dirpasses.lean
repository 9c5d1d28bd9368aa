import Infernode.Styx.Dirreads

/-!
The reads of a directory on one fid, one after the other.

Owns: the runs of reads on a fid, with other messages between them; what the replies of such a run
are to be together; and the reads for which they are.
-/

namespace Infernode.Styx

open Text Wire List

structure Dirread where
  offset : Nat
  count : Nat
  data : Bytes
deriving DecidableEq

def Dirread.stop (r : Dirread) : Nat := r.offset + r.data.length

/-- The offset is 0, or the end of an earlier read. -/
def Known (trace : List Dirread) (offset : Nat) : Prop := offset = 0 ∨ ∃ r ∈ trace, r.stop = offset

/-- Reads that follow each other from the offset. -/
def Pass : Nat → List Dirread → Prop
  | _, [] => True
  | offset, r :: rs => r.offset = offset ∧ Pass r.stop rs

/-- What the reads of a directory are to return. -/
structure Served (listing : List Dir) (trace : List Dirread) : Prop where
  whole : ∀ r ∈ trace, ∃ part, part <:+: listing ∧ r.data = wdirs part
  once : ∀ pass, pass ⊆ trace → Pass 0 pass → ∃ front, front <+: listing ∧
    pass.flatMap Dirread.data = wdirs front ∧ ((∃ r ∈ pass, r.data = []) → front = listing)
  again : ∀ r ∈ trace, ∀ s ∈ trace, r.offset = s.offset → r.count ≤ s.count → r.data <+: s.data
  ended : ∀ r ∈ trace, r.data = [] → r.offset = sizes listing

/-! ### Runs -/

section Runs

variable {σ : Type} (nav : Navigator σ) (inv : σ → Prop) (fuel fid : Nat)

/-- The fid has been opened on the directory, and nothing was read. -/
structure Opened (path : Nat) (srv : Styxserver σ) : Prop where
  begun : 256 ≤ srv.msize
  holds : inv srv.t
  fid : ∃ c, srv.getfid fid = some c ∧ c.isopen = true ∧ c.qtype &&& QTDIR ≠ 0 ∧ c.path = path ∧
    c.doffset = (0, 0)

/-- The reads on the fid that were answered with data, each for an offset that is known and as
`ok` allows; with reads that are refused, and other messages, which leave the fid as it is. -/
inductive Reads (ok : Fid → Nat → Nat → Prop) (srv : Styxserver σ) :
    List Dirread → Styxserver σ → Prop
  | start : Reads ok srv [] srv
  | read {trace mid c tag offset count data h} : Reads ok srv trace mid → Known trace offset →
      count < 4294967296 → mid.canread fid offset count = .ok c → ok c offset count →
      mid.read nav fuel tag fid offset count = some h → h.reply.pick = .read data →
      Reads ok srv (trace ++ [⟨offset, count, data⟩]) h.srv
  | refused {trace mid tag offset count err h} : Reads ok srv trace mid →
      mid.canread fid offset count = .error err →
      mid.read nav fuel tag fid offset count = some h → Reads ok srv trace h.srv
  | other {trace mid after} : Reads ok srv trace mid → after.getfid fid = mid.getfid fid →
      256 ≤ after.msize → inv after.t → Reads ok srv trace after

end Runs

/-! ### Places in the listing -/

variable {listing : List Dir}

theorem sizes_cancel {front other back rest : List Dir} (same : front ++ back = other ++ rest)
    (equal : sizes front = sizes other) : front = other ∧ back = rest := by
  induction front generalizing other with
  | nil =>
    cases other with
    | nil => exact ⟨rfl, same⟩
    | cons d _ =>
      have positive := size_pos d
      rw [sizes_cons] at equal
      have empty : sizes [] = 0 := rfl
      omega
  | cons d _ ih =>
    cases other with
    | nil =>
      have positive := size_pos d
      rw [sizes_cons] at equal
      have empty : sizes [] = 0 := rfl
      omega
    | cons _ _ =>
      have ⟨first, behind⟩ := List.cons.inj same
      rw [sizes_cons, sizes_cons, first] at equal
      have ⟨front', back'⟩ := ih behind (Nat.add_left_cancel equal)
      exact ⟨by rw [first, front'], back'⟩

variable {part rest front : List Dir} {offset : Nat}

theorem wdirs_nil (empty : wdirs part = []) : part = [] := by
  have length := length_wdirs part
  rw [empty] at length
  cases part with
  | nil => rfl
  | cons d _ =>
    have positive := size_pos d
    rw [sizes_cons, length_nil] at length
    omega

theorem Fitting.mono {few many : Nat} {ds part' rest' : List Dir}
    (fitting : Fitting few ds part rest) (fitting' : Fitting many ds part' rest')
    (more : few ≤ many) : part <+: part' := by
  have first : part <+: ds := ⟨rest, fitting.split.symm⟩
  have second : part' <+: ds := ⟨rest', fitting'.split.symm⟩
  rcases List.prefix_or_prefix_of_prefix first second with done | ⟨extra, shape⟩
  · exact done
  cases extra with
  | nil =>
    rw [append_nil] at shape
    exact shape ▸ prefix_refl part
  | cons d extra =>
    have split := fitting.split
    rw [fitting'.split, ← shape, append_assoc] at split
    have rest_eq := append_cancel_left split
    have large := fitting'.full d (extra ++ rest) rest_eq
    have fits := fitting.fits
    rw [← shape, sizes_append, sizes_cons] at fits
    omega

/-- The entries behind the offset, as many as fit; none only at the end. -/
structure Replied (listing : List Dir) (r : Dirread) (front part rest : List Dir) : Prop where
  split : listing = front ++ (part ++ rest)
  offset : r.offset = sizes front
  data : r.data = wdirs part
  fitting : Fitting r.count (part ++ rest) part rest
  ended : part = [] → rest = []
  small : sizes front + sizes part < 2147483648

theorem Replied.stop {r : Dirread} (replied : Replied listing r front part rest) :
    r.stop = sizes (front ++ part) := by
  rw [Dirread.stop, replied.offset, replied.data, length_wdirs, sizes_append]

/-- The reads that follow each other return what lies between. -/
theorem pass_returns {trace : List Dirread}
    (replied : ∀ r ∈ trace, ∃ front part rest, Replied listing r front part rest)
    (pass : List Dirread) : ∀ {front back : List Dir}, pass ⊆ trace → listing = front ++ back →
      Pass (sizes front) pass → ∃ part rest, back = part ++ rest ∧
        pass.flatMap Dirread.data = wdirs part ∧ ((∃ r ∈ pass, r.data = []) → rest = []) := by
  induction pass with
  | nil =>
    intro front back _ _ _
    exact ⟨[], back, rfl, rfl, fun ⟨_, member, _⟩ => absurd member not_mem_nil⟩
  | cons r pass ih =>
    intro front _ inside split follows
    have ⟨before, here, behind, reply⟩ := replied r (inside mem_cons_self)
    have equal : sizes before = sizes front := reply.offset.symm.trans follows.1
    have ⟨same, rest_eq⟩ := sizes_cancel (reply.split.symm.trans split) equal
    have next : Pass (sizes (front ++ here)) pass := by
      rw [← same, ← reply.stop]
      exact follows.2
    have ⟨part, rest, shape, data, done⟩ := @ih (front ++ here) behind
      (fun s member => inside (mem_cons_of_mem _ member))
      (by rw [append_assoc, rest_eq, split]) next
    refine ⟨here ++ part, rest, ?_, ?_, ?_⟩
    · rw [← rest_eq, shape, append_assoc]
    · rw [flatMap_cons, data, reply.data, wdirs_append]
    rintro ⟨s, member, empty⟩
    rcases mem_cons.1 member with first | later
    · rw [first, reply.data] at empty
      have nothing := reply.ended (wdirs_nil empty)
      rw [nothing] at shape
      exact (append_eq_nil_iff.1 shape.symm).2
    · exact done ⟨s, later, empty⟩

variable {trace : List Dirread}

theorem served_of_replied
    (replied : ∀ r ∈ trace, ∃ front part rest, Replied listing r front part rest) :
    Served listing trace where
  whole := by
    intro r member
    have ⟨front, part, rest, reply⟩ := replied r member
    exact ⟨part, ⟨front, rest, by rw [reply.split, append_assoc]⟩, reply.data⟩
  once := by
    intro pass inside follows
    have returned := @pass_returns listing trace replied pass [] listing inside rfl follows
    have ⟨part, rest, shape, data, done⟩ := returned
    refine ⟨part, ⟨rest, shape.symm⟩, data, fun empty => ?_⟩
    rw [shape, done empty, append_nil]
  again := by
    intro r rMember s sMember same fewer
    have ⟨front, part, rest, reply⟩ := replied r rMember
    have ⟨front', _, _, reply'⟩ := replied s sMember
    have equal : sizes front = sizes front' := by rw [← reply.offset, same, reply'.offset]
    have ⟨_, behind⟩ := sizes_cancel (reply.split.symm.trans reply'.split) equal
    have fitting := reply.fitting
    rw [behind] at fitting
    have ⟨_, shape⟩ := fitting.mono reply'.fitting fewer
    rw [reply.data, reply'.data, ← shape, wdirs_append]
    exact prefix_append _ _
  ended := by
    intro r member empty
    have ⟨_, _, _, reply⟩ := replied r member
    rw [reply.data] at empty
    have nothing := wdirs_nil empty
    rw [reply.offset, reply.split, nothing, reply.ended nothing, append_nil, append_nil]

/-! ### The reads that are answered right -/

/-- The read starts at the beginning, or where the fid stands, or finds no room for the last entry
at the end; there is room for an entry behind the offset, and the offsets are those of an `int`. -/
def Sound (listing : List Dir) (c : Fid) (offset count : Nat) : Prop :=
  ∃ front back, listing = front ++ back ∧ offset = sizes front ∧
    (offset = 0 ∨ c.doffset.1 = offset ∨
      (back = [] ∧ ∃ before last, front = before ++ [last] ∧ count < last.size)) ∧
    (∀ d more, back = d :: more → d.size ≤ count) ∧ Small offset count back

variable {σ : Type} {nav : Navigator σ} {inv : σ → Prop} {path fuel fid : Nat}

def Fid.Behind (c : Fid) (listing : List Dir) : Prop :=
  ∃ front back, listing = front ++ back ∧ c.doffset = (((sizes front : Nat) : Int), front.length) ∧
    sizes front < 2147483648

/-- The fid is on the directory, in a session. -/
structure Reading.Ready (inv : σ → Prop) (path fid : Nat) (listing : List Dir)
    (srv : Styxserver σ) : Prop where
  begun : 256 ≤ srv.msize
  holds : inv srv.t
  fid : ∃ c, srv.getfid fid = some c ∧ c.qtype &&& QTDIR ≠ 0 ∧ c.path = path ∧ c.Behind listing

section Replies

variable {srv : Styxserver σ} {c : Fid} {tag offset count : Nat}

def Replies (nav : Navigator σ) (inv : σ → Prop) (path fuel fid : Nat) (listing : List Dir)
    (srv : Styxserver σ) (tag offset count : Nat) : Prop :=
  ∃ front part rest h, srv.read nav fuel tag fid offset count = some h ∧
    h.reply = ⟨tag, .read (wdirs part)⟩ ∧
    Replied listing ⟨offset, count, wdirs part⟩ front part rest ∧
    Reading.Ready inv path fid listing h.srv

/-- The reply is empty at the end of the directory. -/
theorem Replied.none (small : sizes listing < 2147483648) :
    Replied listing ⟨sizes listing, count, wdirs []⟩ listing [] [] where
  split := by rw [append_nil, append_nil]
  offset := rfl
  data := rfl
  fitting := ⟨rfl, Nat.zero_le _, nofun⟩
  ended := fun _ => rfl
  small := small

theorem replies_zero (ready : Reading.Ready inv path fid listing srv)
    (able : srv.canread fid offset 0 = .ok c) (dir : c.qtype &&& QTDIR ≠ 0)
    (atEnd : offset = sizes listing) (small : offset < 2147483648) :
    Replies nav inv path fuel fid listing srv tag offset 0 := by
  have read : srv.read nav fuel tag fid offset 0 = srv.reply (some c) ⟨tag, .read []⟩ := by
    unfold Styxserver.read
    rw [able]
    simp only
    rw [if_neg dir, if_pos (by decide)]
  have ⟨h, replied, _⟩ := @reply_answers σ srv (some c) ⟨tag, .read []⟩ (by decide : 0 ≤ 2147483648)
  have ⟨unchanged, _⟩ := Styxserver.reply_eq replied
  have fits := Styxserver.reply_fits replied ready.begun (by
    have begun := ready.begun
    have size : Rmsg.packedsize ⟨tag, .read []⟩ ≤ 11 := Nat.mod_le _ _
    omega)
  rw [atEnd] at small read ⊢
  refine ⟨listing, [], [], h, read.trans replied, fits, Replied.none small, ?_⟩
  rw [unchanged]
  exact ready

theorem replies_start (lists : nav.Lists inv path listing) (enough : listing.length < fuel)
    (ready : Reading.Ready inv path fid listing srv) (able : srv.canread fid offset count = .ok c)
    (dir : c.qtype &&& QTDIR ≠ 0) (same : c.path = path) (stands : c.Behind listing)
    (word : count < 4294967296) (positive : 0 < count) {back : List Dir}
    (split : listing = front ++ back) (offset_eq : offset = sizes front)
    (small : offset < 2147483648) (start : offset = 0 ∨ c.doffset.1 = offset)
    (room : ∀ d more, back = d :: more → d.size ≤ count) (ints : Small offset count back) :
    Replies nav inv path fuel fid listing srv tag offset count := by
  have toints : toint offset = offset := toint_small small
  have starts : (if toint offset ≠ c.doffset.1 then (0, 0) else c.doffset) =
      ((offset : Int), front.length) := by
    rw [toints]
    by_cases cached : (offset : Int) = c.doffset.1
    · rw [if_neg (not_not_intro cached)]
      have ⟨front', _, split', doffset, _⟩ := stands
      rw [doffset] at cached ⊢
      have equal : sizes front = sizes front' := by
        rw [← offset_eq]
        exact Int.natCast_inj.1 cached
      have ⟨one, _⟩ := sizes_cancel (split.symm.trans split') equal
      rw [← one, ← offset_eq]
    · rw [if_pos cached]
      have zero := start.resolve_right fun same => cached same.symm
      have empty : front = [] := (@sizes_cancel front [] back listing split.symm
        (by rw [← offset_eq, zero]; rfl)).1
      rw [zero, empty]
      rfl
  have ⟨part, rest, h, read, reply, fitting, holds, msize, found⟩ := @read_fitting σ nav inv path
    listing srv c fuel tag fid offset count lists ready.holds able dir same ready.begun word
    positive enough offset front.length [] back starts (by rw [split, drop_left]; rfl)
    (fun wrong => absurd rfl wrong)
    (fun d more _ => by
      rw [toints]
      omega)
    small ints
  have most : offset + sizes part < 2147483648 :=
    (fitting.split ▸ ints).bound small fitting.fits
  have split' := split
  rw [fitting.split] at split'
  refine ⟨front, part, rest, h, read, reply, ?_, ?_⟩
  · refine ⟨split', offset_eq, rfl, ?_, ?_, ?_⟩
    · rw [← fitting.split]
      exact fitting
    · intro nothing
      cases rest with
      | nil => rfl
      | cons d more =>
        have fits := room d more (by rw [fitting.split, nothing]; rfl)
        have large := fitting.full d more rfl
        rw [nothing] at large
        have empty : sizes [] = 0 := rfl
        omega
    · rw [← offset_eq]
      exact most
  · refine ⟨by rw [msize]; exact ready.begun, holds, _, found, dir, same, ?_⟩
    refine ⟨front ++ part, rest, by rw [split', append_assoc], ?_, ?_⟩
    · rw [sizes_append, length_append, ← offset_eq]
      rfl
    · rw [sizes_append, ← offset_eq]
      exact most

/-- The loop starts at the beginning and comes to the last entry, which does not fit. -/
theorem replies_end (lists : nav.Lists inv path listing) (enough : listing.length < fuel)
    (ready : Reading.Ready inv path fid listing srv) (able : srv.canread fid offset count = .ok c)
    (dir : c.qtype &&& QTDIR ≠ 0) (same : c.path = path) (word : count < 4294967296)
    (positive : 0 < count) {before : List Dir} {last : Dir} (split : listing = before ++ [last])
    (atEnd : offset = sizes listing) (small : offset < 2147483648) (uncached : c.doffset.1 ≠ offset)
    (large : count < last.size) : Replies nav inv path fuel fid listing srv tag offset count := by
  have toints : toint offset = offset := toint_small small
  have total : sizes listing = sizes before + last.size := by
    rw [split, sizes_append]
    rfl
  have starts : (if toint offset ≠ c.doffset.1 then (0, 0) else c.doffset) =
      (((0 : Nat) : Int), 0) := by
    rw [toints, if_pos fun cached => uncached cached.symm]
    rfl
  have some' := size_pos last
  have ints : Small (0 + sizes before) count [last] := by
    intro skipped d rest one _
    cases skipped with
    | nil =>
      have empty : sizes [] = 0 := rfl
      rw [← (List.cons.inj one).1]
      omega
    | cons _ _ =>
      have lengths := congrArg List.length one
      simp only [length_cons, length_append, length_nil] at lengths
      omega
  have ⟨part, _, h, read, reply, fitting, holds, msize, found⟩ := @read_fitting σ nav inv path
    listing srv c fuel tag fid offset count lists ready.holds able dir same ready.begun word
    positive enough 0 0 before [last] starts (by rw [drop_zero, split])
    (fun _ => by
      rw [toints]
      omega)
    (fun d more one => by
      rw [toints, ← (List.cons.inj one).1]
      omega)
    (by omega) ints
  have nothing : part = [] := by
    cases part with
    | nil => rfl
    | cons _ _ =>
      have fits := fitting.fits
      rw [← (List.cons.inj fitting.split).1, sizes_cons] at fits
      omega
  rw [nothing] at reply found
  rw [atEnd] at small read ⊢
  refine ⟨listing, [], [], h, read, reply, Replied.none small, ?_⟩
  refine ⟨by rw [msize]; exact ready.begun, holds, _, found, dir, same, ?_⟩
  refine ⟨before, [last], split, ?_, by omega⟩
  rw [length_nil, Nat.zero_add, Nat.zero_add]
  rfl

theorem replies_of_sound (lists : nav.Lists inv path listing) (enough : listing.length < fuel)
    (ready : Reading.Ready inv path fid listing srv) (able : srv.canread fid offset count = .ok c)
    (word : count < 4294967296) (small : offset < 2147483648)
    (sound : Sound listing c offset count) :
    Replies nav inv path fuel fid listing srv tag offset count := by
  have ⟨c', found, dir, same, stands⟩ := ready.fid
  have here : c' = c := Option.some.inj (found.symm.trans (canread_eq able).1)
  rw [here] at dir same stands
  have ⟨_, back, split, offset_eq, place, room, ints⟩ := sound
  rcases Nat.eq_zero_or_pos count with zero | positive
  · have atEnd : back = [] := by
      cases back with
      | nil => rfl
      | cons d more =>
        have fits := room d more rfl
        have some' := size_pos d
        omega
    rw [atEnd, append_nil] at split
    rw [zero] at able ⊢
    exact replies_zero ready able dir (by rw [offset_eq, split]) small
  · by_cases start : offset = 0 ∨ c.doffset.1 = offset
    · exact replies_start lists enough ready able dir same stands word positive split offset_eq small
        start room ints
    have ⟨nonzero, uncached⟩ := not_or.1 start
    have ⟨atEnd, _, _, shape, large⟩ := (place.resolve_left nonzero).resolve_left uncached
    rw [atEnd, append_nil] at split
    exact replies_end lists enough ready able dir same word positive (split.trans shape)
      (by rw [offset_eq, split]) small uncached large

end Replies

/-! ### Every run -/

variable {srv : Styxserver σ}

theorem Opened.ready (opened : Opened inv fid path srv) :
    Reading.Ready inv path fid listing srv := by
  have ⟨c, found, _, dir, same, start⟩ := opened.fid
  exact ⟨opened.begun, opened.holds, c, found, dir, same, [], listing, rfl, start,
    (by decide : (0 : Nat) < 2147483648)⟩

theorem Known.small (replied : ∀ r ∈ trace, ∃ front part rest, Replied listing r front part rest)
    (known : Known trace offset) : offset < 2147483648 := by
  rcases known with zero | ⟨r, member, stop⟩
  · rw [zero]
    decide
  · have ⟨_, _, _, reply⟩ := replied r member
    rw [← stop, reply.stop, sizes_append]
    exact reply.small

theorem reads_replied (lists : nav.Lists inv path listing) (enough : listing.length < fuel)
    {after : Styxserver σ} (opened : Opened inv fid path srv)
    (run : Reads nav inv fuel fid (Sound listing) srv trace after) :
    Reading.Ready inv path fid listing after ∧
      ∀ r ∈ trace, ∃ front part rest, Replied listing r front part rest := by
  induction run with
  | start => exact ⟨opened.ready, nofun⟩
  | @read trace mid c tag offset count data h _ known word able sound handled picked
      ih =>
      have ⟨ready, replied⟩ := ih
      have ⟨front, part, rest, h', handled', reply, right, ready'⟩ :=
        @replies_of_sound _ _ _ _ _ _ _ mid c tag offset count lists enough ready able word
          (known.small replied) sound
      have one : h' = h := Option.some.inj (handled'.symm.trans handled)
      rw [one] at reply ready'
      have same : wdirs part = data := by
        rw [reply] at picked
        exact RPick.read.inj picked
      refine ⟨ready', fun r member => ?_⟩
      rcases mem_append.1 member with earlier | last
      · exact replied r earlier
      · rw [mem_singleton.1 last, ← same]
        exact ⟨front, part, rest, right⟩
  | @refused trace mid tag offset count err h _ refused handled ih =>
    have ⟨ready, replied⟩ := ih
    unfold Styxserver.read at handled
    rw [refused] at handled
    have same := (Styxserver.error_eq handled).1
    rw [same]
    exact ⟨ready, replied⟩
  | @other trace mid after _ found begun holds ih =>
    have ⟨ready, replied⟩ := ih
    exact ⟨⟨begun, holds, by rw [found]; exact ready.fid⟩, replied⟩

/-- In a run whose reads start at the beginning or where the fid stands, and have room for an
entry, the directory is read as it is listed, and such a read is answered with data. -/
theorem directory_reads (lists : nav.Lists inv path listing) (enough : listing.length < fuel)
    {srv after : Styxserver σ} {trace : List Dirread} (opened : Opened inv fid path srv)
    (run : Reads nav inv fuel fid (Sound listing) srv trace after) :
    Served listing trace ∧ ∀ tag offset count c, Known trace offset → count < 4294967296 →
      after.canread fid offset count = .ok c → Sound listing c offset count →
      ∃ h data, after.read nav fuel tag fid offset count = some h ∧
        h.reply = ⟨tag, .read data⟩ := by
  have ⟨ready, replied⟩ := reads_replied lists enough opened run
  refine ⟨served_of_replied replied, ?_⟩
  intro tag offset count c known word able sound
  have ⟨_, part, _, h, handled, reply, _⟩ :=
    @replies_of_sound _ _ _ _ _ _ _ after c tag offset count lists enough ready able word
      (known.small replied) sound
  exact ⟨h, wdirs part, handled, reply⟩

/-! ### A directory of two files -/

def sampleDir (name : Nat) : Dir := ⟨[name], [], [], [], ⟨name, 0, 0⟩, 0o444, 0, 0, 0, 0, 0⟩

def sampleNav : Navigator Unit where
  stat := fun t _ => ((none, []), t)
  walk := fun t _ _ => ((none, []), t)
  readdir := fun t _ index count => (([sampleDir 97, sampleDir 98].drop index).take count, t)
  create := fun t _ _ => ((none, []), t)
  remove := fun t _ => (none, t)

def sampleFid : Fid := ⟨1, 0, QTDIR, true, OREAD, (0, 0), [], [], []⟩

def sampleSrv : Styxserver Unit :=
  ⟨Buckets.insert Fid.fid CHANHASHSIZE (fun _ => []) sampleFid, 8192, ()⟩

theorem sampleDir_inRange {name : Nat} (ascii : name < 128) : (sampleDir name).InRange := by
  have len : utflen [name] = 1 := by
    have one : ¬ 0x7F < name := by omega
    have two : ¬ 0x7FF < name := by omega
    simp [utflen, one, two]
  have text : Text16 [name] := by
    refine ⟨fun c member => ?_, by omega⟩
    rw [mem_singleton.1 member]
    omega
  have empty : Text16 [] := ⟨fun _ inside => absurd inside List.not_mem_nil, by decide⟩
  have size : (sampleDir name).size = 50 := by
    show STATFIXLEN + utflen [name] + utflen [] + utflen [] + utflen [] = 50
    rw [len]
    rfl
  exact ⟨text, empty, empty, empty,
    ⟨(by omega : name < 2 ^ 64), Nat.two_pow_pos 32, Nat.two_pow_pos 8⟩,
    (by decide : 0o444 < 2 ^ 32), Nat.two_pow_pos 32, Nat.two_pow_pos 32, Nat.two_pow_pos 64,
    Nat.two_pow_pos 16, Nat.two_pow_pos 32, by rw [size]; decide⟩

theorem sampleLists :
    sampleNav.Lists (fun _ => True) 0 [sampleDir 97, sampleDir 98] where
  inRange := by
    intro _ member
    rcases mem_cons.1 member with first | second
    · exact first ▸ sampleDir_inRange (by decide)
    · exact mem_singleton.1 second ▸ sampleDir_inRange (by decide)
  sent := fun _ index count _ => by
    show (((_ : List Dir).drop index).take count).take count <+: _
    rw [take_take, Nat.min_self]
    exact List.take_prefix _ _
  one := by
    intro _ _ _ _ _ _ empty
    rcases take_eq_nil_iff.1 empty with zero | nothing
    · omega
    · have most := drop_eq_nil_iff.1 nothing
      omega
  kept := fun _ _ _ _ => trivial

theorem sampleOpened : Opened (fun _ => True) 1 0 sampleSrv :=
  ⟨by decide, trivial, sampleFid, by decide, rfl, by decide, rfl, rfl⟩

def sampleNext (srv : Styxserver Unit) (offset count : Nat) : Styxserver Unit :=
  ((srv.read sampleNav 10 0 1 offset count).map Handled.srv).getD srv

theorem able_of_read {tag count : Nat} {h : Handled σ} {data : Bytes}
    (handled : srv.read nav fuel tag fid offset count = some h)
    (picked : h.reply.pick = .read data) :
    ∃ c, srv.canread fid offset count = .ok c := by
  cases able : srv.canread fid offset count with
  | ok c => exact ⟨c, rfl⟩
  | error _ =>
    unfold Styxserver.read at handled
    rw [able] at handled
    have ⟨_, _, error⟩ := Styxserver.error_eq handled
    exact absurd (picked.symm.trans error) nofun

theorem sampleReads {ok : Fid → Nat → Nat → Prop} {trace : List Dirread} {mid : Styxserver Unit}
    {offset count : Nat} {data : Bytes}
    (run : Reads sampleNav (fun _ => True) 10 1 ok sampleSrv trace mid)
    (known : Known trace offset) (word : count < 4294967296)
    (allowed : ∀ c, mid.canread 1 offset count = .ok c → ok c offset count)
    (picked : (mid.read sampleNav 10 0 1 offset count).map (fun h => h.reply.pick) =
      some (.read data)) :
    Reads sampleNav (fun _ => True) 10 1 ok sampleSrv (trace ++ [⟨offset, count, data⟩])
      (sampleNext mid offset count) := by
  have ⟨h, handled, same⟩ := Option.map_eq_some_iff.1 picked
  have ⟨c, able⟩ := able_of_read handled same
  have next : sampleNext mid offset count = h.srv := by
    rw [sampleNext, handled]
    rfl
  rw [next]
  exact Reads.read run known word able (allowed c able) handled same

theorem directory_reads_sample : ∃ after,
    Reads sampleNav (fun _ => True) 10 1 (Sound [sampleDir 97, sampleDir 98]) sampleSrv
      [⟨0, 200, wdirs [sampleDir 97, sampleDir 98]⟩] after ∧
    Served [sampleDir 97, sampleDir 98] [⟨0, 200, wdirs [sampleDir 97, sampleDir 98]⟩] := by
  have sound : ∀ c, Sound [sampleDir 97, sampleDir 98] c 0 200 := by
    intro c
    refine ⟨[], [sampleDir 97, sampleDir 98], rfl, rfl, .inl rfl, ?_, Small.of_total (by decide)⟩
    intro _ _ same
    rw [← (List.cons.inj same).1]
    decide
  have run := @sampleReads (Sound [sampleDir 97, sampleDir 98]) [] sampleSrv 0 200
    (wdirs [sampleDir 97, sampleDir 98]) .start (.inl rfl) (by decide) (fun c _ => sound c)
    (by decide +kernel)
  exact ⟨_, run, (directory_reads sampleLists (by decide) sampleOpened run).1⟩

/-- A read that is made again where the fid no longer stands returns the entry before. -/
theorem directory_reread :
    sampleNav.Lists (fun _ => True) 0 [sampleDir 97, sampleDir 98] ∧
    Opened (fun _ => True) 1 0 sampleSrv ∧ ∃ trace after,
      Reads sampleNav (fun _ => True) 10 1 (fun _ _ _ => True) sampleSrv trace after ∧
      ¬ Served [sampleDir 97, sampleDir 98] trace := by
  have first := @sampleReads (fun _ _ _ => True) [] sampleSrv 0 50 (wdir (sampleDir 97)) .start
    (.inl rfl) (by decide) (fun _ _ => trivial) (by decide +kernel)
  have second := @sampleReads (fun _ _ _ => True) _ _ 50 50 (wdir (sampleDir 98)) first
    (.inr ⟨_, List.mem_cons_self, by decide +kernel⟩) (by decide) (fun _ _ => trivial)
    (by decide +kernel)
  have third := @sampleReads (fun _ _ _ => True) _ _ 50 50 (wdir (sampleDir 97)) second
    (.inr ⟨_, List.mem_cons_self, by decide +kernel⟩) (by decide) (fun _ _ => trivial)
    (by decide +kernel)
  refine ⟨sampleLists, sampleOpened, _, _, third, fun served => ?_⟩
  have again := served.again ⟨50, 50, wdir (sampleDir 98)⟩ (by simp)
    ⟨50, 50, wdir (sampleDir 97)⟩ (by simp) rfl (Nat.le_refl _)
  exact absurd again (by decide +kernel)

end Infernode.Styx
