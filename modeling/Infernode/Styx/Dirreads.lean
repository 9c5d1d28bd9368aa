import Infernode.Styx.Answers
import Infernode.Styx.Packed

/-!
How a directory is read from a file server.

Owns: what one read of a directory replies with, from the place that the fid remembers or from
the beginning; the sequences of reads on a fid; and the reads for which every entry is returned
once, in order and whole.
-/

namespace Infernode.Styx

open Text Wire List

/-! ### Entries -/

def sizes (ds : List Dir) : Nat := (ds.map Dir.size).sum

def wdirs (ds : List Dir) : Bytes := ds.flatMap wdir

theorem sizes_cons (d : Dir) (ds : List Dir) : sizes (d :: ds) = d.size + sizes ds := rfl

theorem sizes_append (front back : List Dir) : sizes (front ++ back) = sizes front + sizes back := by
  unfold sizes
  rw [map_append, sum_append]

theorem length_wdirs (ds : List Dir) : (wdirs ds).length = sizes ds := by
  induction ds with
  | nil => rfl
  | cons d _ ih =>
    rw [wdirs, flatMap_cons, length_append, length_wdir, sizes_cons]
    exact congrArg (d.size + ·) ih

theorem wdirs_append (front back : List Dir) : wdirs (front ++ back) = wdirs front ++ wdirs back :=
  flatMap_append

theorem size_pos (d : Dir) : 0 < d.size := Nat.lt_of_lt_of_le (by decide) d.le_size

structure Fitting (count : Nat) (ds part rest : List Dir) : Prop where
  split : ds = part ++ rest
  fits : sizes part ≤ count
  full : ∀ d more, rest = d :: more → count < sizes part + d.size

/-- No offset up to the first entry that does not fit leaves an `int`. -/
def Small (base count : Nat) (ds : List Dir) : Prop :=
  ∀ front d back, ds = front ++ d :: back → sizes front ≤ count →
    base + sizes front + d.size < 2147483648

variable {base : Nat} {ds front rest : List Dir}

/-- A directory that ends before the largest `int`. -/
theorem Small.of_total {count : Nat} (total : base + sizes ds < 2147483648) :
    Small base count ds := by
  intro _ _ _ same _
  rw [same, sizes_append, sizes_cons] at total
  omega

/-! ### The loop -/

theorem toint_small {n : Nat} (small : n < 2147483648) : toint n = n := by
  unfold toint
  exact Int.bmod_eq_of_le (by omega) (by omega)

theorem readentries_cons (moffset : Int) (r : Reading) (d : Dir) (ds : List Dir)
    (inRange : d.InRange) (offset : r.offset = base) (small : base + d.size < 2147483648) :
    readentries moffset r (d :: ds) =
      if ((base + d.size : Nat) : Int) < moffset then
        readentries moffset { r with offset := (base + d.size : Nat), index := r.index + 1 } ds
      else if r.count - d.size < 0 then
        some (true, { r with count := r.count - d.size })
      else (put r.a r.p (wdir d)).bind fun a =>
        readentries moffset
          ⟨(base + d.size : Nat), r.index + 1, r.count - d.size, r.p + d.size, a⟩ ds := by
  have size : (toint (packdirsize d) : Int) = d.size := by
    rw [packdirsize_eq inRange]
    exact toint_small (by omega)
  have next : toint (r.offset + d.size) = (base + d.size : Nat) := by
    rw [offset, ← Int.natCast_add]
    exact toint_small small
  have back : toint (((base + d.size : Nat) : Int) - d.size) = r.offset := by
    rw [offset, Int.natCast_add, Int.add_sub_cancel]
    exact toint_small (by omega)
  rw [readentries, size, packdir_eq inRange]
  simp only [next, back, Nat.add_sub_cancel, Int.toNat_natCast]
  rfl

/-- The reading stands behind some entries, with these bytes for the reply. -/
structure Stands (after : Reading) (offset index : Nat) (done : Bytes) (cap : Nat) : Prop where
  offset : after.offset = offset
  index : after.index = index
  p : after.p = done.length
  a : after.a = filled done cap

theorem Fitting.cons {count : Nat} {d : Dir} {ds part rest : List Dir} (fits : d.size ≤ count)
    (fitting : Fitting (count - d.size) ds part rest) : Fitting count (d :: ds) (d :: part) rest where
  split := congrArg (d :: ·) fitting.split
  fits := by
    have later := fitting.fits
    rw [sizes_cons]
    omega
  full := by
    intro e more same
    have later := fitting.full e more same
    rw [sizes_cons]
    omega

theorem Small.tail {count : Nat} {d : Dir} (small : Small base count (d :: ds))
    (fits : d.size ≤ count) : Small (base + d.size) (count - d.size) ds := by
  intro front e back same _
  have whole := small (d :: front) e back (congrArg (d :: ·) same)
  rw [sizes_cons] at whole
  have bound := whole (by omega)
  omega

/-- The entries behind the offset that is asked for. -/
theorem readentries_fitting {moffset : Int} {cap : Nat} (ds : List Dir) :
    ∀ {r : Reading} {base count : Nat} {done : Bytes}, (∀ d ∈ ds, d.InRange) →
      (∀ d more, ds = d :: more → moffset ≤ base + d.size) → r.count = count →
      done.length + count ≤ cap → Small base count ds → Stands r base r.index done cap →
      ∃ part rest full after, readentries moffset r ds = some (full, after) ∧
        Fitting count ds part rest ∧ (full = true ↔ rest ≠ []) ∧
        (rest = [] → after.count = (count - sizes part : Nat)) ∧
        Stands after (base + sizes part) (r.index + part.length) (done ++ wdirs part) cap := by
  induction ds with
  | nil =>
    intro r base count done _ _ counts _ _ stands
    refine ⟨[], [], false, r, rfl, ⟨rfl, Nat.zero_le _, nofun⟩, ?_, fun _ => counts, ?_⟩
    · exact ⟨nofun, fun nonempty => absurd rfl nonempty⟩
    · rw [wdirs, flatMap_nil, append_nil]
      exact stands
  | cons d ds ih =>
    intro r base count done inRange behind _ _ small stands
    have here := inRange d mem_cons_self
    have fitsInt := small [] d ds rfl (Nat.zero_le _)
    have start : base + sizes [] + d.size = base + d.size := rfl
    rw [start] at fitsInt
    have after := behind d ds rfl
    have cons := readentries_cons moffset r d ds here stands.offset fitsInt
    rw [if_neg (by omega)] at cons
    by_cases fits : d.size ≤ count
    · rw [if_neg (by omega), stands.a, put_filled stands.p (by rw [length_wdir]; omega)] at cons
      have length : (done ++ wdir d).length = r.p + d.size := by
        rw [length_append, length_wdir, stands.p]
      have next : Stands ⟨(base + d.size : Nat), r.index + 1, r.count - d.size, r.p + d.size,
          filled (done ++ wdir d) cap⟩ (base + d.size) (r.index + 1) (done ++ wdir d) cap :=
        ⟨rfl, rfl, length.symm, rfl⟩
      have ⟨part, rest, full, final, read, fitting, isFull, left, standing⟩ :=
        ih (forall_mem_cons.1 inRange).2
          (fun e more _ => by omega)
          (show r.count - d.size = ((count - d.size : Nat) : Int) by omega)
          (by rw [length, stands.p]; omega) (small.tail fits) next
      refine ⟨d :: part, rest, full, final, cons.trans read, fitting.cons fits, isFull, ?_, ?_⟩
      · intro empty
        rw [left empty, sizes_cons]
        omega
      have offset : base + sizes (d :: part) = base + d.size + sizes part := by
        rw [sizes_cons]
        omega
      have index : r.index + (d :: part).length = r.index + 1 + part.length := by
        rw [length_cons]
        omega
      have bytes : done ++ wdirs (d :: part) = done ++ wdir d ++ wdirs part := by
        rw [append_assoc]
        rfl
      rw [offset, index, bytes]
      exact standing
    · rw [if_pos (by omega)] at cons
      refine ⟨[], d :: ds, true, _, cons, ⟨rfl, Nat.zero_le _, ?_⟩, ?_, nofun, ?_⟩
      · intro _ _ same
        rw [← (List.cons.inj same).1]
        have empty : sizes [] = 0 := rfl
        omega
      · exact ⟨fun _ => cons_ne_nil _ _, fun _ => rfl⟩
      · rw [wdirs, flatMap_nil, append_nil]
        exact ⟨stands.offset, rfl, stands.p, stands.a⟩

/-- The entries before the offset that is asked for are passed over. -/
theorem readentries_skip {moffset : Int} (skip ds : List Dir) : ∀ {r : Reading} {base : Nat},
    (∀ d ∈ skip, d.InRange) → r.offset = base → (skip ≠ [] → ((base + sizes skip : Nat) : Int) < moffset) →
      base + sizes skip < 2147483648 →
      readentries moffset r (skip ++ ds) = readentries moffset
        { r with offset := (base + sizes skip : Nat), index := r.index + skip.length } ds := by
  induction skip with
  | nil =>
    intro r base _ offset _ _
    have empty : base + sizes [] = base := rfl
    rw [empty, ← offset]
    rfl
  | cons d skip ih =>
    intro r base inRange offset before _
    have below := before (cons_ne_nil _ _)
    have step := sizes_cons d skip
    have here := inRange d mem_cons_self
    rw [cons_append, readentries_cons moffset r d _ here offset (by omega),
      if_pos (by omega),
      @ih _ (base + d.size)
        (forall_mem_cons.1 inRange).2 rfl (fun _ => by omega)
        (by omega)]
    have total : base + d.size + sizes skip = base + sizes (d :: skip) := by omega
    have index : r.index + 1 + skip.length = r.index + (d :: skip).length := by
      rw [length_cons]
      omega
    rw [total, index]

/-! ### The navigator -/

variable {σ : Type} {nav : Navigator σ} {inv : σ → Prop} {path : Nat} {listing : List Dir}

/-- The navigator's listing of the directory is this one in every state that holds `inv`: what it
sends for a place in it are the next entries, and one of them at least. -/
structure Navigator.Lists (nav : Navigator σ) (inv : σ → Prop) (path : Nat) (listing : List Dir) :
    Prop where
  inRange : ∀ d ∈ listing, d.InRange
  sent : ∀ t index count, inv t → (nav.readdir t path index count).1.take count <+: listing.drop index
  one : ∀ t index count, inv t → 0 < count → index < listing.length →
    (nav.readdir t path index count).1 ≠ []
  kept : ∀ t index count, inv t → inv (nav.readdir t path index count).2

/-- The chunk that is asked for is empty when nothing more fits. -/
theorem chunk_pos {count : Nat} : 0 < (count + DIRREADSIZE - 1) / DIRREADSIZE ↔ 0 < count := by
  unfold DIRREADSIZE STATFIXLEN
  omega

theorem Fitting.append {count : Nat} {part : List Dir} (fits : sizes front ≤ count)
    (fitting : Fitting (count - sizes front) ds part rest) :
    Fitting count (front ++ ds) (front ++ part) rest where
  split := by rw [fitting.split, append_assoc]
  fits := by
    have later := fitting.fits
    rw [sizes_append]
    omega
  full := by
    intro d more same
    have later := fitting.full d more same
    rw [sizes_append]
    omega

theorem Small.drop {base count : Nat} {front ds : List Dir} (small : Small base count (front ++ ds))
    (fits : sizes front ≤ count) : Small (base + sizes front) (count - sizes front) ds := by
  intro skipped d back same _
  have shape : front ++ ds = (front ++ skipped) ++ d :: back := by
    rw [same, append_assoc]
  have bound := small (front ++ skipped) d back shape
  rw [sizes_append] at bound
  have bound := bound (by omega)
  omega

theorem Small.bound {count : Nat} (small : Small base count (front ++ ds))
    (start : base < 2147483648) (fits : sizes front ≤ count) : base + sizes front < 2147483648 := by
  rcases eq_nil_or_concat front with empty | ⟨before, last, shape⟩
  · rw [empty]
    exact start
  rw [shape, concat_eq_append] at fits small ⊢
  rw [sizes_append] at fits ⊢
  have alone : sizes [last] = last.size := rfl
  have bound := small before last ds (append_assoc ..) (by omega)
  omega

theorem drop_behind {index : Nat} (listed : listing.drop index = front ++ rest) :
    listing.drop (index + front.length) = rest := by
  rw [← drop_drop, listed, drop_left]

/-- A chunk is empty when nothing more fits, or at the end of the directory. -/
theorem chunk_nil (lists : nav.Lists inv path listing) {t : σ} (holds : inv t) {index count : Nat}
    (empty : (nav.readdir t path index ((count + DIRREADSIZE - 1) / DIRREADSIZE)).1.take
      ((count + DIRREADSIZE - 1) / DIRREADSIZE) = []) : count = 0 ∨ listing.drop index = [] := by
  by_cases positive : 0 < count
  · have chunk := chunk_pos.2 positive
    by_cases inside : index < listing.length
    · have sent := lists.one t index _ holds chunk inside
      exact ((take_eq_nil_iff.1 empty).elim (fun zero => absurd zero (by omega))
        fun none_ => absurd none_ sent)
    · exact .inr (drop_eq_nil_of_le (by omega))
  · exact .inl (by omega)

/-- The loop over the chunks returns the entries that fit behind those that are passed over. -/
theorem readchunks_fitting (lists : nav.Lists inv path listing) {moffset : Int} {cap : Nat}
    (fuel : Nat) : ∀ {t : σ} {r : Reading} {base count : Nat} {done : Bytes} {skip back : List Dir},
      inv t → listing.drop r.index = skip ++ back → (skip ++ back).length < fuel →
      (skip ≠ [] → ((base + sizes skip : Nat) : Int) < moffset ∧ 0 < count) →
      (∀ d more, back = d :: more → moffset ≤ (base + sizes skip + d.size : Nat)) →
      base + sizes skip < 2147483648 → r.count = count → done.length + count ≤ cap →
      Small (base + sizes skip) count back → Stands r base r.index done cap →
      ∃ part rest after t', readchunks nav path moffset fuel t r = some (after, t') ∧ inv t' ∧
        Fitting count back part rest ∧
        Stands after (base + sizes skip + sizes part) (r.index + skip.length + part.length)
          (done ++ wdirs part) cap := by
  induction fuel with
  | zero => exact fun _ _ enough => absurd enough (Nat.not_lt_zero _)
  | succ _ ih =>
    intro t r base count done skip back holds listed enough before behind bound counts room small
      stands
    have chunks : r.count.toNat = count := by omega
    rw [readchunks, chunks]
    have kept := lists.kept t r.index ((count + DIRREADSIZE - 1) / DIRREADSIZE) holds
    have sent := lists.sent t r.index ((count + DIRREADSIZE - 1) / DIRREADSIZE) holds
    have ends := @chunk_nil _ _ _ _ _ lists t holds r.index count
    generalize (count + DIRREADSIZE - 1) / DIRREADSIZE = chunk at kept sent ends ⊢
    generalize nav.readdir t path r.index chunk = answer at kept sent ends ⊢
    obtain ⟨d, t2⟩ := answer
    simp only at kept sent ends ⊢
    generalize d.take chunk = ds at sent ends ⊢
    rw [listed] at sent
    cases ds with
    | nil =>
      have done' : skip = [] ∧ (∀ e more, back = e :: more → count < e.size) := by
        rcases ends rfl with zero | finished
        · refine ⟨?_, fun e _ _ => zero ▸ size_pos e⟩
          by_contra some'
          have positive := (before some').2
          omega
        · rw [listed] at finished
          obtain ⟨first, second⟩ := append_eq_nil_iff.1 finished
          exact ⟨first, fun e more same => absurd (second.symm.trans same) (by simp)⟩
      obtain ⟨nothing, next⟩ := done'
      refine ⟨[], back, r, t2, rfl, kept, ⟨rfl, Nat.zero_le _, ?_⟩, ?_⟩
      · intro e more same
        have positive := next e more same
        have empty : sizes [] = 0 := rfl
        omega
      · rw [nothing, wdirs, flatMap_nil, append_nil]
        exact stands
    | cons first others =>
      have ranged : ∀ e ∈ skip ++ back, e.InRange := fun e member =>
        lists.inRange e (mem_of_mem_drop (listed ▸ member))
      rcases List.prefix_or_prefix_of_prefix sent (prefix_append skip back) with
        passed | ⟨back1, shape⟩
      · obtain ⟨skip2, shape⟩ := passed
        rw [← shape] at before bound listed enough behind small ranged ⊢
        have below := before (by simp)
        have total := sizes_append (first :: others) skip2
        have read : readentries moffset r (first :: others) = some (false,
            { r with offset := (base + sizes (first :: others) : Nat),
                     index := r.index + (first :: others).length }) := by
          have skipped := @readentries_skip moffset (first :: others) [] r base
            (fun e member => ranged e (mem_append_left _ (mem_append_left _ member)))
            stands.offset (fun _ => by omega) (by omega)
          rw [append_nil] at skipped
          exact skipped
        obtain ⟨part, rest, after, t', loop, holds', fitting, standing⟩ :=
          @ih t2
            { r with offset := (base + sizes (first :: others) : Nat),
                     index := r.index + (first :: others).length }
            (base + sizes (first :: others)) count done skip2 back kept
            (drop_behind (by rw [listed, append_assoc])) (by
              simp only [length_append, length_cons] at enough ⊢
              omega)
            (fun _ => ⟨by omega, below.2⟩)
            (fun e more same => by
              have next := behind e more same
              omega)
            (by omega) counts room
            (by rw [Nat.add_assoc, ← total]; exact small) ⟨rfl, rfl, stands.p, stands.a⟩
        refine ⟨part, rest, after, t', ?_, holds', fitting, ?_⟩
        · dsimp only
          rw [read]
          exact loop
        have offset : base + sizes (first :: others ++ skip2) =
            base + sizes (first :: others) + sizes skip2 := by omega
        have index : r.index + (first :: others ++ skip2).length =
            r.index + (first :: others).length + skip2.length := by
          rw [length_append]
          omega
        rw [offset, index]
        exact standing
      · rw [← shape] at sent
        obtain ⟨back2, whole⟩ := (prefix_append_right_inj skip).1 sent
        rw [← whole] at behind listed enough small ranged
        have skipped := @readentries_skip moffset skip back1 r base
          (fun e member => ranged e (mem_append_left _ member)) stands.offset
          (fun some' => (before some').1) bound
        obtain ⟨part, rest, full, after, read, fitting, isFull, left, standing⟩ :=
          @readentries_fitting moffset cap back1
            { r with offset := (base + sizes skip : Nat), index := r.index + skip.length }
            (base + sizes skip) count done
            (fun e member => ranged e (mem_append_right _ (mem_append_left _ member)))
            (fun e more same => behind e (more ++ back2) (by rw [same, cons_append]))
            counts room
            (fun front e more same inside => small front e (more ++ back2)
              (by rw [same, append_assoc, cons_append]) inside)
            ⟨rfl, rfl, stands.p, stands.a⟩
        rw [← skipped, shape] at read
        dsimp only
        rw [read]
        by_cases every : rest = []
        · have same : back1 = part := by rw [fitting.split, every, append_nil]
          have going : full = false := Bool.eq_false_iff.2 fun yes => isFull.1 yes every
          have some' : 0 < (skip ++ back1).length := by rw [shape]; exact Nat.succ_pos _
          have fits := fitting.fits
          rw [← same] at left standing fits
          have behind' : ∀ e more, back2 = e :: more →
              moffset ≤ (base + sizes skip + sizes back1 + sizes [] + e.size : Nat) := by
            intro e more next
            cases back1 with
            | nil => exact behind e more (by rw [next, nil_append])
            | cons d' back1 =>
              have first' := behind d' (back1 ++ back2) rfl
              rw [sizes_cons]
              omega
          obtain ⟨part2, rest2, final, t', loop, holds', fitting2, standing2⟩ :=
            @ih t2 after (base + sizes skip + sizes back1)
              (count - sizes back1) (done ++ wdirs back1) [] back2 kept
              (by
                rw [standing.index]
                exact drop_behind (drop_behind listed))
              (by
                simp only [length_append] at enough some' ⊢
                rw [length_nil]
                omega)
              (fun wrong => absurd rfl wrong) behind'
              (small.bound bound fits) (left every)
              (by rw [length_append, length_wdirs]; omega)
              (small.drop fits) (by rw [standing.index]; exact standing)
          refine ⟨back1 ++ part2, rest2, final, t', ?_, holds', ?_, ?_⟩
          · rw [going]
            exact loop
          · rw [← whole]
            exact fitting2.append fits
          have offset : base + sizes skip + sizes (back1 ++ part2) =
              base + sizes skip + sizes back1 + sizes [] + sizes part2 := by
            rw [sizes_append]
            exact (Nat.add_assoc ..).symm
          have index : r.index + skip.length + (back1 ++ part2).length =
              after.index + ([] : List Dir).length + part2.length := by
            rw [standing.index, length_append]
            exact (Nat.add_assoc ..).symm
          rw [offset, index, wdirs_append, ← append_assoc]
          exact standing2
        · have stop : full = true := isFull.2 every
          refine ⟨part, rest ++ back2, after, t2, ?_, kept, ⟨?_, fitting.fits, ?_⟩, standing⟩
          · rw [stop]
            rfl
          · rw [← append_assoc, ← fitting.split, whole]
          intro _ _ next
          cases rest with
          | nil => exact absurd rfl every
          | cons e' rest => exact (List.cons.inj next).1 ▸ fitting.full e' rest rfl

/-! ### One read -/

variable {srv : Styxserver σ} {c : Fid} {fuel tag fid offset count : Nat}

/-- The count of a read that is not refused. -/
theorem canread_count (able : srv.canread fid offset count = .ok c) (word : count < 4294967296) :
    count < 2147483648 ∧ ((count + 24 : Nat) : Int) ≤ srv.msize := by
  have most := (canread_eq able).2
  unfold Styxserver.canread at able
  split at able
  · exact nomatch able
  split_ifs at able with closed mode large negative
  have ⟨_, _⟩ := not_or.1 large
  have small : count < 2147483648 := by
    by_contra big
    have value : toint count = count - 4294967296 := by
      have rest : (count : Int) % (4294967296 : Nat) = count :=
        Int.emod_eq_of_lt (by omega) (by omega)
      have wraps := Int.bmod_neg (count : Int) 4294967296 (by rw [rest]; omega)
      rw [rest] at wraps
      exact wraps
    omega
  rw [toint_small small] at most
  exact ⟨small, by omega⟩

/-- A read from the place where the loop starts, behind the entries that are passed over. -/
theorem read_fitting (lists : nav.Lists inv path listing) (holds : inv srv.t)
    (able : srv.canread fid offset count = .ok c) (dir : c.qtype &&& QTDIR ≠ 0)
    (same : c.path = path) (begun : 256 ≤ srv.msize) (word : count < 4294967296)
    (positive : 0 < count) (enough : listing.length < fuel) {base index : Nat}
    {skip back : List Dir}
    (start : (if toint offset ≠ c.doffset.1 then (0, 0) else c.doffset) = ((base : Int), index))
    (listed : listing.drop index = skip ++ back)
    (before : skip ≠ [] → ((base + sizes skip : Nat) : Int) < toint offset)
    (behind : ∀ d more, back = d :: more → toint offset ≤ (base + sizes skip + d.size : Nat))
    (bound : base + sizes skip < 2147483648) (small : Small (base + sizes skip) count back) :
    ∃ part rest h, srv.read nav fuel tag fid offset count = some h ∧
      h.reply = ⟨tag, .read (wdirs part)⟩ ∧ Fitting count back part rest ∧ inv h.srv.t ∧
      h.srv.msize = srv.msize ∧ h.srv.getfid fid = some { c with
        doffset := ((base + sizes skip + sizes part : Nat), index + skip.length + part.length) } := by
  obtain ⟨little, _⟩ := canread_count able word
  have counts : toint count = count := toint_small little
  have length : (skip ++ back).length < fuel := by
    rw [← listed, length_drop]
    omega
  obtain ⟨part, rest, after, t', loop, holds', fitting, stands⟩ := @readchunks_fitting
    σ nav inv path listing lists (toint offset) count fuel srv.t
    ⟨base, index, count, 0, List.replicate count 0⟩ base count [] skip back holds listed length
    (fun some' => ⟨before some', positive⟩) behind bound rfl (Nat.le_of_eq (Nat.zero_add _)) small
    ⟨rfl, rfl, rfl, (filled_nil _).symm⟩
  have found : srv.getfid fid = some c := (canread_eq able).1
  have number : c.fid = fid := Styxserver.fid_of_getfid found
  have data : after.a.take after.p = wdirs part := by
    rw [stands.p, stands.a, nil_append, filled, take_left]
  have sized : (wdirs part).length ≤ count := by
    rw [length_wdirs]
    exact fitting.fits
  have read : srv.read nav fuel tag fid offset count =
      (({ srv with t := t' } : Styxserver σ).setfid
        { c with doffset := (after.offset, after.index) }).reply
        (some { c with doffset := (after.offset, after.index) }) ⟨tag, .read (wdirs part)⟩ := by
    unfold Styxserver.read
    rw [able]
    simp only
    rw [if_neg dir, if_neg (by omega), counts, Int.toNat_natCast, start, same]
    simp only
    rw [loop]
    simp only
    rw [data]
  have short : RPick.Short (.read (wdirs part)) := by
    show (wdirs part).length ≤ 2147483648
    omega
  obtain ⟨h, replied, _⟩ := @reply_answers σ
    (({ srv with t := t' } : Styxserver σ).setfid { c with doffset := (after.offset, after.index) })
    (some { c with doffset := (after.offset, after.index) }) ⟨tag, .read (wdirs part)⟩ short
  obtain ⟨unchanged, _⟩ := Styxserver.reply_eq replied
  have size : Rmsg.packedsize ⟨tag, .read (wdirs part)⟩ ≤ 11 + (wdirs part).length :=
    Nat.mod_le _ _
  have fits := Styxserver.reply_fits replied begun (by
    show ((Rmsg.packedsize ⟨tag, .read (wdirs part)⟩ : Nat) : Int) ≤ srv.msize
    omega)
  refine ⟨part, rest, h, read.trans replied, fits, fitting, ?_, ?_, ?_⟩
  · rw [unchanged]
    exact holds'
  · rw [unchanged]
    rfl
  have here : ({ srv with t := t' } : Styxserver σ).getfid
      ({ c with doffset := (after.offset, after.index) } : Fid).fid = some c := by
    show srv.getfid c.fid = some c
    rw [number, found]
  rw [unchanged, Styxserver.getfid_setfid_of _ here, if_pos number.symm, stands.offset,
    stands.index]

end Infernode.Styx
