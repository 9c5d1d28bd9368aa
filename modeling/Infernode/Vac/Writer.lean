import Infernode.Vac.Hashtree

/-!
Contract: what the pages of a file hold while it is written.

Owns: `PagesHold`, the trees on the pages with their number in base `fan`; `Pending`, the
pages with one tree more; `climb`, a page that is written and its score put on the next
level; the flush before a write and the last flush; and `Solid`, the counts of blocks for
which the last flush stops at the top.
-/

namespace Infernode.Vac

open Wire Chunks

variable {store : Store} {dtype fan : Nat} {blocks : List (Nat × Bytes)}

/-! ### Counts -/

/-- No digit of the number is zero in base `fan`. -/
def Solid (fan m : Nat) : Prop := ∀ j, fan ^ j ≤ m → m / fan ^ j % fan ≠ 0

theorem solid_zero (positive : 0 < fan) : Solid fan 0 := fun _ below =>
  absurd below (Nat.not_le.2 (Nat.pow_pos positive))

variable {m depth : Nat} {page : Page} {score : Bytes} {chunk : List Bytes} {pages : List Page}
    {f : File} {s : Session}

theorem solid_iff (nonzero : m ≠ 0) : Solid fan m ↔ m % fan ≠ 0 ∧ Solid fan (m / fan) := by
  constructor
  · intro solid
    refine ⟨by simpa using solid 0 (by simpa using Nat.one_le_iff_ne_zero.2 nonzero), ?_⟩
    intro j below
    rw [Nat.div_div_eq_div_mul, Nat.mul_comm, ← pow_succ]
    refine solid (j + 1) ?_
    rw [pow_succ]
    exact le_trans (Nat.mul_le_mul_right fan below) (Nat.div_mul_le_self m fan)
  rintro ⟨low, high⟩ j below
  cases j with
  | zero => simpa using low
  | succ j =>
    rcases Nat.eq_zero_or_pos fan with rfl | positive
    · rw [Nat.zero_pow (Nat.succ_pos j), Nat.div_zero, Nat.zero_mod]
      rw [Nat.div_zero] at high
      exact absurd (high 1 (by simp)) (by simp)
    rw [pow_succ, Nat.mul_comm, ← Nat.div_div_eq_div_mul]
    refine high j ?_
    rw [Nat.le_div_iff_mul_le positive, ← pow_succ]
    exact below

/-! ### Pages -/

def OnPage (store : Store) (dtype fan : Nat) (blocks : List (Nat × Bytes)) (depth : Nat) (page : Page)
    (chunks : List (List Bytes)) : Prop :=
  page.size = fan * Scoresize ∧ ∃ scores,
    page.d = scores.flatten ∧ List.Forall₂ (Holds store dtype fan blocks depth) scores chunks

/-- The pages from a level on hold so many whole trees of the level, the oldest highest. -/
def PagesHold (store : Store) (dtype fan : Nat) (blocks : List (Nat × Bytes)) :
    Nat → Nat → List Page → List Bytes → Prop
  | _, m, [], held => m = 0 ∧ held = []
  | depth, m, page :: pages, held =>
    ∃ earlier chunks, held = earlier ++ chunks.flatten ∧
      OnPage store dtype fan blocks depth page chunks ∧
      (∀ chunk ∈ chunks, chunk.length = fan ^ depth) ∧ chunks.length = m % fan ∧
      PagesHold store dtype fan blocks (depth + 1) (m / fan) pages earlier

def Pending (store : Store) (dtype fan : Nat) (blocks : List (Nat × Bytes)) (depth m : Nat)
    (pages : List Page) (held chunk : List Bytes) : Prop :=
  ∃ page rest score, pages = { page with d := page.d ++ score } :: rest ∧
    PagesHold store dtype fan blocks depth m (page :: rest) held ∧
    Holds store dtype fan blocks depth score chunk

theorem PagesHold.mono {blocks' : List (Nat × Bytes)} (more : blocks ⊆ blocks') :
    ∀ {pages : List Page} {depth m : Nat} {held : List Bytes},
      PagesHold store dtype fan blocks depth m pages held →
      PagesHold store dtype fan blocks' depth m pages held
  | [], _, _, _, empty => empty
  | _ :: _, _, _, _, ⟨earlier, chunks, same, ⟨size, scores, bytes, holds⟩, whole, count, later⟩ =>
    ⟨earlier, chunks, same, ⟨size, scores, bytes, holds.imp fun _ _ child => child.mono more⟩, whole,
      count, PagesHold.mono more later⟩

theorem PagesHold.length : ∀ {pages : List Page} {depth m : Nat} {held : List Bytes},
    PagesHold store dtype fan blocks depth m pages held → held.length = m * fan ^ depth
  | [], _, _, _, ⟨zero, empty⟩ => by rw [zero, empty, Nat.zero_mul, List.length_nil]
  | _ :: _, depth, m, _, ⟨earlier, chunks, same, _, whole, count, later⟩ => by
    rw [same, List.length_append, PagesHold.length later, length_flatten_whole whole, count, pow_succ]
    calc m / fan * (fan ^ depth * fan) + m % fan * fan ^ depth
        = (fan * (m / fan) + m % fan) * fan ^ depth := by ring
      _ = m * fan ^ depth := by rw [Nat.div_add_mod]

theorem pagesHold_new {dsize : Nat} (depth : Nat) :
    PagesHold store dtype (dsize / Scoresize) blocks depth 0 [Page.new dsize] [] :=
  ⟨[], [], rfl, ⟨rfl, [], rfl, List.Forall₂.nil⟩, fun _ member => absurd member List.not_mem_nil,
    (Nat.zero_mod _).symm, Nat.zero_div _, rfl⟩

variable {chunks : List (List Bytes)} {held : List Bytes} {fuel i : Nat}

theorem OnPage.length (onPage : OnPage store dtype fan blocks depth page chunks) :
    page.d.length = chunks.length * Scoresize := by
  obtain ⟨-, _, bytes, holds⟩ := onPage
  rw [bytes, length_flatten_whole (length_scores holds), holds.length_eq]

theorem OnPage.add (onPage : OnPage store dtype fan blocks depth page chunks)
    (holds : Holds store dtype fan blocks depth score chunk) :
    OnPage store dtype fan blocks depth { page with d := page.d ++ score } (chunks ++ [chunk]) := by
  have ⟨size, scores, bytes, children⟩ := onPage
  refine ⟨size, scores ++ [score], by simp [bytes], ?_⟩
  exact List.rel_append children (List.Forall₂.cons holds List.Forall₂.nil)

theorem PagesHold.add (positive : 0 < fan)
    (pagesHold : PagesHold store dtype fan blocks depth m (page :: pages) held)
    (holds : Holds store dtype fan blocks depth score chunk) :
    ∃ page', page.add score = some page' ∧
      Pending store dtype fan blocks depth m (page' :: pages) held chunk := by
  refine ⟨{ page with d := page.d ++ score }, ?_, page, pages, score, rfl, pagesHold, holds⟩
  obtain ⟨_, chunks, -, onPage, -, count, -⟩ := pagesHold
  have few : (chunks.length + 1) * Scoresize ≤ fan * Scoresize :=
    Nat.mul_le_mul_right _ (count ▸ Nat.mod_lt m positive)
  rw [Page.add, if_pos]
  rw [onPage.length, onPage.1]
  rw [Nat.succ_mul] at few
  exact few

/-! ### Flushing -/

/-- The data of a page that is written is a tree of the next level, put on the next page. -/
theorem climb (wide : fan = f.dsize / Scoresize) (positive : 0 < fan)
    (pagesHold : PagesHold store dtype fan s.blocks depth m (page :: pages) held)
    (holds : Holds store dtype fan s.blocks depth score chunk) (some' : chunk ≠ [])
    (short : chunk.length ≤ fan ^ depth) :
    ∃ earlier chunk' next rest page',
      (match pages with
        | [] => (Page.new f.dsize, [])
        | next :: pages => (next, pages)) = (next, rest) ∧
      next.add (s.write store (Pointertype0 + depth) (Page.data { page with d := page.d ++ score })).2
        = some page' ∧
      Pending store dtype fan
        (s.write store (Pointertype0 + depth) (Page.data { page with d := page.d ++ score })).1.blocks
        (depth + 1) (m / fan) (page' :: rest) earlier chunk' ∧
      held ++ chunk = earlier ++ chunk' ∧ chunk' ≠ [] ∧
      chunk'.length = m % fan * fan ^ depth + chunk.length := by
  obtain ⟨earlier, chunks, rfl, onPage, whole, count, later⟩ := pagesHold
  set page' : Page := { page with d := page.d ++ score } with defined
  have ⟨_, scores, bytes, children⟩ := onPage.add holds
  have data : page'.data = trimscores scores.flatten scores.length := by
    have length : page'.d.length = scores.length * Scoresize := by
      rw [bytes, length_flatten_whole (length_scores children)]
    rw [Page.data, length, Nat.mul_div_cancel _ (by decide), bytes]
  have more : s.blocks ⊆ (s.write store (Pointertype0 + depth) page'.data).1.blocks :=
    List.subset_cons_self _ _
  have tree : Holds store dtype fan (s.write store (Pointertype0 + depth) page'.data).1.blocks (depth + 1)
      (s.write store (Pointertype0 + depth) page'.data).2 ((chunks ++ [chunk]).flatten) := by
    refine ⟨scores, chunks ++ [chunk], children.imp fun _ _ child => child.mono more,
      chunked_append short whole, ?_, rfl, ?_⟩
    · rw [children.length_eq, List.length_append, List.length_singleton, count]
      exact Nat.mod_lt m positive
    · rw [data]
      exact ⟨rfl, List.mem_cons_self⟩
  have length : (chunks ++ [chunk]).flatten.length = m % fan * fan ^ depth + chunk.length := by
    rw [List.flatten_append, List.length_append, length_flatten_whole whole, count]
    simp
  have same : earlier ++ chunks.flatten ++ chunk = earlier ++ (chunks ++ [chunk]).flatten := by simp
  have nonempty : (chunks ++ [chunk]).flatten ≠ [] := by simp [some']
  cases pages with
  | nil =>
    obtain ⟨zero, rfl⟩ := later
    have fresh : PagesHold store dtype fan
        (s.write store (Pointertype0 + depth) page'.data).1.blocks (depth + 1) (m / fan)
        [Page.new f.dsize] [] := by
      rw [zero, wide]
      exact pagesHold_new _
    have ⟨added, adds, pending⟩ := fresh.add positive tree
    exact ⟨[], _, _, _, added, rfl, adds, pending, same, nonempty, length⟩
  | cons _ _ =>
    have ⟨added, adds, pending⟩ := (later.mono more).add positive tree
    exact ⟨earlier, _, _, _, added, rfl, adds, pending, same, nonempty, length⟩

theorem fflush_succ (store : Store) (f : File) (last : Bool) (fuel i : Nat) (s : Session) (page : Page)
    (pages : List Page) {next : Page} {rest : List Page}
    (full : (!last && !page.full) = false) (single : (last && page.d.length == Scoresize) = false)
    (above : (match pages with
      | [] => (Page.new f.dsize, [])
      | next :: pages => (next, pages)) = (next, rest)) :
    fflush store f last (fuel + 1) i s (page :: pages) =
      (next.add (s.write store (Pointertype0 + i) page.data).2).bind fun next =>
        (fflush store f last fuel (i + 1) (s.write store (Pointertype0 + i) page.data).1
          (next :: rest)).map fun (pages, s, entry) => (Page.new f.dsize :: pages, s, entry) := by
  cases pages with
  | nil =>
    cases above
    simp only [fflush, full, single, Bool.false_eq_true, if_false]
  | cons _ _ =>
    cases above
    simp only [fflush, full, single, Bool.false_eq_true, if_false]

theorem fflush_room (room : page.full = false) :
    fflush store f false (fuel + 1) i s (page :: pages) = some (page :: pages, s, none) := by
  cases pages <;> simp [fflush, room]

theorem fflush_single (single : page.d.length = Scoresize) :
    fflush store f true (fuel + 1) i s (page :: pages) =
      some (page :: pages, s, some (f.entry i page)) := by
  cases pages <;> simp [fflush, single]

/-- The flush before a write: the pages hold the pending tree with the others. -/
theorem fflush_pending (wide : fan = f.dsize / Scoresize) (two : 2 ≤ fan) :
    ∀ (m fuel : Nat) {depth : Nat} {s : Session} {pages : List Page} {held chunk : List Bytes},
      m < fuel →
      Pending store dtype fan s.blocks depth m pages held chunk → chunk.length = fan ^ depth →
      ∃ page pages' s', fflush store f false fuel depth s pages = some (page :: pages', s', none) ∧
        PagesHold store dtype fan s'.blocks depth (m + 1) (page :: pages') (held ++ chunk) ∧
        s.blocks ⊆ s'.blocks := by
  intro m
  induction m using Nat.strongRecOn with
  | ind m ih =>
  intro fuel depth s pages held chunk enough pending whole
  obtain ⟨fuel, rfl⟩ := Nat.exists_eq_add_of_lt enough
  obtain ⟨page, rest, score, rfl, pagesHold, holds⟩ := pending
  have positive : 0 < fan := by omega
  have digits := Nat.div_add_mod m fan
  have digit := Nat.mod_lt m positive
  obtain ⟨earlier, chunks, same, onPage, full, count, later⟩ := id pagesHold
  have length : (page.d ++ score).length = (m % fan + 1) * Scoresize := by
    rw [(onPage.add holds).length, List.length_append, List.length_singleton, count]
  have isFull : Page.full { page with d := page.d ++ score } = decide (fan ≤ m % fan + 1) := by
    rw [Page.full, length, onPage.1]
    refine decide_eq_decide.2 ?_
    simp only [Scoresize]
    omega
  by_cases room : m % fan + 1 < fan
  · refine ⟨{ page with d := page.d ++ score }, rest, s, ?_, ?_, List.Subset.refl _⟩
    · exact fflush_room (by rw [isFull, decide_eq_false (by omega)])
    have next : (m + 1) % fan = m % fan + 1 ∧ (m + 1) / fan = m / fan := by
      rw [show m + 1 = (m % fan + 1) + fan * (m / fan) by omega, Nat.add_mul_mod_self_left,
        Nat.add_mul_div_left _ _ positive, Nat.mod_eq_of_lt room, Nat.div_eq_of_lt room]
      simp
    refine ⟨earlier, chunks ++ [chunk], by simp [same], onPage.add holds, ?_, ?_, ?_⟩
    · simpa [or_imp, forall_and] using ⟨full, whole⟩
    · rw [List.length_append, List.length_singleton, count, next.1]
    · rw [next.2]
      exact later
  · have digit : m % fan + 1 = fan := by omega
    have carry : (m + 1) % fan = 0 ∧ (m + 1) / fan = m / fan + 1 := by
      rw [show m + 1 = fan * (m / fan + 1) by rw [Nat.mul_succ]; omega, Nat.mul_mod_right,
        Nat.mul_div_cancel_left _ positive]
      simp
    have smaller : m / fan < m := by
      refine Nat.div_lt_self ?_ two
      rcases Nat.eq_zero_or_pos m with rfl | some'
      · rw [Nat.zero_mod] at digit
        omega
      · exact some'
    obtain ⟨earlier', chunk', next, rest', page', above, adds, pending, moved, -, length'⟩ :=
      climb wide positive pagesHold holds
        (List.ne_nil_of_length_pos (by rw [whole]; exact Nat.pow_pos positive)) whole.le
    have whole' : chunk'.length = fan ^ (depth + 1) := by
      have carried : (m % fan + 1) * fan ^ depth = fan * fan ^ depth := congrArg (· * fan ^ depth) digit
      rw [Nat.succ_mul] at carried
      rw [length', whole, pow_succ, carried, Nat.mul_comm]
    obtain ⟨top, pages', s', flushed, holds', more⟩ :=
      ih (m / fan) smaller (m + fuel) (by omega) pending whole'
    refine ⟨Page.new f.dsize, top :: pages', s', ?_, ?_, ?_⟩
    · rw [fflush_succ _ _ _ _ _ _ _ _ (by rw [isFull, decide_eq_true (by omega)]; rfl) rfl above, adds,
        Option.bind_some, flushed]
      rfl
    · refine ⟨held ++ chunk, [], by simp, ?_, by simp, by rw [carry.1]; rfl, ?_⟩
      · rw [wide]
        exact ⟨rfl, [], rfl, List.Forall₂.nil⟩
      · rw [carry.2, moved]
        exact holds'
    · exact fun block member => more (List.mem_cons_of_mem _ member)

/-- The last flush: the entry is for a tree of the last blocks, and for a tree of all blocks
when no digit of the number of whole trees is zero. -/
theorem fflush_last (wide : fan = f.dsize / Scoresize) (positive : 0 < fan) :
    ∀ (m fuel : Nat) {depth : Nat} {s : Session} {pages : List Page} {held chunk : List Bytes},
      m < fuel →
      Pending store dtype fan s.blocks depth m pages held chunk → chunk ≠ [] →
      chunk.length ≤ fan ^ depth →
      ∃ pages' s' top page earlier last,
        fflush store f true fuel depth s pages = some (pages', s', some (f.entry top page)) ∧
        page.size = fan * Scoresize ∧
        Holds store dtype fan s'.blocks top (f.entry top page).score last ∧
        held ++ chunk = earlier ++ last ∧ last ≠ [] ∧ (earlier = [] ↔ Solid fan m) := by
  intro m
  induction m using Nat.strongRecOn with
  | ind m ih =>
  intro fuel depth s pages held chunk enough pending nonempty short
  obtain ⟨fuel, rfl⟩ := Nat.exists_eq_add_of_lt enough
  obtain ⟨page, rest, score, rfl, pagesHold, holds⟩ := pending
  obtain ⟨earlier, chunks, same, onPage, full, count, later⟩ := id pagesHold
  have length : (page.d ++ score).length = (m % fan + 1) * Scoresize := by
    rw [(onPage.add holds).length, List.length_append, List.length_singleton, count]
  have isSingle : ((page.d ++ score).length == Scoresize) = decide (m % fan = 0) := by
    rw [length]
    simp only [Scoresize, beq_eq_decide, decide_eq_decide]
    omega
  by_cases single : m % fan = 0
  · refine ⟨{ page with d := page.d ++ score } :: rest, s, depth,
      { page with d := page.d ++ score }, held, chunk, ?_, onPage.1, ?_, rfl,
      nonempty, ?_⟩
    · exact fflush_single (by rw [length, single, Nat.zero_add, Nat.one_mul])
    · have alone : page.d = [] := by
        have bytes := onPage.length
        rw [count, single, Nat.zero_mul] at bytes
        exact List.eq_nil_of_length_eq_zero bytes
      rw [alone] at length ⊢
      rw [entry_score (by rw [List.nil_append]; exact holds.length_score), List.nil_append]
      exact holds
    have counted := pagesHold.length
    have filled : 0 < fan ^ depth := Nat.pow_pos positive
    constructor
    · rintro rfl
      rcases Nat.mul_eq_zero.1 counted.symm with rfl | never
      · exact solid_zero positive
      · omega
    intro solid
    rcases Nat.eq_zero_or_pos m with rfl | some'
    · exact List.eq_nil_of_length_eq_zero (by rw [counted, Nat.zero_mul])
    · exact absurd single ((solid_iff some'.ne').1 solid).1
  · have nonzero : m ≠ 0 := fun zero => single (by rw [zero, Nat.zero_mod])
    have two : 2 ≤ fan := by
      by_contra narrow
      rw [show fan = 1 by omega, Nat.mod_one] at single
      exact single rfl
    have smaller : m / fan < m := Nat.div_lt_self (Nat.pos_of_ne_zero nonzero) two
    obtain ⟨earlier', chunk', next, rest', page', above, adds, pending, moved, nonempty', length'⟩ :=
      climb wide positive pagesHold holds nonempty short
    have short' : chunk'.length ≤ fan ^ (depth + 1) := by
      have digit : (m % fan + 1) * fan ^ depth ≤ fan * fan ^ depth :=
        Nat.mul_le_mul_right _ (Nat.mod_lt m positive)
      rw [length', pow_succ, Nat.mul_comm (fan ^ depth)]
      rw [Nat.succ_mul] at digit
      omega
    obtain ⟨pages', s', top, last, before, tree, flushed, size, holds', split, some', solid⟩ :=
      ih (m / fan) smaller (m + fuel) (by omega) pending nonempty' short'
    refine ⟨Page.new f.dsize :: pages', s', top, last, before, tree, ?_, size, holds', ?_, some', ?_⟩
    · rw [fflush_succ _ _ _ _ _ _ _ _ rfl (by rw [isSingle, decide_eq_false single]; rfl) above, adds,
        Option.bind_some, flushed]
      rfl
    · rw [moved, split]
    · rw [solid, solid_iff nonzero]
      exact (and_iff_right single).symm
where
  /-- The score of the entry is the one on the page. -/
  entry_score {f : File} {top : Nat} {page : Page} (one : page.d.length = Scoresize) :
      (f.entry top page).score = page.d := by
    have whole : page.d.take Scoresize = page.d := List.take_of_length_le one.le
    have some' : page.d ≠ [] := by
      intro none
      rw [none] at one
      simp [Scoresize] at one
    rw [File.entry, Page.data, one, Nat.div_self (by decide)]
    simp only [trimscores, Nat.zero_mul, List.drop_zero, Nat.zero_add, Nat.one_mul, whole]
    split_ifs with zero
    · exact zero.symm
    · exact absurd rfl ‹¬[] = []›
    · rfl

end Infernode.Vac
