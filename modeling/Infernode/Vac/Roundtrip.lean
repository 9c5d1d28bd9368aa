import Mathlib.Logic.Equiv.List
import Infernode.Vac.Writer

/-!
Contract: the bytes of a hash tree file come back from the entry that finishes it.

Owns: `RoundTrips`, and the counts of blocks for which it holds: the last flush stops at the
first page with one score, so a zero digit below the top digit of the number of whole blocks
loses what the higher pages hold.
-/

namespace Infernode.Vac

open Wire Chunks List Option

variable {store : Store} {dtype : Nat}

/-! ### The claim about one file -/

/-- The bytes that the reader takes for a block. -/
def leafsize (dtype dsize : Nat) : Nat :=
  if dtype = Dirtype then Entrysize * (dsize / Entrysize) else dsize

/-- The blocks are written to a new file and finished; the entry has the size, reads at every
offset give what was written there, up to the end of the block, and reads from the start on
give everything. -/
def RoundTrips (store : Store) (s : Session) (dtype dsize : Nat) (blocks : List Bytes) : Prop :=
  ∃ fuel f s' e, (File.new s dtype dsize).writes store fuel blocks = some f ∧
    f.finish store fuel = some (s', e) ∧ e.size = blocks.flatten.length ∧
    (∀ n offset, (Vacfile.new s' e).pread store n offset = some ((blocks.flatten.drop offset).take
      (min n (leafsize dtype dsize - offset % leafsize dtype dsize)))) ∧
    ∀ count : Nat → Nat, (∀ o, 0 < count o) →
      ∃ fuel, (Vacfile.new s' e).readall store count fuel = some blocks.flatten

/-! ### Fuel -/

variable {f : File} {fuel fuel' dsize size n : Nat} {blocks : List Bytes} {s : Session}

private theorem fflush_mono {last : Bool} :
    ∀ {fuel fuel' i : Nat} {s : Session} {pages : List Page} {result},
      fflush store f last fuel i s pages = some result → fuel ≤ fuel' →
      fflush store f last fuel' i s pages = some result
  | 0, _, _, _, _, _, done, _ => by simp [fflush] at done
  | _ + 1, _, _, _, [], _, done, _ => by simp [fflush] at done
  | fuel + 1, fuel', i, s, page :: pages, result, done, more => by
    obtain ⟨fuel', rfl⟩ := Nat.exists_eq_add_of_le' (le_trans (Nat.succ_le_succ (Nat.zero_le _)) more)
    have fewer : fuel ≤ fuel' := Nat.le_of_succ_le_succ more
    cases room : (!last && !page.full) with
    | true => cases pages <;> simpa [fflush, room] using done
    | false =>
      cases single : (last && page.d.length == Scoresize) with
      | true => cases pages <;> simpa [fflush, room, single] using done
      | false =>
        rw [fflush_succ _ _ _ _ _ _ _ _ room single rfl] at done ⊢
        obtain ⟨_, adds, flushed⟩ := bind_eq_some_iff.1 done
        obtain ⟨_, flushed, same⟩ := map_eq_some_iff.1 flushed
        rw [adds, bind_some, fflush_mono flushed fewer, map_some, same]

private theorem write_mono {f' : File} {b : Bytes} (done : f.write store fuel b = some f')
    (more : fuel ≤ fuel') : f.write store fuel' b = some f' := by
  have ⟨_, flushed, rest⟩ := bind_eq_some_iff.1 done
  rw [File.write, fflush_mono flushed more]
  exact rest

private theorem writes_mono (more : fuel ≤ fuel') :
    ∀ {blocks : List Bytes} {f f' : File}, f.writes store fuel blocks = some f' →
      f.writes store fuel' blocks = some f'
  | [], _, _, done => done
  | b :: blocks, f, f', done => by
    rw [File.writes, foldlM_cons] at done ⊢
    have ⟨next, wrote, rest⟩ := bind_eq_some_iff.1 done
    exact bind_eq_some_iff.2 ⟨next, write_mono wrote more, writes_mono more rest⟩

private theorem finish_mono {result : Session × Entry} (done : f.finish store fuel = some result)
    (more : fuel ≤ fuel') : f.finish store fuel' = some result := by
  have ⟨_, ok, rest⟩ := bind_eq_some_iff.1 done
  rw [File.finish, fflush_mono ok more]
  exact rest

/-! ### Writing a file -/

/-- The file has the blocks, each a tree of depth zero on its pages. -/
structure Written (store : Store) (dtype dsize : Nat) (f : File) (blocks : List Bytes) : Prop where
  dtype_eq : f.dtype = dtype
  dsize_eq : f.dsize = dsize
  size_eq : f.size = blocks.flatten.length
  first : blocks = [] → f.p = [Page.new dsize]
  pending : ∀ held b, blocks = held ++ [b] →
    Pending store dtype (dsize / Scoresize) f.s.blocks 0 held.length f.p held [b]

private theorem write_written (b : Bytes) (positive : 0 < dsize / Scoresize)
    (wide : blocks = [] ∨ 2 ≤ dsize / Scoresize) (enough : blocks.length < fuel)
    (written : Written store dtype dsize f blocks) :
    ∃ f', f.write store fuel b = some f' ∧ Written store dtype dsize f' (blocks ++ [b]) := by
  have flushed : ∃ page pages s, fflush store f false fuel 0 f.s f.p = some (page :: pages, s, none) ∧
      PagesHold store dtype (dsize / Scoresize) s.blocks 0 blocks.length (page :: pages) blocks := by
    rcases eq_nil_or_concat blocks with rfl | ⟨held, last, rfl⟩
    · obtain ⟨fuel, rfl⟩ := Nat.exists_eq_succ_of_ne_zero (Nat.ne_of_gt (Nat.lt_of_le_of_lt (Nat.zero_le _) enough))
      refine ⟨Page.new dsize, [], f.s, ?_, pagesHold_new 0⟩
      rw [written.first rfl]
      refine fflush_room (decide_eq_false (Nat.not_lt.2 ?_))
      simp only [Page.new, length_nil, Nat.zero_add]
      exact Nat.le_mul_of_pos_left _ positive
    · rw [concat_eq_append] at *
      have two := wide.resolve_left (by simp)
      rw [length_append, length_singleton] at enough ⊢
      obtain ⟨page, pages, s, done, holds, -⟩ := fflush_pending (by rw [written.dsize_eq]) two
        held.length fuel (Nat.lt_of_succ_lt enough) (written.pending held last rfl) rfl
      exact ⟨page, pages, s, done, holds⟩
  have ⟨_, pages, s, done, holds⟩ := flushed
  have leaf : Holds store dtype (dsize / Scoresize) (s.write store f.dtype (trimzeros b)).1.blocks 0
      (s.write store f.dtype (trimzeros b)).2 [b] := by
    rw [written.dtype_eq]
    exact ⟨b, rfl, rfl, mem_cons_self⟩
  have ⟨page', adds, pending⟩ := (holds.mono (subset_cons_self _ _)).add positive leaf
  refine ⟨{ f with p := page' :: pages, size := f.size + b.length, s := (s.write store f.dtype (trimzeros b)).1 },
    ?_, written.dtype_eq, written.dsize_eq, ?_, by simp, ?_⟩
  · rw [File.write, done, bind_some]
    simp only [adds, map_some]
  · simp [written.size_eq]
  intro _ last same
  obtain ⟨rfl, one⟩ := append_inj' same rfl
  obtain rfl : b = last := singleton_injective one
  exact pending

variable (store dtype) in
theorem writes_written (fuel : Nat) (s : Session) (positive : 0 < dsize / Scoresize)
    (blocks : List Bytes) (wide : blocks.length ≤ 1 ∨ 2 ≤ dsize / Scoresize)
    (enough : blocks.length ≤ fuel) :
    ∃ f, (File.new s dtype dsize).writes store fuel blocks = some f ∧
      Written store dtype dsize f blocks := by
  induction blocks using List.reverseRecOn with
  | nil => exact ⟨_, rfl, rfl, rfl, rfl, fun _ => rfl, by simp⟩
  | append_singleton blocks b ih =>
    rw [length_append, length_singleton] at wide enough
    have ⟨f, done, written⟩ := ih (wide.imp_left (by omega)) (by omega)
    have wide' : blocks = [] ∨ 2 ≤ dsize / Scoresize :=
      wide.imp_left fun few => eq_nil_of_length_eq_zero (by omega)
    have ⟨f', wrote, written'⟩ := write_written b positive wide' enough written
    refine ⟨f', ?_, written'⟩
    rw [File.writes, foldlM_append]
    refine bind_eq_some_iff.2 ⟨f, done, ?_⟩
    rw [foldlM_cons]
    exact bind_eq_some_iff.2 ⟨f', wrote, rfl⟩

/-! ### The entry -/

private theorem entrydir_flags {flags : Nat} (top : Nat) :
    (flags ||| top <<< Entrydepthshift) &&& Entrydir = flags &&& Entrydir := by
  refine Nat.eq_of_testBit_eq fun i => ?_
  rw [Nat.testBit_and, Nat.testBit_or, Nat.testBit_and, Nat.testBit_shiftLeft]
  by_cases bit : i = 1
  · simp [bit, Entrydepthshift]
  · have off : Nat.testBit Entrydir i = false := by
      rw [Entrydir, show (2 : Nat) = 2 ^ 1 from rfl, Nat.testBit_two_pow_of_ne (Ne.symm bit)]
    rw [off, Bool.and_false, Bool.and_false]

/-- The reader takes the type and the size of the blocks from the entry. -/
private theorem source_entry (s : Session) (top : Nat) (page : Page)
    (known : f.dtype = Datatype ∨ f.dtype = Dirtype) :
    (if (f.entry top page).flags &&& Entrydir ≠ 0 then Dirtype else Datatype) = f.dtype ∧
      (Source.new s (f.entry top page)).dsize = leafsize f.dtype f.dsize := by
  rw [Source.new, leafsize]
  simp only [File.entry, entrydir_flags]
  rcases known with known | known <;> rw [known] <;> simp +decide

private theorem entry_pages {fan : Nat} (s : Session) (top : Nat) {page : Page}
    (size : page.size = fan * Scoresize) :
    (Source.new s (f.entry top page)).e.psize / Scoresize = fan ∧
      fan * Scoresize ≤ blocksize (Source.new s (f.entry top page)).e := by
  have psize : (Source.new s (f.entry top page)).e.psize = page.size := rfl
  refine ⟨by rw [psize, size, Nat.mul_div_cancel _ (by decide)], ?_⟩
  rw [← size, ← psize, blocksize]
  split_ifs
  · exact le_refl _
  · exact Nat.not_lt.1 ‹_›

private theorem finish_written (fuel : Nat) (positive : 0 < dsize / Scoresize)
    (written : Written store dtype dsize f blocks) (some' : blocks ≠ [])
    (enough : blocks.length ≤ fuel) :
    ∃ s top page earlier last, f.finish store fuel = some (s, f.entry top page) ∧
      page.size = dsize / Scoresize * Scoresize ∧
      Holds store dtype (dsize / Scoresize) s.blocks top (f.entry top page).score last ∧
      blocks = earlier ++ last ∧ last ≠ [] ∧
      (earlier = [] ↔ Solid (dsize / Scoresize) (blocks.length - 1)) := by
  rcases eq_nil_or_concat blocks with rfl | ⟨held, b, rfl⟩
  · exact absurd rfl some'
  rw [concat_eq_append] at *
  rw [length_append, length_singleton] at enough ⊢
  obtain ⟨_, s, top, page, earlier, last, flushed, size, holds, same, nonempty, solid⟩ :=
    fflush_last (by rw [written.dsize_eq]) positive held.length fuel enough
      (written.pending held b rfl) (by simp) (by simp)
  refine ⟨s, top, page, earlier, last, ?_, size, holds, same, nonempty, solid⟩
  rw [File.finish, flushed]
  rfl

/-- The last flush of a file without blocks. -/
private theorem finish_empty (fuel : Nat) (positive : 0 < dsize / Scoresize)
    (written : Written store dtype dsize f []) :
    ∃ s top page, f.finish store (fuel + 2) = some (s, f.entry top page) := by
  have room : Scoresize ≤ (Page.new f.dsize).size := by
    rw [written.dsize_eq]
    exact Nat.le_mul_of_pos_left _ positive
  have adds : (Page.new f.dsize).add (store.score Pointertype0 []) =
      some { Page.new f.dsize with d := store.score Pointertype0 [] } := by
    rw [Page.add, if_pos (by simpa [Page.new] using room)]
    rfl
  have flushed := fflush_succ store f true (fuel + 1) 0 f.s (Page.new dsize) [] rfl rfl rfl
  refine ⟨(f.s.write store Pointertype0 []).1, 1,
    { Page.new f.dsize with d := store.score Pointertype0 [] }, ?_⟩
  rw [File.finish, written.first rfl, flushed]
  have data : (Page.new dsize).data = [] := by
    rw [Page.data, Page.new, length_nil, Nat.zero_div, trimscores]
  rw [data, Session.write, Nat.add_zero, adds, bind_some,
    fflush_single (store.length_score _ _)]
  rfl

/-! ### Reading a file -/

private def Reads (store : Store) (src : Source) (text : Bytes) : Prop :=
  0 < src.dsize ∧ ∀ i, src.get store i = some ((text.drop (i * src.dsize)).take src.dsize)

/-- What the reader wants of a block is what the file has of it. -/
private theorem want_eq {i : Nat} (positive : 0 < dsize) (inside : i * dsize < size) :
    (if i + 1 = (size + (dsize - 1)) / dsize then size - i * dsize else dsize) =
      min dsize (size - i * dsize) := by
  have whole : (i + 1) * dsize = i * dsize + dsize := Nat.succ_mul i dsize
  have atLeast : i + 1 ≤ (size + (dsize - 1)) / dsize := by
    rw [Nat.le_div_iff_mul_le positive]
    omega
  split_ifs with last
  · have atMost : (size + (dsize - 1)) / dsize < i + 2 := by omega
    rw [Nat.div_lt_iff_lt_mul positive, show i + 2 = (i + 1) + 1 from rfl, Nat.add_mul (i + 1), Nat.one_mul] at atMost
    omega
  · have more : i + 2 ≤ (size + (dsize - 1)) / dsize := by omega
    rw [Nat.le_div_iff_mul_le positive, show i + 2 = (i + 1) + 1 from rfl, Nat.add_mul (i + 1), Nat.one_mul] at more
    omega

private theorem reads_holds {fan : Nat} {src : Source} (filled : 0 < fan)
    (leaf : (if src.e.flags &&& Entrydir ≠ 0 then Dirtype else Datatype) = dtype)
    (pages : src.e.psize / Scoresize = fan) (room : fan * Scoresize ≤ blocksize src.e)
    (positive : 0 < src.dsize) (sized : src.e.size = blocks.flatten.length)
    (chunked : Chunked src.dsize blocks)
    (holds : Holds store dtype fan src.session.blocks src.e.depth src.e.score blocks) :
    Reads store src blocks.flatten := by
  refine ⟨positive, fun i => ?_⟩
  rw [Source.get, if_neg positive.ne']
  by_cases beyond : src.e.size ≤ i * src.dsize
  · rw [if_pos beyond, drop_eq_nil_of_le (sized ▸ beyond), take_nil]
  have inside : i * src.dsize < blocks.flatten.length := by omega
  have block := chunked.chunk_eq positive i
  have want := want_eq positive inside
  have length := congrArg List.length block
  rw [length_take, length_drop] at length
  rw [← length] at want
  rcases found : blocks[i]? with - | b
  · rw [found, getD_none, length_nil] at length
    omega
  rw [found, getD_some] at block want
  rw [if_neg beyond, sized]
  simp only [want, pages, power]
  have trimmed : trimzeros b <+: b := rdropWhile_prefix _ _
  rw [descend_holds filled leaf pages room trimmed.length_le holds found fun _ => rfl,
    map_some, trimzeros, rdropWhile_append_replicate, block]

private theorem pread_reads {v : Vacfile} {text : Bytes} (reads : Reads store v.s text) (n offset : Nat) :
    v.pread store n offset =
      some ((text.drop offset).take (min n (v.s.dsize - offset % v.s.dsize))) := by
  rw [Vacfile.pread, if_neg reads.1.ne', reads.2, map_some, drop_take, drop_drop,
    take_take, Nat.div_add_mod']

private theorem readall_reads (v : Vacfile) {text : Bytes} (reads : Reads store v.s text)
    {count : Nat → Nat} (wanted : ∀ o, 0 < count o) :
    ∀ fuel {o : Nat}, o ≤ text.length → text.length < fuel + o →
      Vacfile.readall store count fuel ⟨v.s, o⟩ = some (text.drop o) := by
  intro fuel
  induction fuel with
  | zero =>
    intro o inside enough
    omega
  | succ _ ih =>
    intro o _ _
    have piece := pread_reads (v := ⟨v.s, o⟩) reads (count o) o
    have some' : 0 < min (count o) (v.s.dsize - o % v.s.dsize) :=
      lt_min (wanted o) (Nat.sub_pos_of_lt (Nat.mod_lt o reads.1))
    rw [Vacfile.readall, Vacfile.read, piece]
    generalize min (count o) (v.s.dsize - o % v.s.dsize) = n at some'
    simp only [map_some, bind_some]
    split_ifs with done
    · rw [take_eq_nil_iff] at done
      rw [done.resolve_left some'.ne']
    have left : 0 < ((text.drop o).take n).length := length_pos_iff.2 done
    have rest : o + ((text.drop o).take n).length ≤ text.length := by
      rw [length_take, length_drop]
      omega
    rw [ih rest (by omega), map_some, ← drop_drop,
      prefix_iff_eq_append.1 (List.take_prefix n _)]

private theorem roundTrips_reads {s' : Session} {e : Entry}
    (written : (File.new s dtype dsize).writes store fuel blocks = some f)
    (finished : f.finish store fuel = some (s', e)) (sized : e.size = blocks.flatten.length)
    (leaf : (Source.new s' e).dsize = leafsize dtype dsize)
    (reads : Reads store (Source.new s' e) blocks.flatten) :
    RoundTrips store s dtype dsize blocks := by
  refine ⟨fuel, f, s', e, written, finished, sized, fun n offset => ?_, fun count wanted => ?_⟩
  · rw [pread_reads reads, ← leaf]
    rfl
  · exact ⟨blocks.flatten.length + 1, readall_reads (Vacfile.new s' e) reads wanted _
      (Nat.zero_le _) (Nat.lt_succ_self _)⟩

/-- The count of blocks has no zero digit below its top: the file comes back. -/
theorem roundTrips_of_solid (known : dtype = Datatype ∨ dtype = Dirtype)
    (positive : 0 < dsize / Scoresize) (leaf : 0 < leafsize dtype dsize)
    (solid : Solid (dsize / Scoresize) (blocks.length - 1))
    (chunked : Chunked (leafsize dtype dsize) blocks) : RoundTrips store s dtype dsize blocks := by
  have wide : blocks.length ≤ 1 ∨ 2 ≤ dsize / Scoresize := by
    by_contra narrow
    have one : dsize / Scoresize = 1 := by omega
    have nonzero := solid 0 (by rw [pow_zero]; omega)
    rw [one, Nat.mod_one] at nonzero
    exact nonzero rfl
  have ⟨f, done, written⟩ := writes_written store dtype (blocks.length + 2) s positive blocks wide (by omega)
  have known' : f.dtype = Datatype ∨ f.dtype = Dirtype := by rwa [written.dtype_eq]
  rcases eq_nil_or_concat blocks with rfl | ⟨held, b, concat⟩
  · have ⟨s', top, page, finished⟩ := finish_empty 0 positive written
    have dsize_eq := (source_entry s' top page known').2
    rw [written.dtype_eq, written.dsize_eq] at dsize_eq
    refine roundTrips_reads done finished written.size_eq dsize_eq ⟨dsize_eq ▸ leaf, fun i => ?_⟩
    have empty : (f.entry top page).size = 0 := written.size_eq
    rw [Source.get, if_neg (by omega), if_pos (by simp [Source.new, empty])]
    simp
  have ⟨s', top, page, _, _, finished, size, holds, same, _, all⟩ :=
    finish_written (blocks.length + 2) positive written (by simp [concat]) (by omega)
  obtain rfl := all.2 solid
  have ⟨leaf_eq, dsize_eq⟩ := source_entry s' top page known'
  rw [written.dtype_eq] at leaf_eq
  rw [written.dtype_eq, written.dsize_eq] at dsize_eq
  refine roundTrips_reads done finished written.size_eq dsize_eq ?_
  have ⟨psize, room⟩ := entry_pages (f := f) s' top size
  refine reads_holds positive leaf_eq psize room (dsize_eq ▸ leaf) written.size_eq
    (by rwa [dsize_eq]) ?_
  rw [same, nil_append]
  exact holds

/-! ### Files that do not come back -/

private def ones (size n : Nat) : List Bytes :=
  List.replicate size 1 :: List.replicate n (List.replicate size 0)

private theorem length_ones : ∀ b ∈ ones size n, b.length = size := by
  rw [ones, forall_mem_cons]
  exact ⟨length_replicate, fun b member => by rw [(mem_replicate.1 member).2, length_replicate]⟩

private theorem first_zeros {earlier last : List Bytes} (split : ones size n = earlier ++ last)
    (some' : last ≠ []) (lost : earlier ≠ []) : last[0]? = some (List.replicate size 0) := by
  obtain ⟨_, _, rfl⟩ := exists_cons_of_ne_nil lost
  obtain ⟨b, _, rfl⟩ := exists_cons_of_ne_nil some'
  rw [ones, cons_append, List.cons.injEq] at split
  have member : b ∈ List.replicate n (List.replicate size 0) := split.2 ▸ by simp
  rw [getElem?_cons_zero, (mem_replicate.1 member).2]

private theorem trimzeros_zeros (size : Nat) : trimzeros (List.replicate size 0) = [] := by
  rw [trimzeros, rdropWhile_eq_nil_iff]
  intro _ member
  rw [(mem_replicate.1 member).2]
  rfl

/-- A zero digit below the top: the blocks on the higher pages are lost. -/
theorem not_roundTrips_of_not_solid (store : Store) (s : Session)
    (known : dtype = Datatype ∨ dtype = Dirtype) (two : 2 ≤ dsize / Scoresize)
    (leaf : 0 < leafsize dtype dsize) (solid : ¬ Solid (dsize / Scoresize) n) :
    ¬ RoundTrips store s dtype dsize (ones (leafsize dtype dsize) n) := by
  rintro ⟨fuel, f, s', e, done, finished, -, preads, -⟩
  have positive : 0 < dsize / Scoresize := by omega
  have counted : (ones (leafsize dtype dsize) n).length = n + 1 := by simp [ones]
  have ⟨f', done', written⟩ := writes_written store dtype (fuel + (n + 1)) s positive (ones (leafsize dtype dsize) n) (Or.inr two) (by omega)
  obtain rfl : f = f' :=
    Option.some.inj ((writes_mono (Nat.le_add_right fuel (n + 1)) done).symm.trans done')
  have known' : f.dtype = Datatype ∨ f.dtype = Dirtype := by rwa [written.dtype_eq]
  have ⟨_, top, page, _, _, finished', size, holds, same, nonempty, all⟩ :=
    finish_written (fuel + (n + 1)) positive written (by simp [ones]) (by omega)
  obtain ⟨rfl, rfl⟩ := Prod.mk.inj (Option.some.inj
    ((finish_mono finished (Nat.le_add_right fuel (n + 1))).symm.trans finished'))
  rw [counted, Nat.add_sub_cancel] at all
  have zeros := first_zeros same nonempty (mt all.1 solid)
  have ⟨leaf_eq, dsize_eq⟩ := source_entry s' top page known'
  rw [written.dtype_eq] at leaf_eq
  rw [written.dtype_eq, written.dsize_eq] at dsize_eq
  have positive' : 0 < (Source.new s' (f.entry top page)).dsize := dsize_eq ▸ leaf
  have sized : (Source.new s' (f.entry top page)).e.size = (n + 1) * leafsize dtype dsize := by
    rw [show (Source.new s' (f.entry top page)).e.size = f.size from rfl, written.size_eq,
      length_flatten_whole length_ones, counted]
  have inside : 0 * (Source.new s' (f.entry top page)).dsize < (n + 1) * leafsize dtype dsize := by
    rw [Nat.zero_mul]
    exact Nat.mul_pos (Nat.succ_pos n) leaf
  have ⟨psize, room⟩ := entry_pages (f := f) s' top size
  have found : (Source.new s' (f.entry top page)).descend store (leafsize dtype dsize) top
      ((dsize / Scoresize) ^ (top - 1)) 0 (f.entry top page).score = some [] := by
    rw [← trimzeros_zeros (leafsize dtype dsize)]
    exact descend_holds positive leaf_eq psize room (by rw [trimzeros_zeros]; exact Nat.zero_le _) holds
      zeros fun _ => rfl
  -- the reader gets zeros for the first block
  have got : (Source.new s' (f.entry top page)).get store 0 =
      some (List.replicate (leafsize dtype dsize) 0) := by
    rw [Source.get, if_neg positive'.ne', if_neg (by omega), sized]
    simp only [want_eq positive' inside, psize, power]
    rw [dsize_eq, Nat.zero_mul, Nat.sub_zero, Nat.min_eq_left (Nat.le_mul_of_pos_left _ (Nat.succ_pos n))]
    refine (congrArg _ found).trans ?_
    simp
  have read := preads 1 0
  have first : (Vacfile.new s' (f.entry top page)).s = Source.new s' (f.entry top page) := rfl
  rw [Vacfile.pread, first, if_neg positive'.ne', Nat.zero_div, got, Nat.zero_mod, Nat.zero_mod,
    Nat.sub_zero, Nat.min_eq_left leaf] at read
  have ⟨_, size'⟩ := Nat.exists_eq_succ_of_ne_zero leaf.ne'
  rw [size'] at read
  simp [ones, replicate_succ] at read

private theorem fflush_narrow (store : Store) (f : File) (last : Bool) (fuel : Nat) (s : Session)
    (narrow : f.dsize / Scoresize = 0) : fflush store f last fuel 0 s [Page.new f.dsize] = none := by
  have empty : (Page.new f.dsize).size = 0 := by rw [Page.new, narrow, Nat.zero_mul]
  cases fuel with
  | zero => rfl
  | succ _ =>
    have full : (!last && !(Page.new f.dsize).full) = false := by
      rw [Page.full, empty]
      cases last <;> rfl
    rw [fflush_succ _ _ _ _ _ _ _ _ full (by cases last <;> rfl) rfl, Page.add, if_neg]
    · rfl
    · exact empty ▸ Nat.not_le.2 (Nat.succ_pos _)

/-- Pages of one score: each flush fills the next page. -/
private theorem fflush_endless (one : f.dsize / Scoresize = 1) :
    ∀ {fuel i : Nat} {s : Session} {page : Page}, page.size = Scoresize → page.d.length = Scoresize →
      fflush store f false fuel i s [page] = none
  | 0, _, _, _, _, _ => rfl
  | fuel + 1, i, s, page, size, full => by
    have isFull : page.full = true := by rw [Page.full, size, full]; rfl
    have adds : (Page.new f.dsize).add (s.write store (Pointertype0 + i) page.data).2 =
        some ⟨Scoresize, store.score (Pointertype0 + i) page.data⟩ := by
      rw [Page.new, one, Nat.one_mul, Page.add, if_pos]
      · rfl
      · exact le_refl Scoresize
    rw [fflush_succ _ _ _ _ _ _ _ _ (by rw [isFull]; rfl) rfl rfl, adds, bind_some,
      fflush_endless one rfl (store.length_score _ _), map_none]

private theorem not_roundTrips_of_narrow (narrow : dsize / Scoresize = 0) :
    ¬ RoundTrips store s dtype dsize blocks := by
  rintro ⟨fuel, f, s', e, done, finished, -⟩
  cases blocks with
  | nil =>
    obtain rfl := Option.some.inj done
    have stuck := fflush_narrow store (File.new s dtype dsize) true fuel s narrow
    obtain ⟨_, flushed, -⟩ := bind_eq_some_iff.1 finished
    exact absurd (flushed.symm.trans stuck) (by simp)
  | cons _ _ =>
    have stuck := fflush_narrow store (File.new s dtype dsize) false fuel s narrow
    rw [File.writes, foldlM_cons] at done
    obtain ⟨_, wrote, -⟩ := bind_eq_some_iff.1 done
    obtain ⟨_, flushed, -⟩ := bind_eq_some_iff.1 wrote
    exact absurd (flushed.symm.trans stuck) (by simp)

private theorem not_roundTrips_of_one (one : dsize / Scoresize = 1) (many : 2 ≤ blocks.length) :
    ¬ RoundTrips store s dtype dsize blocks := by
  rintro ⟨fuel, f, s', e, done, -⟩
  match blocks, many with
  | first :: second :: blocks, _ =>
    rw [File.writes, foldlM_cons] at done
    obtain ⟨f', wrote, done⟩ := bind_eq_some_iff.1 done
    rw [foldlM_cons] at done
    obtain ⟨_, wrote', -⟩ := bind_eq_some_iff.1 done
    obtain ⟨_, flushed, -⟩ := bind_eq_some_iff.1 wrote'
    have page : ∃ page, f'.p = [page] ∧ page.size = Scoresize ∧ page.d.length = Scoresize ∧
        f'.dsize / Scoresize = 1 := by
      cases fuel with
      | zero => exact absurd wrote (by simp [File.write, fflush])
      | succ _ =>
        have room : (Page.new dsize).full = false := by rw [Page.new, one]; rfl
        have fresh : (File.new s dtype dsize).p = [Page.new dsize] := rfl
        rw [File.write, fresh, fflush_room room, bind_some] at wrote
        obtain ⟨page, adds, rfl⟩ := map_eq_some_iff.1 wrote
        rw [Page.new, one, Nat.one_mul, Page.add] at adds
        obtain rfl := Option.some.inj adds
        exact ⟨_, rfl, rfl, store.length_score _ _, one⟩
    obtain ⟨page, pages, size, full, one'⟩ := page
    rw [pages, fflush_endless one' size full] at flushed
    exact absurd flushed (by simp)

private theorem not_roundTrips_of_leafless (known : dtype = Datatype ∨ dtype = Dirtype)
    (positive : 0 < dsize / Scoresize) (wide : blocks.length ≤ 1 ∨ 2 ≤ dsize / Scoresize)
    (leafless : leafsize dtype dsize = 0) : ¬ RoundTrips store s dtype dsize blocks := by
  rintro ⟨fuel, f, s', e, done, finished, -, preads, -⟩
  have ⟨f', done', written⟩ := writes_written store dtype (fuel + (blocks.length + 2)) s positive blocks wide (by omega)
  have more : fuel ≤ fuel + (blocks.length + 2) := Nat.le_add_right _ _
  obtain rfl : f = f' := Option.some.inj ((writes_mono more done).symm.trans done')
  have entry : ∃ top page, e = f.entry top page := by
    rcases eq_nil_or_concat blocks with rfl | ⟨held, b, concat⟩
    · have ⟨_, top, page, finished'⟩ := finish_empty (fuel + 0) positive written
      exact ⟨top, page, (Prod.mk.inj (Option.some.inj
        ((finish_mono finished more).symm.trans finished'))).2⟩
    obtain ⟨_, top, page, _, _, finished', -⟩ := finish_written
      (fuel + (blocks.length + 2)) positive written (by simp [concat]) (by omega)
    exact ⟨top, page, (Prod.mk.inj (Option.some.inj
      ((finish_mono finished more).symm.trans finished'))).2⟩
  obtain ⟨top, page, rfl⟩ := entry
  have dsize_eq := (source_entry s' top page (by rwa [written.dtype_eq])).2
  rw [written.dtype_eq, written.dsize_eq, leafless] at dsize_eq
  have read := preads 0 0
  rw [Vacfile.pread, if_pos (show (Vacfile.new s' (f.entry top page)).s.dsize = 0 from dsize_eq)] at read
  exact absurd read (by simp)

/-! ### The claim -/

/-- Files of so many blocks come back, whatever their bytes, exactly when a pointer block has
room for a score, a block has room for a byte, and the number of blocks before the last has
no zero digit below its top in the base of the fan-out. -/
theorem files_round_trip_iff (store : Store) (dsize n : Nat)
    (known : dtype = Datatype ∨ dtype = Dirtype) :
    (∀ (s : Session) (blocks : List Bytes), blocks.length = n →
      Chunked (leafsize dtype dsize) blocks → RoundTrips store s dtype dsize blocks) ↔
    0 < dsize / Scoresize ∧ 0 < leafsize dtype dsize ∧
      ∀ j, (dsize / Scoresize) ^ j ≤ n - 1 → (n - 1) / (dsize / Scoresize) ^ j % (dsize / Scoresize) ≠ 0 := by
  constructor
  · intro all
    have zeros : RoundTrips store ⟨[]⟩ dtype dsize
        (List.replicate n (List.replicate (leafsize dtype dsize) 0)) := by
      refine all _ _ length_replicate (chunked_of_whole fun chunk member => ?_)
      rw [(mem_replicate.1 member).2, length_replicate]
    have positive : 0 < dsize / Scoresize := Nat.pos_of_ne_zero fun narrow =>
      not_roundTrips_of_narrow narrow zeros
    have wide : n ≤ 1 ∨ 2 ≤ dsize / Scoresize := by
      by_contra narrow
      exact not_roundTrips_of_one (by omega) (by rw [length_replicate]; omega) zeros
    have leaf : 0 < leafsize dtype dsize := Nat.pos_of_ne_zero fun leafless =>
      not_roundTrips_of_leafless known positive (by rwa [length_replicate]) leafless zeros
    refine ⟨positive, leaf, ?_⟩
    by_contra solid
    have some' : n - 1 ≠ 0 := by
      intro first
      rw [first] at solid
      exact solid (solid_zero positive)
    refine not_roundTrips_of_not_solid store ⟨[]⟩ known (by omega) leaf solid (all ⟨[]⟩ _ ?_ ?_)
    · simp only [ones, length_cons, length_replicate]
      omega
    · exact chunked_of_whole length_ones
  · rintro ⟨positive, leaf, solid⟩ s blocks rfl chunked
    exact roundTrips_of_solid known positive leaf solid chunked

/-- A server whose scores number the blocks of a type. -/
def numbering : Store where
  score _ data :=
    if data = [] then Score.zero else (Encodable.encode data + 256) :: List.replicate (Scoresize - 1) 0
  length_score _ data := by
    split_ifs <;> simp +decide
  score_injective {_ data data'} same := by
    split_ifs at same with empty empty'
    · rw [empty, empty']
    · simp [Score.zero] at same
    · simp [Score.zero] at same
    · simpa using same
  eq_nil_of_zero {_ data} zero := by
    by_contra some'
    rw [if_neg some', Score.zero] at zero
    simp at zero

theorem files_round_trip_iff_dsize : Datatype = Datatype ∧
    ((∀ (s : Session) (blocks : List Bytes), blocks.length = 409 →
      Chunked (leafsize Datatype 8192) blocks → RoundTrips numbering s Datatype 8192 blocks) ↔
    0 < 8192 / Scoresize ∧ 0 < leafsize Datatype 8192 ∧
      ∀ j, (8192 / Scoresize) ^ j ≤ 409 - 1 →
        (409 - 1) / (8192 / Scoresize) ^ j % (8192 / Scoresize) ≠ 0) :=
  ⟨rfl, files_round_trip_iff numbering 8192 409 (Or.inl rfl)⟩

/-- One block more than a page of scores, at the block size of an archive. -/
theorem not_files_round_trip : ¬ ∀ (store : Store) (s : Session) (dtype dsize : Nat)
    (blocks : List Bytes), dtype = Datatype ∨ dtype = Dirtype → Chunked (leafsize dtype dsize) blocks →
      RoundTrips store s dtype dsize blocks := by
  intro all
  have lost : ¬ Solid (8192 / Scoresize) 409 := fun solid => solid 0 (by decide) (by decide)
  exact not_roundTrips_of_not_solid numbering ⟨[]⟩ (Or.inl rfl) (by decide) (by decide) lost
    (all numbering ⟨[]⟩ Datatype 8192 _ (Or.inl rfl) (chunked_of_whole length_ones))

end Infernode.Vac
