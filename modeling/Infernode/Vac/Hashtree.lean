import Mathlib.Data.List.Forall2
import Infernode.Codec.Chunks
import Infernode.Vac.Vac

/-!
Contract: what a score stands for, and that the reader finds it.

Owns: `Stored` and `Holds`, the blocks under a score at a depth; that they stay when the
server gets more blocks; and `descend_holds`, the reader's way to a block.
-/

namespace Infernode.Vac

open Wire Chunks List

variable {store : Store} {dtype fan : Nat} {blocks : List (Nat × Bytes)}

/-! ### Scores of a pointer block -/

theorem trimscores_length_le (d : Bytes) : ∀ k, (trimscores d k).length ≤ k * Scoresize
  | 0 => Nat.zero_le _
  | k + 1 => by
    rw [trimscores]
    split_ifs
    · have shorter := trimscores_length_le d k
      rw [Nat.succ_mul]
      omega
    · rw [length_take]
      exact min_le_left _ _

theorem scoreAt_trimscores {d : Bytes} : ∀ {k : Nat}, k * Scoresize ≤ d.length → ∀ {j}, j < k →
    scoreAt (trimscores d k) j = (d.drop (j * Scoresize)).take Scoresize
  | 0, _, j, below => absurd below (Nat.not_lt_zero j)
  | k + 1, fits, j, below => by
    rw [Nat.succ_mul] at fits
    rw [trimscores]
    split_ifs with zero
    · rcases Nat.lt_succ_iff_lt_or_eq.1 below with earlier | rfl
      · exact scoreAt_trimscores (by omega) earlier
      have shorter := trimscores_length_le d j
      rw [scoreAt, if_neg, zero]
      rw [Nat.succ_mul]
      simp only [Scoresize] at *
      omega
    have inside : (j + 1) * Scoresize ≤ (k + 1) * Scoresize := Nat.mul_le_mul_right _ below
    have room : Scoresize ≤ (k + 1) * Scoresize - j * Scoresize := by
      rw [Nat.succ_mul] at inside
      omega
    rw [scoreAt, if_pos]
    · rw [drop_take, take_take, Nat.min_eq_left room]
    · rw [length_take, Nat.succ_mul k]
      rw [Nat.succ_mul k] at inside
      omega

variable {scores : List Bytes} {depth : Nat}

variable {j : Nat} {score : Bytes} {chunks : List (List Bytes)}

theorem scoreAt_flatten (sized : ∀ score ∈ scores, score.length = Scoresize)
    (present : scores[j]? = some score) :
    scoreAt (trimscores scores.flatten scores.length) j = score := by
  obtain ⟨below, rfl⟩ := List.getElem?_eq_some_iff.1 present
  have length := length_flatten_whole sized
  rw [scoreAt_trimscores length.ge below, drop_flatten (by decide) (chunked_of_whole sized),
    Nat.mul_div_cancel _ (by decide), Nat.mul_mod_left, drop_zero, present, Option.getD_some,
    take_append_of_le_length (sized _ (getElem_mem below)).ge,
    take_of_length_le (sized _ (getElem_mem below)).le]

/-! ### Stored blocks -/

def Stored (store : Store) (blocks : List (Nat × Bytes)) (etype : Nat) (score data : Bytes) : Prop :=
  score = store.score etype data ∧ (etype, data) ∈ blocks

theorem Stored.read {etype : Nat} {score data : Bytes} {s : Session}
    (stored : Stored store s.blocks etype score data) {maxn : Nat} (fits : data.length ≤ maxn) :
    s.read store score etype maxn = some data := by
  obtain ⟨rfl, member⟩ := stored
  rw [Session.read]
  split_ifs with zero
  · rw [store.eq_nil_of_zero zero]
  have present : (s.blocks.find? fun block =>
      block.1 = etype ∧ store.score block.1 block.2 = store.score etype data).isSome := by
    rw [find?_isSome]
    exact ⟨_, member, by simp⟩
  have ⟨block, found⟩ := Option.isSome_iff_exists.1 present
  have same := find?_some found
  have ⟨_, _⟩ := block
  simp only [decide_eq_true_eq] at same
  obtain ⟨rfl, scores⟩ := same
  rw [found, Option.bind_some, store.score_injective scores, if_pos fits]

/-! ### The tree under a score -/

/-- The blocks under a score at a depth, where a pointer block has `fan` scores at most and
every score in it but the last has all the blocks that its depth allows. -/
def Holds (store : Store) (dtype fan : Nat) (blocks : List (Nat × Bytes)) :
    Nat → Bytes → List Bytes → Prop
  | 0, score, held => ∃ b, held = [b] ∧ Stored store blocks dtype score (trimzeros b)
  | depth + 1, score, held =>
    ∃ scores chunks, List.Forall₂ (Holds store dtype fan blocks depth) scores chunks ∧
      Chunked (fan ^ depth) chunks ∧ scores.length ≤ fan ∧ held = chunks.flatten ∧
      Stored store blocks (Pointertype0 + depth) score (trimscores scores.flatten scores.length)

theorem Holds.length_score {held : List Bytes}
    (holds : Holds store dtype fan blocks depth score held) : score.length = Scoresize := by
  cases depth with
  | zero =>
    obtain ⟨_, -, rfl, -⟩ := holds
    exact store.length_score _ _
  | succ _ =>
    obtain ⟨_, _, -, -, -, -, rfl, -⟩ := holds
    exact store.length_score _ _

theorem Holds.mono {blocks' : List (Nat × Bytes)} (more : blocks ⊆ blocks') :
    ∀ {depth : Nat} {score : Bytes} {held : List Bytes},
      Holds store dtype fan blocks depth score held → Holds store dtype fan blocks' depth score held
  | 0, _, _, ⟨b, same, score, member⟩ => ⟨b, same, score, more member⟩
  | _ + 1, _, _, ⟨scores, chunks, children, chunked, few, same, score, member⟩ =>
    ⟨scores, chunks, children.imp fun _ _ child => Holds.mono more child, chunked, few, same, score,
      more member⟩

theorem length_scores (children : List.Forall₂ (Holds store dtype fan blocks depth) scores chunks) :
    ∀ score ∈ scores, score.length = Scoresize := by
  induction children with
  | nil => exact fun score member => absurd member not_mem_nil
  | cons child _ ih =>
    exact forall_mem_cons.2 ⟨child.length_score, ih⟩

/-! ### Reading -/

private theorem child_at
    (children : List.Forall₂ (Holds store dtype fan blocks depth) scores chunks)
    {chunk : List Bytes} (present : chunks[j]? = some chunk) :
    ∃ score, scores[j]? = some score ∧ Holds store dtype fan blocks depth score chunk := by
  induction children generalizing j with
  | nil => simp at present
  | cons child _ ih =>
    cases j with
    | zero => exact ⟨_, rfl, by simpa [Option.some.inj present] using child⟩
    | succ _ => exact ih (by simpa using present)

theorem descend_holds {s : Source} {want : Nat} (positive : 0 < fan)
    (leaf : (if s.e.flags &&& Entrydir ≠ 0 then Dirtype else Datatype) = dtype)
    (pages : s.e.psize / Scoresize = fan) (room : fan * Scoresize ≤ blocksize s.e) {b : Bytes}
    (fits : (trimzeros b).length ≤ want) : ∀ {depth np i : Nat} {score : Bytes} {held : List Bytes},
      Holds store dtype fan s.session.blocks depth score held → held[i]? = some b →
      (depth ≠ 0 → np = fan ^ (depth - 1)) →
      s.descend store want depth np i score = some (trimzeros b)
  | 0, np, i, score, held, ⟨b', same, stored⟩, found, _ => by
    subst same
    rw [List.getElem?_singleton] at found
    split_ifs at found
    cases found
    rw [Source.descend, leaf, stored.read fits]
  | depth + 1, np, i, score, held, ⟨scores, chunks, children, chunked, few, same, stored⟩, found,
      width => by
      have filled : 0 < fan ^ depth := Nat.pow_pos positive
      obtain rfl : np = fan ^ depth := width (Nat.succ_ne_zero _)
      subst same
      have size : (trimscores scores.flatten scores.length).length ≤ blocksize s.e :=
        le_trans (trimscores_length_le _ _) (le_trans (Nat.mul_le_mul_right _ few) room)
      rw [getElem?_flatten filled chunked] at found
      rcases chunk : chunks[i / fan ^ depth]? with - | held
      · rw [chunk] at found
        simp at found
      rw [chunk, Option.getD_some] at found
      have ⟨_, place, holds⟩ := child_at children chunk
      rw [Source.descend, stored.read size, Option.bind_some, pages,
        if_neg (by simp [positive.ne']), scoreAt_flatten (length_scores children) place]
      refine descend_holds positive leaf pages room fits holds found fun deeper => ?_
      obtain ⟨_, rfl⟩ := Nat.exists_eq_succ_of_ne_zero deeper
      rw [Nat.succ_sub_one, pow_succ, Nat.mul_div_cancel _ positive]

end Infernode.Vac
