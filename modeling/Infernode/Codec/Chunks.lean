import Mathlib.Data.List.Basic
import Mathlib.Data.List.DropRight
import Mathlib.Tactic.Common
import Mathlib.Tactic.Ring

/-!
Contract: lists cut into chunks of one size, where the last chunk may be shorter.

Owns: `Chunked`; an element or a run of the whole list by the chunk and the place in it;
the number of chunks; and the last run of some element taken off a list and put back.
-/

namespace Infernode.Chunks

open List

variable {α : Type}

/-- Every chunk but the last has the size, and the last no more. -/
def Chunked (size : Nat) : List (List α) → Prop
  | [] => True
  | [chunk] => chunk.length ≤ size
  | chunk :: next :: chunks => chunk.length = size ∧ Chunked size (next :: chunks)

variable {size : Nat}

theorem chunked_append {last : List α} (short : last.length ≤ size) :
    ∀ {chunks : List (List α)}, (∀ chunk ∈ chunks, chunk.length = size) →
      Chunked size (chunks ++ [last])
  | [], _ => short
  | [chunk], whole => ⟨whole chunk (by simp), short⟩
  | chunk :: next :: chunks, whole =>
    ⟨whole chunk (by simp), chunked_append short
      (List.forall_mem_cons.1 whole).2⟩

theorem chunked_of_whole : ∀ {chunks : List (List α)},
    (∀ chunk ∈ chunks, chunk.length = size) → Chunked size chunks
  | [], _ => trivial
  | [chunk], whole => (whole chunk (by simp)).le
  | chunk :: next :: chunks, whole =>
    ⟨whole chunk (by simp), chunked_of_whole
      (List.forall_mem_cons.1 whole).2⟩

variable {chunks : List (List α)}

theorem length_flatten_whole (whole : ∀ chunk ∈ chunks, chunk.length = size) :
    chunks.flatten.length = chunks.length * size := by
  induction chunks with
  | nil => simp
  | cons chunk _ ih =>
    rw [flatten_cons, length_append, length_cons, Nat.succ_mul, whole chunk (by simp),
      ih (forall_mem_cons.1 whole).2]
    omega

/-- The rest of the whole list from an index on starts in the chunk of the index. -/
theorem drop_flatten (positive : 0 < size) : ∀ {chunks : List (List α)},
    Chunked size chunks → ∀ i, chunks.flatten.drop i =
      ((chunks[i / size]?).getD []).drop (i % size) ++ (chunks.drop (i / size + 1)).flatten
  | [], _, i => by simp
  | [chunk], chunked, i => by
    rw [List.flatten_cons, List.flatten_nil, List.append_nil]
    by_cases inside : i < size
    · rw [Nat.div_eq_of_lt inside, Nat.mod_eq_of_lt inside]
      simp
    have beyond : 1 ≤ i / size := (Nat.one_le_div_iff positive).2 (Nat.not_lt.1 inside)
    have ⟨_, later⟩ := Nat.exists_eq_add_of_le' beyond
    have short : chunk.length ≤ i := le_trans chunked (Nat.not_lt.1 inside)
    rw [later, drop_eq_nil_of_le short]
    simp
  | chunk :: next :: chunks, ⟨whole, chunked⟩, i => by
    rw [flatten_cons]
    by_cases inside : i < size
    · rw [Nat.div_eq_of_lt inside, Nat.mod_eq_of_lt inside, drop_append_of_le_length (by omega)]
      simp
    have shifted := drop_flatten positive chunked (i - size)
    have quotient : i / size = (i - size) / size + 1 :=
      Nat.div_eq_sub_div positive (Nat.not_lt.1 inside)
    have remainder : i % size = (i - size) % size := Nat.mod_eq_sub_mod (Nat.not_lt.1 inside)
    have outside : chunk.length ≤ i := by omega
    rw [quotient, remainder, drop_append, drop_eq_nil_of_le outside, nil_append, whole,
      shifted]
    simp

theorem Chunked.last_of_short : ∀ {chunks : List (List α)}, Chunked size chunks → ∀ k,
    ((chunks[k]?).getD []).length < size → (chunks.drop (k + 1)).flatten = []
  | [], _, _, _ => by simp
  | [_], _, _, _ => by simp
  | chunk :: next :: chunks, ⟨whole, chunked⟩, k, short => by
    cases k with
    | zero =>
      simp only [List.getElem?_cons_zero, Option.getD_some] at short
      omega
    | succ k => exact last_of_short chunked k (by simpa using short)

theorem Chunked.chunk_eq (positive : 0 < size) (chunked : Chunked size chunks) (i : Nat) :
    (chunks[i]?).getD [] = (chunks.flatten.drop (i * size)).take size := by
  rw [drop_flatten positive chunked, Nat.mul_div_cancel _ positive, Nat.mul_mod_left, drop_zero]
  rcases Nat.lt_or_ge ((chunks[i]?).getD []).length size with short | long
  · rw [chunked.last_of_short i short, append_nil, take_of_length_le short.le]
  have whole : ((chunks[i]?).getD []).length = size := by
    refine le_antisymm ?_ long
    clear long
    induction chunks generalizing i with
    | nil => simp
    | cons _ chunks ih =>
      cases chunks with
      | nil =>
        cases i with
        | zero => exact chunked
        | succ _ => simp
      | cons _ _ =>
        cases i with
        | zero => exact chunked.1.le
        | succ i => exact ih chunked.2 i
  rw [take_append_of_le_length long, take_of_length_le whole.le]

theorem getElem?_flatten (positive : 0 < size) (chunked : Chunked size chunks) (i : Nat) :
    chunks.flatten[i]? = ((chunks[i / size]?).getD [])[i % size]? := by
  rw [chunked.chunk_eq positive, getElem?_take_of_lt (Nat.mod_lt i positive), getElem?_drop,
    Nat.div_add_mod']

/-! ### Trailing runs -/

/-- What is taken off the end of a list can be put back. -/
theorem rdropWhile_append_replicate [DecidableEq α] (zero : α) (list : List α) :
    list.rdropWhile (fun a => decide (a = zero)) ++ List.replicate
      (list.length - (list.rdropWhile fun a => decide (a = zero)).length) zero = list := by
  induction list using List.reverseRecOn with
  | nil => rfl
  | append_singleton list a ih =>
    rw [rdropWhile_concat]
    by_cases same : a = zero
    · have fits := (List.rdropWhile_prefix (fun a => decide (a = zero)) list).length_le
      rw [if_pos (by simp [same]), length_append, length_singleton,
        Nat.sub_add_comm fits, replicate_succ', ← append_assoc, ih, same]
    · rw [if_neg (by simp [same])]
      simp

end Infernode.Chunks
