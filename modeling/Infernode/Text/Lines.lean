import Mathlib.Data.List.Infix
import Mathlib.Tactic.Common

/-!
Texts that are made of lines.

Contract: the pieces between the separators of a text that is written line by line are the lines,
and a text that is cut short has some of the lines and a part of the next.
-/

namespace Infernode.Text

open List

variable {α : Type} {sep : α}

/-- A text of lines, each of which is followed by the separator. -/
def ofLines (sep : α) (lines : List (List α)) : List α := lines.flatMap (· ++ [sep])

@[simp] theorem ofLines_nil : ofLines sep [] = [] := rfl

theorem ofLines_cons (line : List α) (lines : List (List α)) :
    ofLines sep (line :: lines) = line ++ sep :: ofLines sep lines := by
  unfold ofLines
  rw [flatMap_cons, append_assoc]
  rfl

theorem ofLines_append (front back : List (List α)) :
    ofLines sep (front ++ back) = ofLines sep front ++ ofLines sep back := flatMap_append

/-- A text that is cut short has some of the lines and a part of the next. -/
theorem prefix_ofLines {lines : List (List α)} {last front : List α} (clean : sep ∉ last)
    (cleanLines : ∀ line ∈ lines, sep ∉ line) (isPrefix : front <+: ofLines sep lines ++ last) :
    ∃ done part, done <+: lines ∧ front = ofLines sep done ++ part ∧ sep ∉ part ∧
      (done = lines → part <+: last) := by
  induction lines generalizing front with
  | nil =>
    have whole : front <+: last := isPrefix
    exact ⟨[], front, prefix_rfl, rfl, fun member => clean (whole.subset member),
      fun _ => whole⟩
  | cons line _ ih =>
    have cleanHere := cleanLines line (mem_cons_self ..)
    rw [ofLines_cons, append_assoc, cons_append] at isPrefix
    rcases List.prefix_or_prefix_of_prefix isPrefix (prefix_append line _) with
      inside | ⟨rest, rfl⟩
    · exact ⟨[], front, nil_prefix, rfl, fun member => cleanHere (inside.subset member),
        nofun⟩
    have isPrefix := (prefix_append_right_inj line).1 isPrefix
    cases rest with
    | nil =>
      rw [append_nil]
      exact ⟨[], line, nil_prefix, rfl, cleanHere, nofun⟩
    | cons _ _ =>
      obtain ⟨rfl, isPrefix⟩ := cons_prefix_cons.1 isPrefix
      obtain ⟨done, part, isDone, rfl, cleanPart, whole⟩ := ih
        (forall_mem_cons.1 cleanLines).2 isPrefix
      refine ⟨line :: done, part, cons_prefix_cons.2 ⟨rfl, isDone⟩, ?_, cleanPart, ?_⟩
      · rw [ofLines_cons, append_assoc, cons_append]
      · exact fun same => whole (List.cons.inj same).2

section Pieces

variable [BEq α] [LawfulBEq α]

theorem splitOn_last {line : List α} (clean : sep ∉ line) : line.splitOn sep = [line] := by
  apply splitOnP_eq_singleton
  intro _ member
  rw [beq_eq_false_iff_ne]
  exact fun same => clean (same ▸ member)

/-- The first piece ends at the first separator. -/
theorem splitOn_line {line : List α} (clean : sep ∉ line) (rest : List α) :
    (line ++ sep :: rest).splitOn sep = line :: rest.splitOn sep := by
  have pieces : (line ++ sep :: rest).splitOn sep = line.splitOn sep ++ rest.splitOn sep :=
    splitOnP_append_cons line rest (beq_self_eq_true sep)
  rw [pieces, splitOn_last clean]
  rfl

theorem splitOn_ofLines {lines : List (List α)} (clean : ∀ line ∈ lines, sep ∉ line)
    (rest : List α) : (ofLines sep lines ++ rest).splitOn sep = lines ++ rest.splitOn sep := by
  induction lines with
  | nil => rfl
  | cons line _ ih =>
    rw [ofLines_cons, append_assoc, cons_append,
      splitOn_line (clean line (mem_cons_self ..)),
      ih (forall_mem_cons.1 clean).2]
    rfl

end Pieces

end Infernode.Text
