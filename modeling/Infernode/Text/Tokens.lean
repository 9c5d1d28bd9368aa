import Mathlib.Data.List.Basic
import Mathlib.Data.List.TakeWhile
import Mathlib.Tactic.Common

/-!
Contract: splitting a text into the words between delimiters, and joining words
with one delimiter.

Owns: what a cut of a text keeps, `tokens`, its behaviour at a delimiter, the two round trips between
`tokens` and `List.intercalate`, and `WellSpaced`, the texts that the round trip
gives back unchanged.
-/

namespace Infernode.Text

open List

universe u

variable {α : Type u}

def tokens (isDelim : α → Bool) (text : List α) : List (List α) :=
  (text.splitOnP isDelim).filter (fun piece => !piece.isEmpty)

variable {text : List α}

section Cut

variable {keep : α → Bool}

/-- What a cut keeps, when the next character is not kept. -/
theorem takeWhile_append_stop {left rest : List α} {stop : α}
    (clean : ∀ c ∈ left, keep c = true) (stops : keep stop = false) :
    (left ++ stop :: rest).takeWhile keep = left := by
  rw [takeWhile_append_of_pos clean, takeWhile_cons_of_neg (by simp [stops]),
    append_nil]

variable (keep) in
/-- A text is kept whole, or goes on after the cut with a character that is not kept. -/
theorem takeWhile_cases (text : List α) :
    (∀ c ∈ text, keep c = true) ∨
      ∃ left stop rest, text = left ++ stop :: rest ∧ (∀ c ∈ left, keep c = true) ∧
        keep stop = false := by
  induction text with
  | nil => exact Or.inl (by simp)
  | cons head tail ih =>
    cases kept : keep head with
    | false => exact Or.inr ⟨[], head, tail, rfl, by simp, kept⟩
    | true =>
      rcases ih with clean | ⟨left, stop, rest, rfl, clean, stops⟩
      · exact Or.inl (by simpa [kept] using clean)
      · exact Or.inr ⟨head :: left, stop, rest, rfl, by simpa [kept] using clean, stops⟩

end Cut

variable {delim : α}

section Delimiters

variable {isDelim : α → Bool}

@[simp] theorem tokens_nil : tokens isDelim [] = [] := by
  simp [tokens, splitOnP_nil]

/-- A delimiter separates: the words of the two sides are the words of the whole. -/
theorem tokens_append_delim (isIt : isDelim delim = true) (left right : List α) :
    tokens isDelim (left ++ delim :: right) = tokens isDelim left ++ tokens isDelim right := by
  unfold tokens
  rw [splitOnP_append_cons left right isIt, filter_append]

theorem tokens_concat_delim (isIt : isDelim delim = true) (text : List α) :
    tokens isDelim (text ++ [delim]) = tokens isDelim text := by
  simpa using tokens_append_delim isIt text []

variable {word : List α}

/-- A non-empty text without a delimiter is one word. -/
theorem tokens_eq_singleton (nonempty : word ≠ []) (clean : ∀ c ∈ word, isDelim c = false) :
    tokens isDelim word = [word] := by
  unfold tokens
  rw [splitOnP_eq_singleton clean]
  simp [nonempty]

/-- A text whose pieces are words, each followed by a delimiter. -/
theorem tokens_flatMap_concat (isIt : isDelim delim = true) (texts : List (List α)) :
    tokens isDelim (texts.flatMap (· ++ [delim])) = texts.flatMap (tokens isDelim) := by
  induction texts with
  | nil => simp
  | cons _ _ ih =>
    rw [flatMap_cons, flatMap_cons, append_assoc, singleton_append,
      tokens_append_delim isIt, ih]

private theorem mem_tokens_piece (member : word ∈ tokens isDelim text) :
    (word ≠ [] ∧ ∀ c ∈ word, isDelim c = false) ∧ word.Sublist text := by
  have cleanCase : ∀ left : List α, (∀ c ∈ left, isDelim c = false) →
      word ∈ tokens isDelim left →
        (word ≠ [] ∧ ∀ c ∈ word, isDelim c = false) ∧ word.Sublist left := by
    intro left clean inLeft
    by_cases leftNil : left = []
    · simp [leftNil] at inLeft
    · rw [tokens_eq_singleton leftNil clean, mem_singleton] at inLeft
      exact ⟨⟨inLeft ▸ leftNil, inLeft ▸ clean⟩, inLeft ▸ List.Sublist.refl left⟩
  induction size : text.length using Nat.strongRecOn generalizing text with
  | ind length ih =>
    rcases takeWhile_cases (fun c => !isDelim c) text with
      clean | ⟨left, delim, right, rfl, clean, isIt⟩
    · exact cleanCase text (by simpa using clean) member
    simp only [Bool.not_eq_false', Bool.not_eq_true'] at isIt clean
    rw [tokens_append_delim isIt, mem_append] at member
    rcases member with inLeft | inRight
    · have ⟨proper, inside⟩ := cleanCase left clean inLeft
      exact ⟨proper, inside.trans (sublist_append_left ..)⟩
    have smaller : right.length < length := by
      rw [← size, length_append, length_cons]
      omega
    have ⟨proper, inside⟩ := ih right.length smaller inRight rfl
    exact ⟨proper, inside.trans
      ((sublist_cons_self ..).trans (sublist_append_right ..))⟩

theorem mem_tokens (member : word ∈ tokens isDelim text) :
    word ≠ [] ∧ ∀ c ∈ word, isDelim c = false := (mem_tokens_piece member).1

theorem tokens_sublist (member : word ∈ tokens isDelim text) :
    word.Sublist text := (mem_tokens_piece member).2

/-- Texts that go on after their first delimiter agree before it and after it. -/
theorem append_delim_inj {first second : α} {left right leftRest rightRest : List α}
    (leftClean : ∀ c ∈ left, isDelim c = false) (rightClean : ∀ c ∈ right, isDelim c = false)
    (firstDelim : isDelim first = true) (secondDelim : isDelim second = true)
    (same : left ++ first :: leftRest = right ++ second :: rightRest) :
    left = right ∧ first = second ∧ leftRest = rightRest := by
  induction left generalizing right with
  | nil =>
    cases right with
    | nil => simpa using same
    | cons head _ =>
      have headEq : first = head := (List.cons.inj same).1
      rw [headEq, rightClean head (by simp)] at firstDelim
      cases firstDelim
  | cons head _ ih =>
    cases right with
    | nil =>
      have headEq : head = second := (List.cons.inj same).1
      rw [← headEq, leftClean head (by simp)] at secondDelim
      cases secondDelim
    | cons _ _ =>
      have ⟨headEq, later⟩ := List.cons.inj same
      have ⟨tails, delims, rests⟩ := ih
        (forall_mem_cons.1 leftClean).2
        (forall_mem_cons.1 rightClean).2 later
      exact ⟨by rw [headEq, tails], delims, rests⟩

end Delimiters

section Join

variable [BEq α] [LawfulBEq α]

omit [BEq α] [LawfulBEq α] in
theorem mem_intercalate {c : α} {words : List (List α)} (member : c ∈ [delim].intercalate words) :
    c = delim ∨ ∃ word ∈ words, c ∈ word := by
  induction words with
  | nil => simp [List.intercalate] at member
  | cons head tail ih =>
    cases tail with
    | nil => exact Or.inr ⟨head, by simp, by simpa [List.intercalate] using member⟩
    | cons next rest =>
      have shape : [delim].intercalate (head :: next :: rest) =
          head ++ delim :: [delim].intercalate (next :: rest) := by
        simp [List.intercalate]
      rw [shape, mem_append, mem_cons] at member
      rcases member with inHead | isDelim | later
      · exact Or.inr ⟨head, by simp, inHead⟩
      · exact Or.inl isDelim
      · rcases ih later with isDelim | ⟨word, inTail, inWord⟩
        · exact Or.inl isDelim
        · exact Or.inr ⟨word, mem_cons_of_mem _ inTail, inWord⟩

theorem mem_splitOn (delim : α) {c : α} (member : c ∈ text) :
    c = delim ∨ ∃ piece ∈ text.splitOn delim, c ∈ piece := by
  have joined : [delim].intercalate (text.splitOn delim) = text := intercalate_splitOn delim
  rw [← joined] at member
  exact mem_intercalate member

theorem tokens_intercalate (delim : α) (words : List (List α))
    (proper : ∀ word ∈ words, word ≠ [] ∧ delim ∉ word) :
    tokens (· == delim) ([delim].intercalate words) = words := by
  have single : ∀ word ∈ words, tokens (· == delim) word = [word] := by
    intro word member
    refine tokens_eq_singleton (proper word member).1 ?_
    intro c inWord
    have different : c ≠ delim := fun equal => (proper word member).2 (equal ▸ inWord)
    simpa using different
  induction words with
  | nil => simp [List.intercalate]
  | cons head tail ih =>
    cases tail with
    | nil => simpa [List.intercalate] using single head (by simp)
    | cons next rest =>
      have shape : [delim].intercalate (head :: next :: rest) =
          head ++ delim :: [delim].intercalate (next :: rest) := by
        simp [List.intercalate]
      rw [shape, tokens_append_delim (by simp), single head (by simp),
        ih (forall_mem_cons.1 proper).2
          (forall_mem_cons.1 single).2]
      rfl

/-- The text neither starts nor ends with the delimiter and never doubles it. -/
def WellSpaced (delim : α) (text : List α) : Prop :=
  text.head? ≠ some delim ∧ text.getLast? ≠ some delim ∧ ¬[delim, delim] <:+: text

/-- An empty piece in the split of a non-empty text is a misplaced delimiter. -/
private theorem wellSpaced_pieces (spaced : WellSpaced delim text) (nonempty : text ≠ []) :
    [] ∉ text.splitOn delim := by
  intro member
  have ⟨before, after, split⟩ := append_of_mem member
  have whole : [delim].intercalate (before ++ [] :: after) = text := by
    rw [← split]
    exact intercalate_splitOn delim
  have tailShape : ∀ pieces : List (List α), pieces ≠ [] →
      [delim].intercalate ([] :: pieces) = delim :: [delim].intercalate pieces := by
    intro pieces notNil
    obtain ⟨piece, rest, rfl⟩ := exists_cons_of_ne_nil notNil
    simp [List.intercalate]
  have headShape : ∀ (first : List α) (pieces : List (List α)), pieces ≠ [] →
      ∃ front, [delim].intercalate (first :: pieces) = front ++ [delim].intercalate pieces ∧
        front.getLast? = some delim := by
    intro first pieces notNil
    obtain ⟨_, rest, rfl⟩ := exists_cons_of_ne_nil notNil
    exact ⟨first ++ [delim], by simp [List.intercalate], by simp⟩
  have frontShape : ∀ pieces : List (List α), before ≠ [] → pieces ≠ [] →
      ∃ front, [delim].intercalate (before ++ pieces) = front ++ [delim].intercalate pieces ∧
        front.getLast? = some delim := by
    intro pieces beforeNe notNil
    clear split whole
    induction before with
    | nil => exact absurd rfl beforeNe
    | cons first rest ih =>
      by_cases restNil : rest = []
      · subst restNil
        exact headShape first pieces notNil
      have ⟨front, shape, ends⟩ := ih restNil
      have ⟨start, startShape, _⟩ := headShape first (rest ++ pieces) (by simp [notNil])
      refine ⟨start ++ front, ?_, ?_⟩
      · rw [cons_append, startShape, shape, append_assoc]
      · rw [getLast?_append, ends]
        rfl
  by_cases beforeNil : before = []
  · subst beforeNil
    by_cases afterNil : after = []
    · subst afterNil
      exact nonempty (by rw [← whole]; simp [List.intercalate])
    · apply spaced.1
      rw [← whole, nil_append, tailShape after afterNil]
      rfl
  have ⟨_, shape, ends⟩ := frontShape ([] :: after) beforeNil (by simp)
  obtain ⟨start, rfl⟩ := getLast?_eq_some_iff.1 ends
  by_cases afterNil : after = []
  · subst afterNil
    apply spaced.2.1
    rw [← whole, shape]
    simp [List.intercalate]
  · apply spaced.2.2
    rw [← whole, shape, tailShape after afterNil]
    exact ⟨start, [delim].intercalate after, by simp⟩

/-- The texts that splitting and rejoining gives back are the well-spaced ones. -/
theorem intercalate_tokens_eq_iff :
    [delim].intercalate (tokens (· == delim) text) = text ↔ WellSpaced delim text := by
  constructor
  · intro fixed
    have proper : ∀ word ∈ tokens (· == delim) text, word ≠ [] ∧ delim ∉ word := by
      intro word member
      have ⟨notNil, clean⟩ := mem_tokens member
      exact ⟨notNil, fun inWord => by simpa using clean delim inWord⟩
    rw [← fixed]
    generalize tokens (· == delim) text = words at proper
    clear fixed
    induction words with
    | nil => simp [WellSpaced, List.intercalate]
    | cons head tail ih =>
      have ⟨headNe, headClean⟩ := proper head (by simp)
      obtain ⟨first, others, rfl⟩ := exists_cons_of_ne_nil headNe
      cases tail with
      | nil =>
        have noLast : (first :: others).getLast? ≠ some delim := by
          intro ends
          exact headClean (mem_of_getLast? ends)
        refine ⟨?_, ?_, ?_⟩
        · intro starts
          simp only [List.intercalate, List.intersperse, flatten_cons,
            flatten_nil, append_nil, head?_cons, Option.some.injEq] at starts
          exact headClean (starts ▸ mem_cons_self ..)
        · simpa [List.intercalate] using noLast
        intro doubled
        apply headClean
        have inside := doubled.subset (mem_cons_self ..)
        simpa [List.intercalate] using inside
      | cons next rest =>
        have shape : [delim].intercalate ((first :: others) :: next :: rest) =
            (first :: others) ++ delim :: [delim].intercalate (next :: rest) := by
          simp [List.intercalate]
        have later := ih
          (forall_mem_cons.1 proper).2
        have ⟨nextNe, _⟩ := proper next (by simp)
        have laterNe : [delim].intercalate (next :: rest) ≠ [] := by
          cases rest <;> simp [List.intercalate, nextNe]
        rw [shape]
        generalize [delim].intercalate (next :: rest) = remaining at later laterNe
        refine ⟨?_, ?_, ?_⟩
        · intro starts
          have same : first = delim := by simpa using starts
          exact headClean (same ▸ mem_cons_self ..)
        · intro ends
          apply later.2.1
          rw [getLast?_append, getLast?_cons] at ends
          have ⟨_, lastEq⟩ := getLast?_isSome.2 laterNe |> Option.isSome_iff_exists.1
          rw [lastEq] at ends ⊢
          simpa using ends
        rintro ⟨front, back, infix_⟩
        -- The pair lies in the first word, across the seam, or in the rest.
        have cover := append_eq_append_iff.1
          ((append_assoc front [delim, delim] back).symm.trans infix_)
        rcases cover with ⟨mid, headEq, seamEq⟩ | ⟨mid, frontEq, seamEq⟩
        · cases mid with
          | nil =>
            simp only [nil_append, cons_append, List.cons.injEq,
              true_and] at seamEq
            apply later.1
            rw [← seamEq]
            rfl
          | cons _ _ =>
            simp only [cons_append, List.cons.injEq] at seamEq
            apply headClean
            rw [headEq, ← seamEq.1]
            simp
        · cases mid with
          | nil =>
            simp only [nil_append, cons_append, List.cons.injEq,
              true_and] at seamEq
            apply later.1
            rw [seamEq]
            rfl
          | cons _ more =>
            simp only [cons_append, List.cons.injEq] at seamEq
            apply later.2.2
            rw [seamEq.2]
            exact ⟨more, back, by simp⟩
  · intro spaced
    by_cases nonempty : text = []
    · subst nonempty
      simp [List.intercalate]
    have pieces := wellSpaced_pieces spaced nonempty
    have unfiltered : tokens (· == delim) text = text.splitOn delim := by
      unfold tokens List.splitOn
      refine filter_eq_self.2 ?_
      intro piece member
      have notNil : piece ≠ [] := fun isNil => pieces (isNil ▸ member)
      simpa using notNil
    rw [unfiltered]
    exact intercalate_splitOn delim

end Join

end Infernode.Text
