import Mathlib.Data.List.Basic
import Mathlib.Data.List.Induction
import Mathlib.Tactic.Common

/-!
Contract: a linear hash chain over any records, digests and hash inputs.

Owns: the tip of a chain, the inputs hashed on the way, and the fact that tips
of chains without colliding inputs are equal only for equal chains.
-/

namespace Infernode.HashChain

universe u v w

variable {Input : Type u} {Digest : Type v} {Entry : Type w}

section Chain

variable (digest : Input → Digest) (anchor : Input) (link : Digest → Entry → Input)

def tipFrom (prev : Digest) (entries : List Entry) : Digest :=
  entries.foldl (fun tip entry => digest (link tip entry)) prev

def tip (entries : List Entry) : Digest := tipFrom digest link (digest anchor) entries

/-- Every input hashed to compute a tip, the anchor first. -/
def inputsFrom (prev : Digest) : List Entry → List Input
  | [] => []
  | entry :: rest => link prev entry :: inputsFrom (digest (link prev entry)) rest

def inputs (entries : List Entry) : List Input :=
  anchor :: inputsFrom digest link (digest anchor) entries

def CollisionFree (hashed : List Input) : Prop :=
  ∀ left ∈ hashed, ∀ right ∈ hashed, digest left = digest right → left = right

end Chain

variable {digest : Input → Digest} {anchor : Input} {link : Digest → Entry → Input}

@[simp] theorem tipFrom_nil (prev : Digest) : tipFrom digest link prev [] = prev := rfl

@[simp] theorem tipFrom_cons (prev : Digest) (entry : Entry) (rest : List Entry) :
    tipFrom digest link prev (entry :: rest) =
      tipFrom digest link (digest (link prev entry)) rest := rfl

theorem tipFrom_append (prev : Digest) (front back : List Entry) :
    tipFrom digest link prev (front ++ back) =
      tipFrom digest link (tipFrom digest link prev front) back := by
  unfold tipFrom
  rw [List.foldl_append]

theorem inputsFrom_append (prev : Digest) (front back : List Entry) :
    inputsFrom digest link prev (front ++ back) =
      inputsFrom digest link prev front ++
        inputsFrom digest link (tipFrom digest link prev front) back := by
  induction front generalizing prev with
  | nil => rfl
  | cons _ _ ih =>
    simp only [List.cons_append, inputsFrom, tipFrom_cons]
    rw [ih]

theorem tip_concat (front : List Entry) (last : Entry) :
    tip digest anchor link (front ++ [last]) =
      digest (link (tip digest anchor link front) last) := by
  unfold tip
  rw [tipFrom_append]
  rfl

theorem inputs_concat (front : List Entry) (last : Entry) :
    inputs digest anchor link (front ++ [last]) =
      inputs digest anchor link front ++ [link (tip digest anchor link front) last] := by
  unfold inputs
  rw [inputsFrom_append, ← List.cons_append]
  rfl

variable (digest anchor link) in
theorem exists_digest_eq_tip (entries : List Entry) :
    ∃ input ∈ inputs digest anchor link entries,
      digest input = tip digest anchor link entries := by
  rcases List.eq_nil_or_concat' entries with rfl | ⟨front, last, rfl⟩
  · exact ⟨anchor, by simp [inputs], rfl⟩
  · refine ⟨link (tip digest anchor link front) last, ?_, (tip_concat front last).symm⟩
    rw [inputs_concat]
    simp

/-- Chains that hash no colliding inputs and end at one tip are one chain: the
last entries are compared first, and their inputs carry the tips before them. -/
theorem tip_injective
    (linkInjective : ∀ left right first second,
      link (digest left) first = link (digest right) second →
        digest left = digest right ∧ first = second)
    (anchorApart : ∀ input entry, link (digest input) entry ≠ anchor) :
    ∀ {left right : List Entry},
      CollisionFree digest (inputs digest anchor link left ++ inputs digest anchor link right) →
      tip digest anchor link left = tip digest anchor link right → left = right := by
  intro left
  induction left using List.reverseRecOn with
  | nil =>
    intro right apart same
    rcases List.eq_nil_or_concat' right with rfl | ⟨front, last, rfl⟩
    · rfl
    exfalso
    rw [tip_concat] at same
    have ⟨before, _, beforeEq⟩ :=
      exists_digest_eq_tip digest anchor link front
    have collide := apart anchor (by simp [inputs]) _ (by rw [inputs_concat]; simp) same
    rw [← beforeEq] at collide
    exact anchorApart before last collide.symm
  | append_singleton front last ih =>
    intro right apart same
    have ⟨before, _, beforeEq⟩ :=
      exists_digest_eq_tip digest anchor link front
    rcases List.eq_nil_or_concat' right with rfl | ⟨rightFront, rightLast, rfl⟩
    · exfalso
      rw [tip_concat] at same
      have collide := apart _ (by rw [inputs_concat]; simp) anchor (by simp [inputs]) same
      rw [← beforeEq] at collide
      exact anchorApart before last collide
    rw [tip_concat, tip_concat] at same
    have ⟨_, _, rightBeforeEq⟩ :=
      exists_digest_eq_tip digest anchor link rightFront
    have linked := apart _ (by rw [inputs_concat]; simp) _
      (by rw [inputs_concat rightFront]; simp) same
    rw [← beforeEq, ← rightBeforeEq] at linked
    have ⟨tips, lastEq⟩ := linkInjective _ _ _ _ linked
    rw [beforeEq, rightBeforeEq] at tips
    have fewer : CollisionFree digest
        (inputs digest anchor link front ++ inputs digest anchor link rightFront) := by
      intro first firstMember second secondMember
      refine apart first ?_ second ?_
      · rw [inputs_concat, inputs_concat]
        simp only [List.mem_append] at firstMember ⊢
        tauto
      · rw [inputs_concat, inputs_concat]
        simp only [List.mem_append] at secondMember ⊢
        tauto
    rw [ih fewer tips, lastEq]

end Infernode.HashChain
