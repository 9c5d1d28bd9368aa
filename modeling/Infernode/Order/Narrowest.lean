import Mathlib.Data.List.Basic
import Mathlib.Tactic.Common

/-!
Contract: permissions that the narrowest of a set of nested grants decides.

Owns: orders in which what covers one point is a chain (`Forest`), the rule that the
narrowest grant decides and the restrictive one of two equal ones (`Writable`), and
when a set of grants handed on from another set gives no more than it.
-/

namespace Infernode.Narrowest

open List

universe u v w

/-- An order in which what covers a point is a chain, as the ancestors of a path are. -/
structure Forest {P : Type u} (covers : P → P → Prop) : Prop where
  refl : ∀ p, covers p p
  trans : ∀ {a b c}, covers a b → covers b c → covers a c
  antisymm : ∀ {a b}, covers a b → covers b a → a = b
  chain : ∀ {a b p}, covers a p → covers b p → covers a b ∨ covers b a

section Grants

variable {P : Type u} {G : Type v} (covers : P → P → Prop) (path : G → P) (rw : G → Prop)

/-- `g` covers the point, and every other grant that does covers `g`. -/
def IsNarrowest (grants : List G) (p : P) (g : G) : Prop :=
  g ∈ grants ∧ covers (path g) p ∧
    ∀ other ∈ grants, covers (path other) p → covers (path other) (path g)

def Writable (grants : List G) (p : P) : Prop :=
  ∃ g, IsNarrowest covers path grants p g ∧ ∀ other ∈ grants, path other = path g → rw other

variable {covers path rw}

variable {p : P}

theorem exists_narrowest (forest : Forest covers) (grants : List G)
    (covered : ∃ g ∈ grants, covers (path g) p) : ∃ g, IsNarrowest covers path grants p g := by
  induction grants with
  | nil =>
    have ⟨g, member, _⟩ := covered
    exact absurd member not_mem_nil
  | cons head tail ih =>
    by_cases later : ∃ g ∈ tail, covers (path g) p
    · have ⟨g, member, above, narrowest⟩ := ih later
      by_cases headCovers : covers (path head) p
      · rcases forest.chain headCovers above with headWider | headNarrower
        · refine ⟨g, mem_cons_of_mem _ member, above, ?_⟩
          intro other inGrants otherCovers
          rcases mem_cons.1 inGrants with rfl | inTail
          · exact headWider
          · exact narrowest other inTail otherCovers
        refine ⟨head, mem_cons_self, headCovers, ?_⟩
        intro other inGrants otherCovers
        rcases mem_cons.1 inGrants with rfl | inTail
        · exact forest.refl _
        · exact forest.trans (narrowest other inTail otherCovers) headNarrower
      · refine ⟨g, mem_cons_of_mem _ member, above, ?_⟩
        intro other inGrants otherCovers
        rcases mem_cons.1 inGrants with rfl | inTail
        · exact absurd otherCovers headCovers
        · exact narrowest other inTail otherCovers
    · have ⟨g, member, above⟩ := covered
      rcases mem_cons.1 member with rfl | inTail
      · refine ⟨g, mem_cons_self, above, ?_⟩
        intro other inGrants otherCovers
        rcases mem_cons.1 inGrants with rfl | inTail
        · exact forest.refl _
        · exact absurd ⟨other, inTail, otherCovers⟩ later
      · exact absurd ⟨g, inTail, above⟩ later

variable {grants : List G}

theorem Writable.exists_covers (writable : Writable covers path rw grants p) :
    ∃ g ∈ grants, covers (path g) p ∧ rw g := by
  have ⟨g, ⟨member, above, _⟩, ties⟩ := writable
  exact ⟨g, member, above, ties g member rfl⟩

variable {g : G}

theorem not_writable_path (forest : Forest covers) (member : g ∈ grants) (restrictive : ¬rw g) :
    ¬Writable covers path rw grants (path g) := by
  rintro ⟨narrow, ⟨_, above, narrowest⟩, ties⟩
  have samePath := forest.antisymm (narrowest g member (forest.refl _)) above
  exact restrictive (ties g member samePath)

theorem IsNarrowest.between (forest : Forest covers) {q : P}
    (narrow : IsNarrowest covers path grants p g) (outer : covers (path g) q) (inner : covers q p) :
    IsNarrowest covers path grants q g :=
  ⟨narrow.1, outer, fun other member above =>
    narrow.2.2 other member (forest.trans above inner)⟩

theorem writable_mono_iff {H : Type w} {path' : H → P} {rw' : H → Prop} (forest : Forest covers)
    {handed : List H} (delegated : ∀ h ∈ handed, rw' h → Writable covers path rw grants (path' h)) :
    (∀ p, Writable covers path' rw' handed p → Writable covers path rw grants p) ↔
      ∀ r ∈ grants, ¬rw r → ¬Writable covers path' rw' handed (path r) := by
  constructor
  · intro mono r member restrictive writable
    exact not_writable_path forest member restrictive (mono _ writable)
  rintro kept p ⟨h, narrow, ties⟩
  have ⟨g, gNarrow, gTies⟩ := delegated h narrow.1 (ties h narrow.1 rfl)
  have gAbove : covers (path g) p := forest.trans gNarrow.2.1 narrow.2.1
  have ⟨m, mNarrow⟩ := exists_narrowest forest grants ⟨g, gNarrow.1, gAbove⟩
  refine ⟨m, mNarrow, ?_⟩
  intro r member samePath
  by_contra restrictive
  have rAbove : covers (path r) p := samePath ▸ mNarrow.2.1
  rcases forest.chain rAbove narrow.2.1 with rOuter | rInner
  · -- `r` covers `h`, so it is the grant that decides there
    have gOuter : covers (path g) (path r) := samePath ▸ mNarrow.2.2 g gNarrow.1 gAbove
    have same := forest.antisymm (gNarrow.2.2 r member rOuter) gOuter
    exact restrictive (gTies r member same)
  · exact kept r member restrictive ⟨h, narrow.between forest rInner rAbove, ties⟩

end Grants

end Infernode.Narrowest
