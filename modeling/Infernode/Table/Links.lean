import Mathlib.Logic.Function.Basic
import Mathlib.Data.List.Nodup

/-!
Linked lists through slots that hold a pointer.

A slot is the header of the list, `none`, or the link field of a cell, `some cell`; a heap
is seen as the function that reads a slot.

Owns: the cells a slot leads to, and what appending, unlinking and a search through the
slots do to them.
-/

namespace Infernode.Links

open List Function

variable {Cell : Type}

/-- The slot behind the last of the cells that follow `slot`. -/
def endSlot : Option Cell → List Cell → Option Cell
  | slot, [] => slot
  | _, cell :: rest => endSlot (some cell) rest

/-- From `slot` the links lead through `cells`, one after the other. -/
def Path (link : Option Cell → Option Cell) : Option Cell → List Cell → Prop
  | _, [] => True
  | slot, cell :: rest => link slot = some cell ∧ Path link (some cell) rest

/-- The cells that follow `slot`, to the end of the list. -/
def Chained (link : Option Cell → Option Cell) (slot : Option Cell) (cells : List Cell) : Prop :=
  Path link slot cells ∧ link (endSlot slot cells) = none

/-! ### Slots -/

@[simp] theorem endSlot_append (slot : Option Cell) (front back : List Cell) :
    endSlot slot (front ++ back) = endSlot (endSlot slot front) back := by
  induction front generalizing slot with
  | nil => rfl
  | cons cell _ ih => exact ih (some cell)

theorem endSlot_concat (slot : Option Cell) (cells : List Cell) (last : Cell) :
    endSlot slot (cells ++ [last]) = some last := by
  rw [endSlot_append]
  rfl

theorem endSlot_eq (slot : Option Cell) (cells : List Cell) :
    endSlot slot cells = slot ∨ ∃ cell ∈ cells, endSlot slot cells = some cell := by
  rcases eq_nil_or_concat' cells with empty | ⟨front, last, ending⟩
  · subst empty
    exact Or.inl rfl
  · subst ending
    rw [endSlot_concat]
    exact Or.inr ⟨last, by simp, rfl⟩

theorem endSlot_none (cells : List Cell) : endSlot none cells = cells.getLast? := by
  rcases eq_nil_or_concat' cells with empty | ⟨front, last, ending⟩
  · subst empty
    rfl
  · subst ending
    rw [endSlot_concat, getLast?_concat]

variable {front cells back : List Cell} {slot : Option Cell} {cell : Cell}

theorem endSlot_ne (distinct : cells.Nodup) (fresh : ∀ cell ∈ cells, slot ≠ some cell)
    (split : cells = front ++ cell :: back) : endSlot slot front ≠ endSlot slot cells := by
  subst split
  rcases eq_nil_or_concat' back with empty | ⟨middle, last, ending⟩
  · subst empty
    rw [endSlot_concat]
    rcases endSlot_eq slot front with same | ⟨other, member, same⟩
    · rw [same]
      exact fresh cell (by simp)
    rw [same]
    intro equal
    cases equal
    exact (nodup_append.1 distinct).2.2 cell member cell (by simp) rfl
  · subst ending
    have ends : endSlot slot (front ++ cell :: (middle ++ [last])) = some last := by
      rw [← cons_append, ← append_assoc, endSlot_concat]
    rw [ends]
    rcases endSlot_eq slot front with same | ⟨other, member, same⟩
    · rw [same]
      exact fresh last (by simp)
    rw [same]
    intro equal
    cases equal
    exact (nodup_append.1 distinct).2.2 last member last (by simp) rfl

/-! ### Paths -/

variable {link : Option Cell → Option Cell}

theorem path_append :
    Path link slot (front ++ back) ↔
      Path link slot front ∧ Path link (endSlot slot front) back := by
  induction front generalizing slot with
  | nil => simp [Path, endSlot]
  | cons _ _ ih =>
    simp only [cons_append, Path, endSlot, ih, and_assoc]

theorem chained_append :
    Chained link slot (front ++ back) ↔
      Path link slot front ∧ Chained link (endSlot slot front) back := by
  simp only [Chained, path_append, endSlot_append, and_assoc]

theorem chained_cons {rest : List Cell} :
    Chained link slot (cell :: rest) ↔ link slot = some cell ∧ Chained link (some cell) rest := by
  simp only [Chained, Path, endSlot, and_assoc]

theorem chained_nil : Chained link slot [] ↔ link slot = none := by
  simp [Chained, Path, endSlot]

theorem Chained.unique {others : List Cell} (first : Chained link slot cells)
    (second : Chained link slot others) : cells = others := by
  induction cells generalizing slot others with
  | nil =>
    cases others with
    | nil => rfl
    | cons _ _ =>
      rw [chained_nil] at first
      rw [chained_cons, first] at second
      cases second.1
  | cons _ _ ih =>
    rw [chained_cons] at first
    cases others with
    | nil =>
      rw [chained_nil, first.1] at second
      cases second
    | cons _ _ =>
      rw [chained_cons, first.1] at second
      have ⟨same, second⟩ := second
      cases same
      rw [ih first.2 second]

theorem Chained.nodup (chained : Chained link slot cells) : cells.Nodup := by
  induction cells generalizing slot with
  | nil => exact nodup_nil
  | cons cell _ ih =>
    rw [chained_cons] at chained
    refine nodup_cons.2 ⟨?_, ih chained.2⟩
    intro repeated
    have ⟨_, back, split⟩ := append_of_mem repeated
    have again : Chained link (some cell) back := by
      have tail := chained.2
      rw [split, chained_append, chained_cons] at tail
      exact tail.2.2
    have lengths := congrArg List.length (chained.2.unique again)
    rw [split, length_append, length_cons] at lengths
    omega

/-! ### Searching -/

/-- The first cell after `slot` that `found` accepts, with the slot that leads to it. -/
def search (link : Option Cell → Option Cell) (found : Cell → Bool) :
    Nat → Option Cell → Option (Option Cell × Cell)
  | 0, _ => none
  | fuel + 1, last =>
    match link last with
    | none => none
    | some cell => if found cell then some (last, cell) else search link found fuel (some cell)

theorem search_eq (found : Cell → Bool) (chained : Chained link slot cells) {fuel : Nat}
    (enough : cells.length < fuel) :
    (search link found fuel slot = none ∧ ∀ cell ∈ cells, found cell = false) ∨
      ∃ front cell back, cells = front ++ cell :: back ∧ found cell = true ∧
        (∀ other ∈ front, found other = false) ∧
        search link found fuel slot = some (endSlot slot front, cell) := by
  induction cells generalizing slot fuel with
  | nil =>
    cases fuel with
    | zero => cases enough
    | succ _ =>
      rw [chained_nil] at chained
      left
      rw [search, chained]
      exact ⟨rfl, by simp⟩
  | cons cell rest ih =>
    cases fuel with
    | zero => cases enough
    | succ fuel =>
      rw [chained_cons] at chained
      rw [search, chained.1]
      cases accepted : found cell with
      | true =>
        right
        exact ⟨[], cell, rest, rfl, accepted, by simp, by simp [accepted, endSlot]⟩
      | false =>
        have enough : rest.length < fuel := by simpa using enough
        simp only [accepted, Bool.false_eq_true, if_false]
        rcases ih chained.2 enough with
          ⟨nothing, rejected⟩ | ⟨front, next, back, split, accepts, rejected, result⟩
        · left
          exact ⟨nothing, by simpa [accepted] using rejected⟩
        · right
          refine ⟨cell :: front, next, back, by rw [split]; rfl, accepts, ?_, result⟩
          simpa [accepted] using rejected

/-! ### Writes -/

theorem Path.congr {other : Option Cell → Option Cell} (path : Path link slot cells)
    (agree : ∀ front cell back, cells = front ++ cell :: back →
      other (endSlot slot front) = link (endSlot slot front)) : Path other slot cells := by
  induction cells generalizing slot with
  | nil => trivial
  | cons cell rest ih =>
    have first : other slot = link slot := agree [] cell rest rfl
    refine ⟨first.trans path.1, ih path.2 ?_⟩
    intro front next back split
    exact agree (cell :: front) next back (by rw [split]; rfl)

variable [DecidableEq Cell]

variable {value : Option Cell}

theorem Path.update {changed : Option Cell} (path : Path link slot cells)
    (unread : ∀ front cell back, cells = front ++ cell :: back → endSlot slot front ≠ changed) :
    Path (Function.update link changed value) slot cells :=
  path.congr fun front cell back split => update_of_ne (unread front cell back split) _ _

theorem Chained.update {changed : Option Cell} (chained : Chained link slot cells)
    (other : changed ≠ slot) (outside : ∀ cell ∈ cells, changed ≠ some cell) :
    Chained (Function.update link changed value) slot cells := by
  have unread : ∀ front back, cells = front ++ back → endSlot slot front ≠ changed := by
    intro front back split
    rcases endSlot_eq slot front with same | ⟨cell, member, same⟩
    · rw [same]
      exact other.symm
    · rw [same]
      exact (outside cell (by rw [split]; exact mem_append_left _ member)).symm
  refine ⟨chained.1.update fun front cell back split => unread front _ split, ?_⟩
  rw [update_of_ne (unread cells [] (by simp))]
  exact chained.2

theorem Path.update_end (path : Path link slot cells) (distinct : cells.Nodup)
    (fresh : ∀ cell ∈ cells, slot ≠ some cell) :
    Path (Function.update link (endSlot slot cells) value) slot cells :=
  path.update fun _ _ _ split => endSlot_ne distinct fresh split

/-! ### Operations -/

theorem Chained.append (chained : Chained link none cells) (fresh : cell ∉ cells) :
    Chained (Function.update (Function.update link (endSlot none cells) (some cell))
      (some cell) none) none (cells ++ [cell]) := by
  have distinct := chained.nodup
  rw [chained_append]
  have ends : endSlot none cells ≠ some cell := by
    rcases endSlot_eq none cells with same | ⟨other, member, same⟩
    · rw [same]
      simp
    rw [same]
    intro equal
    cases equal
    exact fresh member
  constructor
  · apply Path.update
    · exact chained.1.update_end distinct (by simp)
    intro front _ _ split
    rcases endSlot_eq none front with same | ⟨before, member, same⟩
    · rw [same]
      simp
    rw [same]
    intro equal
    cases equal
    exact fresh (by rw [split]; exact mem_append_left _ member)
  · rw [chained_cons, chained_nil, update_of_ne ends, update_self,
      update_self]
    exact ⟨rfl, rfl⟩

theorem Chained.unlink (chained : Chained link slot (front ++ cell :: back))
    (fresh : ∀ other ∈ front ++ cell :: back, slot ≠ some other) :
    Chained (Function.update link (endSlot slot front) (link (some cell))) slot
      (front ++ back) := by
  have distinct := chained.nodup
  rw [chained_append, chained_cons] at chained
  have ⟨path, _, chained⟩ := chained
  rw [nodup_append, nodup_cons] at distinct
  have ⟨distinctFront, ⟨absent, distinctBack⟩, apart⟩ := distinct
  rw [chained_append]
  refine ⟨path.update_end distinctFront fun other member => fresh other (by simp [member]), ?_⟩
  cases back with
  | nil =>
    rw [chained_nil] at chained ⊢
    rw [update_self]
    exact chained
  | cons next _ =>
    rw [chained_cons] at chained ⊢
    rw [update_self]
    refine ⟨chained.1, chained.2.update ?_ ?_⟩
    · rcases endSlot_eq slot front with same | ⟨other, member, same⟩
      · rw [same]
        exact fresh next (by simp)
      rw [same]
      intro equal
      cases equal
      exact apart next member next (by simp) rfl
    intro later member
    rcases endSlot_eq slot front with same | ⟨other, found, same⟩
    · rw [same]
      exact fresh later (by simp [member])
    rw [same]
    intro equal
    cases equal
    exact apart later found later (by simp [member]) rfl

/-- A new cell that takes over the link of a slot, and is then linked from it, is inserted
there. -/
theorem Chained.insert (chained : Chained link slot (front ++ back)) (absent : cell ∉ front ++ back)
    (own : slot ≠ some cell) (fresh : ∀ other ∈ front ++ back, slot ≠ some other) :
    Chained (Function.update (Function.update link (some cell) (link (endSlot slot front)))
      (endSlot slot front) (some cell)) slot (front ++ cell :: back) := by
  have distinct := nodup_append.1 chained.nodup
  rw [chained_append] at chained
  have ⟨path, rest⟩ := chained
  have ends : endSlot slot front = slot ∨
      ∃ last ∈ front, endSlot slot front = some last := endSlot_eq slot front
  have different : endSlot slot front ≠ some cell := by
    rcases ends with same | ⟨last, member, same⟩
    · rw [same]
      exact own
    rw [same]
    intro equal
    cases equal
    exact absent (mem_append_left _ member)
  rw [chained_append, chained_cons, update_self]
  refine ⟨?_, rfl, ?_⟩
  · apply Path.update_end _ distinct.1 fun other member => fresh other (mem_append_left _ member)
    apply path.update
    intro before next _ split
    rcases endSlot_eq slot before with same | ⟨last, member, same⟩
    · rw [same]
      exact own
    rw [same]
    intro equal
    cases equal
    exact absent (mem_append_left _ (by rw [split]; exact mem_append_left _ member))
  · cases back with
    | nil =>
      rw [chained_nil] at rest ⊢
      rw [update_of_ne different.symm, update_self]
      exact rest
    | cons next more =>
      rw [chained_cons] at rest ⊢
      rw [update_of_ne different.symm, update_self]
      have outside (other : Cell) (member : other ∈ next :: more) :
          endSlot slot front ≠ some other := by
        rcases ends with same | ⟨last, found, same⟩
        · rw [same]
          exact fresh other (mem_append_right _ member)
        rw [same]
        intro equal
        cases equal
        exact distinct.2.2 other found other member rfl
      have away (other : Cell) (member : other ∈ next :: more) : cell ≠ other := by
        rintro rfl
        exact absent (mem_append_right _ member)
      refine ⟨rest.1, (rest.2.update ?_ ?_).update ?_ ?_⟩
      · exact fun same => away next mem_cons_self (Option.some.inj same)
      · exact fun other member same =>
          away other (mem_cons_of_mem _ member) (Option.some.inj same)
      · exact outside next mem_cons_self
      · exact (forall_mem_cons.1 outside).2

end Infernode.Links
