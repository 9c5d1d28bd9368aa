import Infernode.Lib.Slotfactors

/-!
What the calls write.

Owns: which files are there after `writeslots`, whatever fails in it; that every slot that it
builds opens to the data key, and by the factor that it is for.
-/

namespace Infernode.Twofaslot

open Text List

variable {sv : Services} {user : Str}

/-! ### Writing -/

variable {files : Files} {file : Str × Str} {recs : List (Str × Str)} {i : Nat}

theorem mem_create {name content : Str} :
    file ∈ create files name content ↔
      file ∈ files ∧ file.1 ≠ name ∨ file = (name, content) := by
  unfold create
  rw [mem_append, mem_filter, mem_singleton, decide_eq_true_eq]

theorem mem_writerecs {w : World} {dir : Str} (member : file ∈ (writerecs w dir i recs files).1) :
    file ∈ files ∨ ∃ rec ∈ recs, file.1 = rec.1 ∧ file.2 <+: rec.2 := by
  induction recs generalizing i files with
  | nil => exact Or.inl member
  | cons rec recs ih =>
    have ⟨name, content⟩ := rec
    unfold writerecs at member
    split at member
    · exact Or.inl member
    · rename_i n _
      rcases mem_create.1 member with ⟨before, _⟩ | new
      · exact Or.inl before
      · exact Or.inr ⟨_, mem_cons_self, by rw [new], by rw [new]; exact List.take_prefix _ _⟩
    rcases ih member with before | ⟨rec, later, same, cut⟩
    · rcases mem_create.1 before with ⟨before, _⟩ | new
      · exact Or.inl before
      · exact Or.inr ⟨_, mem_cons_self, by rw [new], by rw [new]⟩
    · exact Or.inr ⟨rec, mem_cons_of_mem _ later, same, cut⟩

theorem writerecs_none {w : World} {dir : Str} (success : (writerecs w dir i recs files).2 = none) :
    (∀ file ∈ (writerecs w dir i recs files).1,
      file ∈ files ∧ file.1 ∉ recs.map Prod.fst ∨ file ∈ recs) ∧
      (recs ≠ [] → ∃ rec ∈ recs, rec ∈ (writerecs w dir i recs files).1) := by
  induction recs generalizing i files with
  | nil => exact ⟨fun file member => Or.inl ⟨member, not_mem_nil⟩, fun some_ => absurd rfl some_⟩
  | cons rec recs ih =>
    have ⟨name, content⟩ := rec
    unfold writerecs at success ⊢
    split at success
    · cases success
    · cases success
    have ⟨others, there⟩ := ih success
    constructor
    · intro file member
      rcases others file member with ⟨before, notLater⟩ | later
      · rcases mem_create.1 before with ⟨before, other⟩ | new
        · refine Or.inl ⟨before, ?_⟩
          rw [map_cons, mem_cons]
          exact not_or.2 ⟨other, notLater⟩
        · exact Or.inr (by rw [new]; exact mem_cons_self)
      · exact Or.inr (mem_cons_of_mem _ later)
    · intro _
      by_cases last : recs = []
      · subst last
        exact ⟨(name, content), mem_cons_self, mem_create.2 (Or.inr rfl)⟩
      · have ⟨rec, member, here⟩ := there last
        exact ⟨rec, mem_cons_of_mem _ member, here⟩

/-- A name of a file, other than the one of the hint. -/
structure Filename (name : Str) : Prop where
  some_ : name ≠ []
  slash : 47 ∉ name
  dots : name ≠ str "." ∧ name ≠ str ".."
  hint : name ≠ lastgoodname

/-- A slot name, a credential and a salt that fit in a slot file. -/
structure Goodkey (key : Str × Str × Str) : Prop where
  name : Filename key.1
  word : Word key.2.1
  short : key.2.1.length ≤ 15000

def namesof (keys : List (Str × Str × Str)) (recoverypass : Str) : List Str :=
  (if recoverypass = [] then [] else [str "recovery"]) ++ keys.map Prod.fst

def factorsof (keys : List (Str × Str × Str)) (recoverypass pin : Str) : List Factor :=
  (if recoverypass = [] then [] else [.recovery recoverypass]) ++
    keys.map fun key => .key key.2.1 pin

/-- A slot that wraps the data key for the factor. -/
structure Built (sv : Services) (user : Str) (rootkey D : Bytes) (f : Factor)
    (rec : Str × Str) : Prop where
  name : rec.1 ≠ lastgoodname
  only : ∀ t, t <+: rec.2 → ∀ D', Opens sv t D' → D' = D
  opened : D.length = 32 → OpenedBy sv user rootkey rec.2 D f

section Build

variable {w : World} {rootkey D : Bytes} {pin : Str}

theorem buildkey_built (ideal : sv.Ideal) (answers : Answers sv w.ans) {i : Nat}
    {key : Str × Str × Str} (good : Goodkey key) {rec : Str × Str}
    (built : buildkey sv w rootkey D pin i key = .ok rec) :
    rec.1 = key.1 ∧ Built sv user rootkey D (.key key.2.1 pin) rec := by
  have ⟨name, credhex, salthex⟩ := key
  dsimp only [buildkey] at built
  split at built
  · cases built
  rename_i salt saltRead
  have ⟨hex, length⟩ := Option.filter_eq_some_iff.1 saltRead
  have length : salt.length = 32 := of_decide_eq_true length
  have ⟨wordSalt, size⟩ := word_of_fromhex hex
  split at built
  · cases built
  rename_i R answered
  split at built
  · cases built
  rename_i wrap wraps
  split at built
  · cases built
  rw [← Except.ok.inj built]
  refine ⟨rfl, good.name.hint, ?_, ?_⟩
  · intro t cut D' opens
    exact opens_prefix ideal (by decide) good.word wordSalt wraps cut opens
  intro key32
  have short : (str "key").length + credhex.length + salthex.length ≤ 16000 := by
    have three : (str "key").length = 3 := by decide
    have bound : credhex.length ≤ 15000 := good.short
    omega
  refine ⟨_, wrap, salt, R, readslot_slottext ideal (by decide) good.word wordSalt wraps
    (length_slottext ideal wraps key32 (ideal.kek _ _) short), rfl, rfl, rfl, hex, length,
    answers _ _ _ _ answered, ideal.opens wraps _ _⟩

variable {recoverypass : Str} {keys : List (Str × Str × Str)}

theorem buildrecovery_built (ideal : sv.Ideal) (some_ : recoverypass ≠ []) {rec : Str × Str}
    (built : buildrecovery sv w user recoverypass D i = .ok rec) :
    rec.1 = str "recovery" ∧ Built sv user rootkey D (.recovery recoverypass) rec := by
  unfold buildrecovery at built
  split at built
  · cases built
  rename_i wrap wraps
  split at built
  · cases built
  rw [← Except.ok.inj built]
  refine ⟨rfl, show str "recovery" ≠ lastgoodname by decide, ?_, ?_⟩
  · intro t cut D' opens
    exact opens_prefix ideal (by decide) (by decide) (by decide) wraps cut opens
  intro key32
  have short : (str "recovery").length + (str "-").length + (str "-").length ≤ 16000 := by
    decide
  exact ⟨_, wrap, readslot_slottext ideal (by decide) (by decide) (by decide) wraps
    (length_slottext ideal wraps key32 (ideal.filekey _ _) short), rfl, rfl, some_, ideal.opens wraps _ _⟩

theorem buildkeys_built (ideal : sv.Ideal) (answers : Answers sv w.ans)
    {keys : List (Str × Str × Str)} (good : ∀ key ∈ keys, Goodkey key) {i : Nat}
    {before recs : List (Str × Str)}
    (built : buildkeys sv w rootkey D pin i keys before = .ok recs) :
    (∀ rec ∈ recs, rec ∈ before ∨ ∃ key ∈ keys, rec.1 = key.1 ∧
      Built sv user rootkey D (.key key.2.1 pin) rec) ∧
      (∀ rec ∈ before, rec ∈ recs) ∧ ∀ key ∈ keys, ∃ rec ∈ recs, rec.1 = key.1 := by
  induction keys generalizing i before with
  | nil =>
    rw [← Except.ok.inj built]
    exact ⟨fun rec member => Or.inl member, fun rec member => member, nofun⟩
  | cons key keys ih =>
    unfold buildkeys at built
    split at built
    · cases built
    rename_i slot first
    obtain ⟨name, isBuilt⟩ := buildkey_built ideal answers (good key mem_cons_self) first
    obtain ⟨each, kept, named⟩ := ih
      (fun other member => good other (mem_cons_of_mem _ member)) built
    refine ⟨?_, fun rec member => kept rec (mem_cons_of_mem _ member), ?_⟩
    · intro rec member
      rcases each rec member with early | ⟨other, later, same, builtOther⟩
      · rcases mem_cons.1 early with rfl | before
        · exact Or.inr ⟨key, mem_cons_self, name, isBuilt⟩
        · exact Or.inl before
      · exact Or.inr ⟨other, mem_cons_of_mem _ later, same, builtOther⟩
    · intro other member
      rcases mem_cons.1 member with rfl | later
      · exact ⟨slot, kept slot mem_cons_self, name⟩
      · exact named other later

/-- Every slot that is built is for a factor of the call, and every name of the call has one. -/
theorem buildslots_built (ideal : sv.Ideal) (answers : Answers sv w.ans)
    (good : ∀ key ∈ keys, Goodkey key)
    (built : buildslots sv w user rootkey D keys recoverypass pin = .ok recs) :
    (∀ rec ∈ recs, ∃ f ∈ factorsof keys recoverypass pin, Built sv user rootkey D f rec) ∧
      ∀ name ∈ namesof keys recoverypass, name ∈ recs.map Prod.fst := by
  unfold buildslots at built
  split at built
  · cases built
  rename_i keyrecs keysBuilt
  have ⟨each, _, named⟩ := @buildkeys_built sv user w rootkey D pin ideal answers keys good
    0 [] keyrecs keysBuilt
  have ofKeys : ∀ rec ∈ keyrecs, ∃ f ∈ factorsof keys recoverypass pin,
      Built sv user rootkey D f rec := by
    intro rec member
    rcases each rec member with before | ⟨key, isKey, _, isBuilt⟩
    · cases before
    · exact ⟨_, mem_append_right _ (mem_map.2 ⟨key, isKey, rfl⟩), isBuilt⟩
  have keyNames : ∀ name ∈ keys.map Prod.fst, name ∈ keyrecs.map Prod.fst := by
    intro name member
    obtain ⟨key, isKey, rfl⟩ := mem_map.1 member
    have ⟨rec, inRecs, same⟩ := named key isKey
    exact mem_map.2 ⟨rec, inRecs, same⟩
  split at built
  · rename_i none
    rw [← Except.ok.inj built]
    refine ⟨ofKeys, ?_⟩
    intro name member
    unfold namesof at member
    rw [if_pos none] at member
    exact keyNames name member
  rename_i some_
  split at built
  · cases built
  rename_i slot recoveryBuilt
  have recovery : slot.1 = str "recovery" ∧
      Built sv user rootkey D (.recovery recoverypass) slot :=
    buildrecovery_built ideal some_ recoveryBuilt
  have ⟨name, isBuilt⟩ := recovery
  rw [← Except.ok.inj built]
  constructor
  · intro rec member
    rcases mem_cons.1 member with rfl | later
    · refine ⟨.recovery recoverypass, ?_, isBuilt⟩
      unfold factorsof
      rw [if_neg some_]
      exact mem_cons_self
    · exact ofKeys rec later
  intro other member
  unfold namesof at member
  rw [if_neg some_] at member
  rw [map_cons, mem_cons]
  rcases mem_append.1 member with isRecovery | ofKey
  · rw [mem_singleton.1 isRecovery, name]
    exact Or.inl rfl
  · exact Or.inr (keyNames other ofKey)

/-- What is written opens to the data key only, and not as a hint. -/
theorem mem_writeslots (ideal : sv.Ideal) (answers : Answers sv w.ans)
    (good : ∀ key ∈ keys, Goodkey key)
    (member : file ∈ (writeslots sv w files user rootkey D keys recoverypass pin).1) :
    file ∈ files ∨ file.1 ≠ lastgoodname ∧ ∀ D', Opens sv file.2 D' → D' = D := by
  unfold writeslots at member
  split at member
  · exact Or.inl member
  rename_i recs built
  split at member
  · exact Or.inl member
  split at member
  · exact Or.inl member
  rcases mem_writerecs member with before | ⟨rec, inRecs, same, cut⟩
  · exact Or.inl before
  · have ⟨f, _, isBuilt⟩ := (buildslots_built ideal answers good built).1 rec inRecs
    exact Or.inr ⟨by rw [same]; exact isBuilt.name, isBuilt.only file.2 cut⟩

theorem writeslots_none (ideal : sv.Ideal) (answers : Answers sv w.ans)
    (good : ∀ key ∈ keys, Goodkey key)
    (success : (writeslots sv w files user rootkey D keys recoverypass pin).2 = none) :
    (∀ file ∈ (writeslots sv w files user rootkey D keys recoverypass pin).1,
      file ∈ files ∧ file.1 ∉ namesof keys recoverypass ∨
        ∀ D', Opens sv file.2 D' → D' = D) ∧
      ∃ f ∈ factorsof keys recoverypass pin,
        ∃ file ∈ (writeslots sv w files user rootkey D keys recoverypass pin).1,
          D.length = 32 → OpenedBy sv user rootkey file.2 D f := by
  unfold writeslots at success ⊢
  split at success
  · cases success
  rename_i recs built
  split at success
  · cases success
  rename_i some_
  split at success
  · cases success
  rename_i mkdir
  rw [if_neg some_, if_neg mkdir]
  have ⟨each, named⟩ := buildslots_built ideal answers good built
  have ⟨others, there⟩ := writerecs_none success
  constructor
  · intro file member
    rcases others file member with ⟨before, other⟩ | inRecs
    · exact Or.inl ⟨before, fun name => other (named _ name)⟩
    · have ⟨f, _, isBuilt⟩ := each file inRecs
      exact Or.inr (isBuilt.only file.2 prefix_rfl)
  · have ⟨rec, inRecs, written⟩ := there some_
    have ⟨f, isFactor, isBuilt⟩ := each rec inRecs
    exact ⟨f, isFactor, rec, written, isBuilt.opened⟩

end Build

end Infernode.Twofaslot
