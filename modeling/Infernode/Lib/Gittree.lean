import Infernode.Limbo.Collate
import Infernode.Order.Insertion
import Mathlib.Data.Nat.Digits.Lemmas

/-!
The tree objects of `appl/lib/git/git.b`.

Owns: `TreeEntry`, `encodetree`, `parsetree` and `sorttreeentries`; that a tree is parsed into
the entries it was encoded from; and when the order the code sorts by is that of the format,
in which the name of a directory ends in a slash.
-/

namespace Infernode.Git

open Text Lib9 List

abbrev Bytes := List Nat

/-- A name is a string of 16-bit characters; a hash has 20 bytes. -/
structure TreeEntry where
  mode : Int
  name : Str
  hash : Bytes
deriving DecidableEq

/-! ### Encoding -/

/-- `%o` of a number that is not negative. -/
def octal (m : Nat) : Str := if m = 0 then [48] else ((Nat.digits 8 m).map (48 + ·)).reverse

def encodeentry (e : TreeEntry) : Bytes :=
  octal e.mode.toNat ++ 32 :: (cvtca e.name ++ 0 :: e.hash.take 20)

def encodetree (entries : List TreeEntry) : Bytes := entries.flatMap encodeentry

def sorttreeentries (entries : List TreeEntry) : List TreeEntry :=
  Insertion.insertions TreeEntry.name entries

/-! ### Parsing -/

/-- What is left of some bytes of which one at least was taken. -/
abbrev Rest (data : Bytes) := { rest : Bytes // rest.length < data.length }

/-- The bytes up to the first `mark`, and those behind it. -/
def splitat (mark : Nat) : (data : Bytes) → Option (Bytes × Rest data)
  | [] => none
  | b :: data =>
    if b = mark then some ([], ⟨data, Nat.lt_succ_self _⟩)
    else (splitat mark data).map fun found =>
      (b :: found.1, ⟨found.2.1, Nat.lt_succ_of_lt found.2.2⟩)

def octalmode : Int → Bytes → Option Int
  | mode, [] => some mode
  | mode, c :: digits =>
    if 48 ≤ c ∧ c ≤ 55 then octalmode (wrap (8 * mode + (c - 48 : Nat))) digits else none

/-- One entry, `mode name\0<20-byte-hash>`. -/
def parseentry (data : Bytes) : Except Str (TreeEntry × Rest data) :=
  match splitat 32 data with
  | none => .error (str "malformed tree: no space")
  | some (digits, ⟨behind, fewer⟩) =>
    match octalmode 0 digits with
    | none => .error (str "bad octal in tree mode")
    | some mode =>
      match splitat 0 behind with
      | none => .error (str "malformed tree: no null")
      | some (name, ⟨hash, shorter⟩) =>
        if hash.length < 20 then .error (str "malformed tree: short hash")
        else .ok (⟨mode, c2string name, hash.take 20⟩,
          ⟨hash.drop 20, by rw [length_drop]; omega⟩)

def parsetree (data : Bytes) : Except Str (List TreeEntry) :=
  if data = [] then .ok []
  else
    match parseentry data with
    | .error e => .error e
    | .ok (e, ⟨rest, _⟩) => (parsetree rest).map fun entries => e :: entries
termination_by data.length

/-! ### What is encoded is parsed -/

structure TreeEntry.Wellformed (e : TreeEntry) : Prop where
  mode : 0 ≤ e.mode ∧ e.mode < 2 ^ 31
  name : e.name ≠ []
  runes : Runes e.name
  noNull : 0 ∉ e.name
  noSlash : 47 ∉ e.name
  hash : e.hash.length = 20

theorem splitat_append {mark : Nat} {front : Bytes} (missing : mark ∉ front) (behind : Bytes) :
    ∃ fewer, splitat mark (front ++ mark :: behind) = some (front, ⟨behind, fewer⟩) := by
  induction front with
  | nil => exact ⟨Nat.lt_succ_self _, if_pos rfl⟩
  | cons b front ih =>
    have ⟨fewer, found⟩ := ih fun member =>
      missing (mem_cons_of_mem _ member)
    refine ⟨Nat.lt_succ_of_lt fewer, ?_⟩
    have other : b ≠ mark := fun same => missing (same ▸ mem_cons_self)
    show splitat mark (b :: (front ++ mark :: behind)) = _
    rw [splitat, if_neg other, found]
    rfl

theorem octalmode_append (mode : Int) (digits : Bytes) (c : Nat) :
    octalmode mode (digits ++ [c]) = (octalmode mode digits).bind fun m => octalmode m [c] := by
  induction digits generalizing mode with
  | nil => rfl
  | cons _ _ ih =>
    rw [cons_append, octalmode, octalmode]
    split
    · exact ih _
    · rfl

theorem octal_of_pos {m : Nat} (positive : 0 < m) :
    octal m = (if m / 8 = 0 then [] else octal (m / 8)) ++ [48 + m % 8] := by
  unfold octal
  rw [if_neg (by omega), Nat.digits_def' (by decide) positive, map_cons, reverse_cons]
  by_cases top : m / 8 = 0
  · rw [if_pos top, top]
    rfl
  · rw [if_neg top, if_neg top]

theorem octalmode_digit {mode : Int} {d : Nat} (octalDigit : d < 8) :
    octalmode mode [48 + d] = some (wrap (8 * mode + d)) := by
  rw [octalmode, if_pos (by omega), Nat.add_sub_cancel_left]
  rfl

/-- The mode is read back from its octal digits. -/
theorem octalmode_octal (m : Nat) (small : m < 2 ^ 31) : octalmode 0 (octal m) = some (m : Int) := by
  have fits : ∀ n : Nat, n < 2 ^ 31 → wrap n = n := by
    intro _ _
    apply wrap_of_inWord
    unfold InWord
    omega
  induction m using Nat.strong_induction_on with
  | _ m ih =>
    by_cases zero : m = 0
    · rw [zero]
      rfl
    have digit : m % 8 < 8 := Nat.mod_lt _ (by decide)
    have value : (8 * ((m / 8 : Nat) : Int) + (m % 8 : Nat)) = (m : Int) := by omega
    rw [octal_of_pos (by omega), octalmode_append]
    by_cases top : m / 8 = 0
    · rw [if_pos top]
      show octalmode 0 [48 + m % 8] = some (m : Int)
      rw [octalmode_digit digit, ← fits m small, ← value, top]
      rfl
    · rw [if_neg top, ih (m / 8) (by omega) (by omega)]
      show octalmode (m / 8 : Nat) [48 + m % 8] = some (m : Int)
      rw [octalmode_digit digit, value, fits m small]

theorem octal_noSpace (m : Nat) : 32 ∉ octal m := by
  intro member
  unfold octal at member
  split at member
  · exact absurd member (by decide)
  · have ⟨_, _, _⟩ := mem_map.1 (mem_reverse.1 member)
    omega

theorem cvtca_noNull {s : Str} (missing : 0 ∉ s) : 0 ∉ cvtca s := by
  intro member
  have ⟨_, here, written⟩ := mem_flatMap.1 member
  unfold runetochar at written
  split_ifs at written
  · exact missing (mem_singleton.1 written ▸ here)
  · simp only [mem_cons, not_mem_nil, or_false] at written
    omega
  · simp only [mem_cons, not_mem_nil, or_false] at written
    omega

theorem parseentry_encodeentry {e : TreeEntry} (wellformed : e.Wellformed) (rest : Bytes) :
    ∃ fewer, parseentry (encodeentry e ++ rest) = .ok (e, ⟨rest, fewer⟩) := by
  have bound := wellformed.mode
  have hash : e.hash.take 20 = e.hash := take_of_length_le wellformed.hash.le
  have layout : encodeentry e ++ rest =
      octal e.mode.toNat ++ 32 :: (cvtca e.name ++ 0 :: (e.hash ++ rest)) := by
    unfold encodeentry
    rw [hash]
    simp
  have ⟨_, space⟩ := splitat_append (octal_noSpace e.mode.toNat)
    (cvtca e.name ++ 0 :: (e.hash ++ rest))
  have ⟨_, null⟩ := splitat_append (cvtca_noNull wellformed.noNull) (e.hash ++ rest)
  have mode := octalmode_octal e.mode.toNat (by omega)
  have number : (e.mode.toNat : Int) = e.mode := by omega
  have enough : ¬(e.hash ++ rest).length < 20 := by
    rw [length_append, wellformed.hash]
    omega
  have front : (e.hash ++ rest).take 20 = e.hash := by
    rw [← wellformed.hash, take_left]
  have back : (e.hash ++ rest).drop 20 = rest := by
    rw [← wellformed.hash, drop_left]
  rw [layout]
  refine ⟨by simp only [length_append, length_cons]; omega, ?_⟩
  unfold parseentry
  simp only [space, mode, null, if_neg enough, number, front, back,
    c2string_cvtca wellformed.runes]

theorem parsetree_encodetree {entries : List TreeEntry}
    (wellformed : ∀ e ∈ entries, e.Wellformed) : parsetree (encodetree entries) = .ok entries := by
  induction entries with
  | nil =>
    rw [parsetree]
    rfl
  | cons e entries ih =>
    have ⟨fewer, read⟩ := parseentry_encodeentry (wellformed e mem_cons_self)
      (encodetree entries)
    have shape : encodetree (e :: entries) = encodeentry e ++ encodetree entries := by
      simp [encodetree]
    have nonempty : encodeentry e ++ encodetree entries ≠ [] := by
      intro empty
      rw [empty] at fewer
      exact absurd fewer (Nat.not_lt_zero _)
    rw [shape, parsetree, if_neg nonempty, read]
    simp only
    rw [ih (forall_mem_cons.1 wellformed).2]
    rfl

/-! ### The order of the format -/

def isdir (mode : Int) : Prop := mode / 4096 % 16 = 4

instance (mode : Int) : Decidable (isdir mode) := inferInstanceAs (Decidable (_ = _))

def TreeEntry.slashed (e : TreeEntry) : Str := e.name ++ if isdir e.mode then [47] else []

def TreeEntry.sortkey (e : TreeEntry) : Bytes := cvtca e.slashed

structure Canonical (entries listing : List TreeEntry) : Prop where
  same : listing.Perm entries
  ordered : listing.Pairwise fun a b => a.sortkey < b.sortkey

/-- Entries of one directory: each as the format has it, and no name twice. -/
structure Tree (entries : List TreeEntry) : Prop where
  wellformed : ∀ e ∈ entries, e.Wellformed
  distinct : (entries.map TreeEntry.name).Nodup

/-- A directory whose name begins another name that goes on below the slash. -/
def Misplaced (d e : TreeEntry) : Prop :=
  isdir d.mode ∧ ∃ c rest, e.name = d.name ++ c :: rest ∧ c < 47

/-- Of two texts in order the first begins the second, or they differ for good. -/
theorem lt_cases {a b : Str} (before : a < b) :
    (∃ c rest, b = a ++ c :: rest) ∨ ∀ s t, a ++ s < b ++ t := by
  induction a generalizing b with
  | nil =>
    cases b with
    | nil => exact absurd before (lt_irrefl _)
    | cons c rest => exact Or.inl ⟨c, rest, rfl⟩
  | cons _ _ ih =>
    cases b with
    | nil => exact absurd before (by simp)
    | cons _ _ =>
      rcases cons_lt_cons_iff.1 before with less | ⟨rfl, later⟩
      · refine Or.inr fun s t => ?_
        exact cons_lt_cons_iff.2 (Or.inl less)
      rcases ih later with ⟨c, rest, rfl⟩ | apart
      · exact Or.inl ⟨c, rest, rfl⟩
      · refine Or.inr fun s t => ?_
        exact cons_lt_cons_iff.2 (Or.inr ⟨rfl, apart s t⟩)

theorem slashed_lt {a b : TreeEntry} (noSlash : 47 ∉ b.name) (before : a.name < b.name)
    (placed : ¬Misplaced a b) : a.slashed < b.slashed := by
  unfold TreeEntry.slashed
  rcases lt_cases before with ⟨c, rest, longer⟩ | apart
  · rw [longer, append_assoc]
    apply append_left_lt
    have other : c ≠ 47 := by
      rintro rfl
      apply noSlash
      rw [longer]
      simp
    by_cases directory : isdir a.mode
    · have above : ¬c < 47 := fun below => placed ⟨directory, c, rest, longer, below⟩
      rw [if_pos directory]
      exact cons_lt_cons_iff.2 (Or.inl (by omega))
    · rw [if_neg directory]
      exact nil_lt_cons _ _
  · exact apart _ _

/-- A misplaced directory belongs behind the name it begins. -/
theorem misplaced_lt {d e : TreeEntry} (misplaced : Misplaced d e) : e.slashed < d.slashed := by
  have ⟨directory, _, _, longer, below⟩ := misplaced
  unfold TreeEntry.slashed
  rw [longer, append_assoc, if_pos directory]
  apply append_left_lt
  exact cons_lt_cons_iff.2 (Or.inl below)

theorem misplaced_name_lt {d e : TreeEntry} (misplaced : Misplaced d e) : d.name < e.name := by
  have ⟨_, c, rest, longer, _⟩ := misplaced
  rw [longer]
  have extended := @append_left_lt _ _ d.name _ _ (nil_lt_cons c rest)
  rwa [append_nil] at extended

theorem sortkey_lt_iff (a b : TreeEntry) : a.sortkey < b.sortkey ↔ a.slashed < b.slashed :=
  Limbo.cvtca_lt_iff

theorem sorttreeentries_perm (entries : List TreeEntry) : (sorttreeentries entries).Perm entries :=
  Insertion.insertions_perm TreeEntry.name entries

/-- The code sorts into the order of the format exactly if no directory is misplaced. -/
theorem canonical_iff {entries : List TreeEntry} (tree : Tree entries) :
    Canonical entries (sorttreeentries entries) ↔
      ¬∃ d ∈ entries, ∃ e ∈ entries, Misplaced d e := by
  have names : (sorttreeentries entries).Pairwise fun a b => a.name < b.name :=
    Insertion.insertions_strict tree.distinct
  have members : ∀ e, e ∈ sorttreeentries entries ↔ e ∈ entries :=
    fun e => (sorttreeentries_perm entries).mem_iff
  constructor
  · rintro canonical ⟨d, isD, e, isE, misplaced⟩
    -- in a list that is in both orders, that of the names is that of the keys
    have forwards : (sorttreeentries entries).Pairwise fun a b =>
        a.name < b.name → a.sortkey < b.sortkey := by
      apply canonical.ordered.imp
      intro a b byKey _
      exact byKey
    have backwards : (sorttreeentries entries).Pairwise fun a b =>
        b.name < a.name → b.sortkey < a.sortkey := by
      apply names.imp
      intro a b byName back
      exact absurd byName back.asymm
    have agree := forwards.forall_of_forall_of_flip
      (fun a _ itself => absurd itself (lt_irrefl _)) backwards
    have byKey := (sortkey_lt_iff e d).2 (misplaced_lt misplaced)
    have listed := agree ((members d).2 isD) ((members e).2 isE)
      (misplaced_name_lt misplaced)
    exact absurd listed byKey.asymm
  · intro placed
    refine ⟨sorttreeentries_perm entries, ?_⟩
    refine names.imp_of_mem ?_
    intro a b isA isB byName
    apply (sortkey_lt_iff a b).2
    apply slashed_lt (tree.wellformed b ((members b).1 isB)).noSlash byName
    intro misplaced
    exact placed ⟨a, (members a).1 isA, b, (members b).1 isB, misplaced⟩

theorem Canonical.unique {entries listing other : List TreeEntry}
    (first : Canonical entries listing) (second : Canonical entries other) : listing = other := by
  refine (first.same.trans second.same.symm).eq_of_pairwise ?_ first.ordered second.ordered
  intro _ _ _ _ below above
  exact absurd below above.asymm

/-! ### The object -/

def rawobj (data : Bytes) : Bytes := str "tree " ++ natDigits data.length ++ 0 :: data

/-- The entries come back, the order of the input does not matter, the listing is that of the
format, and so is the hash, whatever the hash function. -/
structure TreeRight (entries : List TreeEntry) : Prop where
  parses : parsetree (encodetree entries) = .ok entries
  orderless : ∀ other : List TreeEntry, other.Perm entries →
    encodetree (sorttreeentries other) = encodetree (sorttreeentries entries)
  canonical : Canonical entries (sorttreeentries entries)
  hashes : ∀ (sha1 : Bytes → Bytes) (listing : List TreeEntry), Canonical entries listing →
    sha1 (rawobj (encodetree (sorttreeentries entries))) = sha1 (rawobj (encodetree listing))

/-- A tree is written as the format has it exactly if no directory's name begins another name
that goes on with a character below the slash. -/
theorem tree_right_iff {entries : List TreeEntry} (tree : Tree entries) :
    TreeRight entries ↔ ¬∃ d ∈ entries, ∃ e ∈ entries, Misplaced d e := by
  rw [← canonical_iff tree]
  constructor
  · exact TreeRight.canonical
  intro canonical
  refine ⟨parsetree_encodetree tree.wellformed, ?_, canonical, ?_⟩
  · intro other same
    have sorted : sorttreeentries other = sorttreeentries entries :=
      Insertion.insertions_congr tree.distinct same
    rw [sorted]
  · intro _ _ asFormat
    rw [canonical.unique asFormat]

/-- A directory `a` and a file with a name that begins with `a`. -/
def besides (name : Str) : List TreeEntry :=
  [⟨16384, [97], List.replicate 20 1⟩, ⟨33188, name, List.replicate 20 2⟩]

theorem tree_besides {name : Str} (named : name ≠ []) (runes : Runes name) (noNull : 0 ∉ name)
    (noSlash : 47 ∉ name) (other : name ≠ [97]) : Tree (besides name) where
  wellformed := by
    intro _ member
    rcases mem_pair.1 member with rfl | rfl
    · exact ⟨by decide, by decide, by unfold Runes; decide, by decide, by decide, by decide⟩
    · exact ⟨show (0 : Int) ≤ 33188 ∧ (33188 : Int) < 2 ^ 31 by decide, named, runes, noNull, noSlash, length_replicate⟩
  distinct := by simpa [besides] using Ne.symm other

theorem tree_right_beyond : TreeRight (besides [97, 98]) := by
  have tree : Tree (besides [97, 98]) :=
    tree_besides (by decide) (by unfold Runes; decide) (by decide) (by decide) (by decide)
  refine (tree_right_iff tree).2 ?_
  rintro ⟨d, isD, e, isE, directory, c, rest, longer, below⟩
  rcases mem_pair.1 isD with rfl | rfl
  · rcases mem_pair.1 isE with rfl | rfl
    · cases longer
    · cases longer
      exact absurd below (by decide)
  · exact absurd directory (by decide)

/-- A directory `a` is listed before a file `a.b`, and the format has it behind. -/
theorem tree_wrong_below : ¬TreeRight (besides [97, 46, 98]) := by
  intro right
  have ordered := right.canonical.ordered
  revert ordered
  decide

end Infernode.Git
