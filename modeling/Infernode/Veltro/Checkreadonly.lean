import Infernode.Lib9.Rune
import Infernode.Text.Lines
import Infernode.Veltro.Delegation
import Mathlib.Data.List.Nodup

/-!
Where `appl/veltro/tools/write.b` and `edit.b` let a tool write.

Owns: `genpathlist`, the text of the grants that `tools9p.b` serves, the grants that it can hold,
and `checkreadonly` over that text; and when its answer is that of `pathperm`.
-/

namespace Infernode.Tools9p

open Text Lib9 Veltro Narrowest List

/-! ### The grants -/

def setperm (path : Str) (perm : Perm) : List BoundPath → List BoundPath
  | [] => []
  | b :: bs => if b.path = path then ⟨b.path, perm⟩ :: bs else b :: setperm path perm bs

def bindpath (boundpaths : List BoundPath) (path : Str) (perm : Perm) : List BoundPath :=
  match findboundpath boundpaths path with
  | some _ => setperm path perm boundpaths
  | none => ⟨path, perm⟩ :: boundpaths

def unbindpath (boundpaths : List BoundPath) (path : Str) : List BoundPath :=
  (boundpaths.filter fun b => b.path ≠ path).reverse

/-- The paths of `-p` without a permission, and those with one, that the server can hold. -/
inductive Held : List Str → List BoundPath → Prop
  | start : Held [] []
  | ext {ext bound} (held : Held ext bound) {path : Str} (able : Grantable path)
      (runes : Runes path) : Held (path :: ext) bound
  | bind {ext bound} (held : Held ext bound) {path : Str} (able : Grantable path)
      (runes : Runes path) (perm : Perm) : Held ext (bindpath bound path perm)
  | unbind {ext bound} (held : Held ext bound) (path : Str) : Held ext (unbindpath bound path)
  | setperm {ext bound} (held : Held ext bound) (path : Str) (perm : Perm) :
      Held ext (setperm path perm bound)

def genpathlist (extpaths : List Str) (boundpaths : List BoundPath) : Str :=
  str "/tmp/veltro/scratch cow" ++
    ((extpaths.filter fun p => p ≠ scratch).flatMap fun p => 10 :: (p ++ 32 :: str "ro")) ++
    ((boundpaths.filter fun b => b.path ≠ scratch).flatMap fun b =>
      10 :: (b.path ++ 32 :: b.perm.text))

/-! ### `checkreadonly` -/

/-- The tools check a path as the server does, but for the root. -/
def toolvalidatepath (path : Str) : Option Str :=
  if path = [] then some (str "empty path")
  else if path.head? ≠ some 47 then some (str "path must be absolute")
  else if path.any controldelimiter then some (str "path contains control delimiter")
  else
    (path.tail.splitOn 47).findSome? fun comp =>
      if comp = [] then some (str "empty path component")
      else if comp = str "." ∨ comp = str ".." then some (str "dot path component")
      else none

/-- A line up to its last space, unless that is its first character, and what is behind it. -/
def splitlast (line : Str) : Option (Str × Str) :=
  let perm := (line.reverse.takeWhile (· ≠ 32)).reverse
  if perm.length + 1 < line.length then some (line.take (line.length - perm.length - 1), perm)
  else none

def moreSpecific (path : Str) (found : Int × Str) (line : Str) : Int × Str :=
  match splitlast line with
  | none => found
  | some (bpath, perm) =>
    if (perm = str "ro" ∨ perm = str "rw") ∧ found.1 < bpath.length ∧
        pathwithin bpath path = true then
      (bpath.length, perm)
    else found

/-- The error for a path, given what `/tool/paths` holds if it can be opened and read. -/
def checkreadonly (paths : Option (Option (List Nat))) (path : Str) : Option Str :=
  match toolvalidatepath path with
  | some perr => some (str "error: invalid path: " ++ perr)
  | none =>
    if pathwithin scratch path = true then none
    else
      match paths with
      | none => some (str "error: cannot verify writable path grants")
      | some none => some (str "error: cannot read writable path grants")
      | some (some file) =>
        let buf := file.take 65536
        if buf.length = 65536 then some (str "error: writable path grants exceed limit")
        else
          let best := ((c2string buf).splitOn 10).foldl (moreSpecific path) (-1, [])
          if best.2 = str "rw" then none
          else if best.2 = str "ro" then
            some (str "error: " ++ path ++ str " is read-only")
          else some (str "error: " ++ path ++ str " is not covered by an rw path grant")

def IsPath (path : Str) : Prop :=
  path.head? = some 47 ∧ (∀ c ∈ path, controldelimiter c = false) ∧
    ∀ comp ∈ path.tail.splitOn 47, comp ≠ [] ∧ comp ≠ str "." ∧ comp ≠ str ".."

variable {path : Str} {ext : List Str} {bound : List BoundPath}

theorem toolvalidatepath_eq_none : toolvalidatepath path = none ↔ IsPath path := by
  unfold toolvalidatepath IsPath
  constructor
  · intro valid
    split_ifs at valid with empty relative delimiter
    refine ⟨not_not.1 relative, ?_, fun comp member => ?_⟩
    · intro c member
      by_contra isDelimiter
      exact delimiter (any_eq_true.2 ⟨c, member, Bool.not_eq_false _ ▸ isDelimiter⟩)
    · have proper := findSome?_eq_none_iff.1 valid comp member
      split_ifs at proper with bare dots
      exact ⟨bare, not_or.1 dots⟩
  · rintro ⟨absolute, clean, comps⟩
    rw [if_neg (by rintro rfl; exact nomatch absolute), if_neg (not_not.2 absolute), if_neg]
    · apply findSome?_eq_none_iff.2
      intro comp member
      have ⟨bare, dots⟩ := comps comp member
      rw [if_neg bare, if_neg (not_or.2 dots)]
    intro any
    have ⟨c, member, isDelimiter⟩ := any_eq_true.1 any
    rw [clean c member] at isDelimiter
    exact nomatch isDelimiter

/-! ### The lines -/

theorem splitlast_line {perm : Str} (nonempty : path ≠ []) (clean : 32 ∉ perm) :
    splitlast (path ++ 32 :: perm) = some (path, perm) := by
  have front : (path ++ 32 :: perm).reverse = perm.reverse ++ 32 :: path.reverse := by simp
  have cut : ((path ++ 32 :: perm).reverse.takeWhile (· ≠ 32)).reverse = perm := by
    rw [front, takeWhile_append_stop _ (by rfl), reverse_reverse]
    exact fun c member => decide_eq_true fun same => clean (same ▸ mem_reverse.1 member)
  have positive := length_pos_iff.2 nonempty
  have length : (path ++ 32 :: perm).length = path.length + (perm.length + 1) := by
    rw [length_append, length_cons]
  rw [splitlast, cut, if_pos (by omega), length]
  have index : path.length + (perm.length + 1) - perm.length - 1 = path.length := by omega
  rw [index, take_left]

theorem splitOn_flatMap {first : Str} {lines : List Str} (clean : 10 ∉ first)
    (each : ∀ line ∈ lines, 10 ∉ line) :
    (first ++ lines.flatMap fun line => 10 :: line).splitOn 10 = first :: lines := by
  induction lines generalizing first with
  | nil => rw [flatMap_nil, append_nil, splitOn_last clean]
  | cons line _ ih =>
    rw [flatMap_cons, cons_append, splitOn_line clean,
      ih (each line mem_cons_self) fun other member =>
        each other (mem_cons_of_mem _ member)]

abbrev Row := Str × Perm

def Row.line (r : Row) : Str := r.1 ++ 32 :: r.2.text

/-- The grant that a search takes: the first of the longest that cover the path. -/
def pick (path : Str) (found : Int × Str) (r : Row) : Int × Str :=
  if found.1 < r.1.length ∧ pathwithin r.1 path = true then (r.1.length, r.2.text) else found

theorem moreSpecific_line (path : Str) (found : Int × Str) {r : Row} (nonempty : r.1 ≠ []) :
    moreSpecific path found r.line = pick path found r := by
  have clean : 32 ∉ r.2.text := by cases r.2 <;> decide
  have known : r.2.text = str "ro" ∨ r.2.text = str "rw" := by
    cases r.2
    · exact Or.inl rfl
    · exact Or.inr rfl
  rw [moreSpecific, Row.line, splitlast_line nonempty clean]
  simp only [known, true_and]
  rfl

/-- The search is left with nothing, or with the first of the longest grants that cover the path. -/
theorem foldl_pick (path : Str) (rows : List Row) :
    (rows.foldl (pick path) (-1, []) = (-1, []) ∧ ∀ r ∈ rows, ¬ pathwithin r.1 path = true) ∨
    ∃ before r after, rows = before ++ r :: after ∧
      rows.foldl (pick path) (-1, []) = (↑r.1.length, r.2.text) ∧ pathwithin r.1 path = true ∧
      (∀ o ∈ before, pathwithin o.1 path = true → o.1.length < r.1.length) ∧
      ∀ o ∈ after, pathwithin o.1 path = true → o.1.length ≤ r.1.length := by
  induction rows using List.reverseRecOn with
  | nil => exact Or.inl ⟨rfl, nofun⟩
  | append_singleton rows last ih =>
    rw [foldl_concat]
    rcases ih with ⟨found, none_⟩ | ⟨before, r, after, shape, found, above, less, most⟩
    · rw [found, pick]
      split
      · rename_i taken
        exact Or.inr ⟨rows, last, [], rfl, rfl, taken.2,
          fun o member within => absurd within (none_ o member), nofun⟩
      rename_i other
      refine Or.inl ⟨rfl, fun o member => ?_⟩
      rcases mem_append.1 member with old | new
      · exact none_ o old
      · rw [mem_singleton.1 new]
        exact fun covers => other ⟨by show (-1 : Int) < _; omega, covers⟩
    · rw [found, pick]
      split
      · rename_i taken
        have longer : r.1.length < last.1.length := Int.ofNat_lt.1 taken.1
        refine Or.inr ⟨rows, last, [], rfl, rfl, taken.2, fun o member within => ?_, nofun⟩
        rw [shape] at member
        rcases mem_append.1 member with first | second
        · exact (less o first within).trans longer
        · rcases mem_cons.1 second with rfl | later
          · exact longer
          · exact (most o later within).trans_lt longer
      · rename_i other
        refine Or.inr ⟨before, r, after ++ [last], by rw [shape]; simp, rfl, above, less, ?_⟩
        intro o member within
        rcases mem_append.1 member with later | new
        · exact most o later within
        · rw [mem_singleton.1 new] at within ⊢
          exact Nat.not_lt.1 fun longer => other ⟨Int.ofNat_lt.2 longer, within⟩

/-! ### What the server holds -/

def Granted (path : Str) : Prop := Grantable path ∧ Runes path

theorem Granted.clean (granted : Granted path) : path ≠ [] ∧ 10 ∉ path ∧ path ≠ scratch := by
  have valid := granted.1.1
  unfold validatepath at valid
  split_ifs at valid with empty relative root delimiter
  refine ⟨empty, fun newline => delimiter ?_, granted.1.2.2⟩
  exact any_eq_true.2 ⟨10, newline, rfl⟩

theorem map_path_setperm (path : Str) (perm : Perm) (bound : List BoundPath) :
    (setperm path perm bound).map BoundPath.path = bound.map BoundPath.path := by
  induction bound with
  | nil => rfl
  | cons _ _ ih =>
    rw [setperm]
    split
    · rfl
    · rw [map_cons, ih, map_cons]

theorem Held.proper (held : Held ext bound) :
    (∀ p ∈ ext, Granted p) ∧ (∀ p ∈ bound.map BoundPath.path, Granted p) ∧
      (bound.map BoundPath.path).Nodup := by
  induction held with
  | start => exact ⟨nofun, nofun, nodup_nil⟩
  | ext _ able runes ih =>
    exact ⟨forall_mem_cons.2 ⟨⟨able, runes⟩, ih.1⟩, ih.2⟩
  | @bind ext bound held path able runes perm ih =>
    unfold bindpath
    cases found : findboundpath bound path with
    | some _ =>
      rw [map_path_setperm]
      exact ih
    | none =>
      have ⟨first, second, distinct⟩ := ih
      refine ⟨first, forall_mem_cons.2 ⟨⟨able, runes⟩, second⟩,
        nodup_cons.2 ⟨fun member => ?_, distinct⟩⟩
      have ⟨b, inBound, same⟩ := mem_map.1 member
      exact find?_eq_none.1 found b inBound (beq_iff_eq.2 same)
  | @unbind ext bound held path ih =>
    have ⟨first, second, distinct⟩ := ih
    have kept : (bound.filter fun b => b.path ≠ path).Sublist bound := filter_sublist
    have sub := kept.map BoundPath.path
    rw [unbindpath, map_reverse]
    exact ⟨first, fun p member => second p (sub.subset (mem_reverse.1 member)),
      (reverse_perm _).nodup_iff.2 (distinct.sublist sub)⟩
  | setperm _ _ _ ih =>
    rw [map_path_setperm]
    exact ih

/-- The grants in the order in which they are served. -/
def rowsof (ext : List Str) (bound : List BoundPath) : List Row :=
  ext.map (fun p => (p, .ro)) ++ bound.map fun b => (b.path, b.perm)

/-- What is read of the text are the grants. -/
theorem foldl_genpathlist (held : Held ext bound) (path : Str) :
    ((c2string (cvtca (genpathlist ext bound))).splitOn 10).foldl (moreSpecific path) (-1, []) =
      (rowsof ext bound).foldl (pick path) (-1, []) := by
  have ⟨extGranted, boundGranted, _⟩ := held.proper
  have each : ∀ r ∈ rowsof ext bound, Granted r.1 := by
    intro r member
    rcases mem_append.1 member with inExt | inBound
    · have ⟨p, here, same⟩ := mem_map.1 inExt
      rw [← same]
      exact extGranted p here
    · have ⟨b, here, same⟩ := mem_map.1 inBound
      rw [← same]
      exact boundGranted _ (mem_map_of_mem here)
  have text : genpathlist ext bound = str "/tmp/veltro/scratch cow" ++
      ((rowsof ext bound).map Row.line).flatMap fun line => 10 :: line := by
    have keepExt : (ext.filter fun p => p ≠ scratch) = ext :=
      filter_eq_self.2 fun p member => decide_eq_true (extGranted p member).clean.2.2
    have keepBound : (bound.filter fun b => b.path ≠ scratch) = bound :=
      filter_eq_self.2 fun b member =>
        decide_eq_true (boundGranted _ (mem_map_of_mem member)).clean.2.2
    rw [genpathlist, keepExt, keepBound, rowsof, map_append, flatMap_append,
      append_assoc]
    simp only [map_map, flatMap_map]
    rfl
  have clean : ∀ line ∈ (rowsof ext bound).map Row.line, 10 ∉ line ∧ Runes line := by
    intro line member
    have ⟨r, here, same⟩ := mem_map.1 member
    have granted := each r here
    have perm : 10 ∉ r.2.text ∧ Runes (32 :: r.2.text) := by
      unfold Runes
      cases r.2 <;> decide
    rw [← same]
    refine ⟨fun newline => ?_, granted.2.append perm.2⟩
    rcases mem_append.1 newline with inPath | behind
    · exact granted.clean.2.1 inPath
    · rcases mem_cons.1 behind with wrong | inPerm
      · exact absurd wrong (by decide)
      · exact perm.1 inPerm
  have runes : Runes (genpathlist ext bound) := by
    rw [text]
    refine Runes.append (by unfold Runes; decide) fun c member => ?_
    have ⟨line, here, inLine⟩ := mem_flatMap.1 member
    rcases mem_cons.1 inLine with rfl | inLine
    · decide
    · exact (clean line here).2 c inLine
  have start : moreSpecific path (-1, []) (str "/tmp/veltro/scratch cow") = (-1, []) := by
    have split : splitlast (str "/tmp/veltro/scratch cow") = some (scratch, str "cow") := by decide
    rw [moreSpecific, split]
    exact if_neg fun both => absurd both.1 (by decide)
  rw [c2string_cvtca runes, text, splitOn_flatMap (by decide) fun line member => (clean line member).1,
    foldl_cons, start, foldl_map]
  exact foldl_ext _ _ _ fun found r member =>
    moreSpecific_line path found (each r member).clean.1

/-! ### Where a tool may write -/

section Decision

variable {ext : List Str} {bound : List BoundPath} {path : Str}

theorem MayWrite.of_longest (held : Held ext bound) {b : BoundPath} (member : b ∈ bound)
    (covers : pathwithin b.path path = true)
    (longest : ∀ o ∈ bound, pathwithin o.path path = true → o.path.length ≤ b.path.length) :
    MayWrite bound path ↔ b.perm = .rw := by
  have distinct := held.proper.2.2
  have same {o : BoundPath} (inBound : o ∈ bound) (path : o.path = b.path) : o = b :=
    inj_on_of_nodup_map distinct inBound member path
  have narrowest : IsNarrowest (fun grant want => pathwithin grant want = true) BoundPath.path bound
      path b :=
    ⟨member, covers, fun o inBound within =>
      pathwithin_of_length_le within covers (longest o inBound within)⟩
  constructor
  · rintro ⟨g, ⟨inBound, within, above⟩, all⟩
    exact all b member (forest_pathwithin.antisymm (above b member covers)
      (narrowest.2.2 g inBound within))
  · exact fun writable => ⟨b, narrowest, fun o inBound path => same inBound path ▸ writable⟩

/-- A path is writable to the tools only where it is to the server, and it is unless a path without
a permission covers it as narrowly. -/
theorem search_eq_rw (held : Held ext bound) (ordinary : path ≠ scratch) :
    (((rowsof ext bound).foldl (pick path) (-1, [])).2 = str "rw" →
      pathperm bound path = .grant .rw) ∧
    ((∀ e ∈ ext, pathwithin e path = true →
      ∃ b ∈ bound, pathwithin b.path path = true ∧ e.length < b.path.length) →
      pathperm bound path = .grant .rw →
      ((rowsof ext bound).foldl (pick path) (-1, [])).2 = str "rw") := by
  have nonempty : ∀ b ∈ bound, b.path ≠ [] := fun b member =>
    (held.proper.2.1 _ (mem_map_of_mem member)).clean.1
  rw [pathperm_eq_rw_iff nonempty ordinary]
  have inRows {b : BoundPath} (member : b ∈ bound) : (b.path, b.perm) ∈ rowsof ext bound :=
    mem_append_right _ (mem_map.2 ⟨b, member, rfl⟩)
  rcases foldl_pick path (rowsof ext bound) with ⟨found, none_⟩ | ⟨before, r, after, shape, found, covers, less, most⟩
  · rw [found]
    refine ⟨fun wrong => absurd wrong (by decide), fun _ writable => ?_⟩
    have ⟨b, member, above, _⟩ := writable.exists_covers
    exact absurd above (none_ _ (inRows member))
  have longest : ∀ o ∈ rowsof ext bound, pathwithin o.1 path = true → o.1.length ≤ r.1.length := by
    intro o member within
    rw [shape] at member
    rcases mem_append.1 member with first | second
    · exact Nat.le_of_lt (less o first within)
    · rcases mem_cons.1 second with rfl | later
      · exact Nat.le_refl _
      · exact most o later within
  have bounds : ∀ o ∈ bound, pathwithin o.path path = true → o.path.length ≤ r.1.length :=
    fun o member => longest _ (inRows member)
  have chosen : r ∈ rowsof ext bound := by rw [shape]; simp
  have ro : str "ro" ≠ str "rw" := by decide
  rw [found]
  rcases mem_append.1 chosen with inExt | inBound
  · have ⟨e, member, same⟩ := mem_map.1 inExt
    rw [← same] at covers bounds ⊢
    refine ⟨fun wrong => absurd wrong ro, fun narrower _ => ?_⟩
    have ⟨b, inBound, within, longer⟩ := narrower e member covers
    exact absurd (bounds b inBound within) (Nat.not_le.2 longer)
  have ⟨b, member, same⟩ := mem_map.1 inBound
  rw [← same] at covers bounds ⊢
  rw [MayWrite.of_longest held member covers bounds]
  cases b.perm
  · exact ⟨fun wrong => absurd wrong ro, fun _ wrong => nomatch wrong⟩
  · exact ⟨fun _ => rfl, fun _ _ => rfl⟩

end Decision

theorem checkreadonly_small {file : List Nat} (valid : toolvalidatepath path = none)
    (outside : ¬ pathwithin scratch path = true)
    (allowed : checkreadonly (some (some file)) path = none) : file.length < 65536 := by
  by_contra large
  have full : (file.take 65536).length = 65536 := by
    rw [length_take]
    omega
  rw [checkreadonly, valid] at allowed
  simp only [if_neg outside, if_pos full] at allowed
  exact nomatch allowed

/-- A tool writes only to a proper path in the scratch directory or where `pathperm` says `rw`; and
unless a path that is served without a permission covers it as narrowly as the grants do, it may
write there if the grants fit the read. -/
theorem checkreadonly_eq_none {ext : List Str} {bound : List BoundPath} (held : Held ext bound)
    (path : Str) :
    (checkreadonly (some (some (cvtca (genpathlist ext bound)))) path = none →
      IsPath path ∧ (pathwithin scratch path = true ∨ pathperm bound path = .grant .rw)) ∧
    ((∀ e ∈ ext, pathwithin e path = true →
      ∃ b ∈ bound, pathwithin b.path path = true ∧ e.length < b.path.length) →
      (checkreadonly (some (some (cvtca (genpathlist ext bound)))) path = none ↔
        IsPath path ∧ (pathwithin scratch path = true ∨
          pathperm bound path = .grant .rw ∧ (cvtca (genpathlist ext bound)).length < 65536))) := by
  unfold checkreadonly
  rw [← toolvalidatepath_eq_none]
  cases valid : toolvalidatepath path with
  | some _ =>
    exact ⟨nofun, fun _ => iff_of_false nofun fun both => nomatch both.1⟩
  | none =>
    simp only [true_and]
    by_cases inScratch : pathwithin scratch path = true
    · rw [if_pos inScratch]
      exact ⟨fun _ => Or.inl inScratch, fun _ => iff_of_true rfl (Or.inl inScratch)⟩
    rw [if_neg inScratch]
    have ordinary : path ≠ scratch := fun same => inScratch (same ▸ pathwithin_refl _)
    have ⟨sound, complete⟩ := search_eq_rw held ordinary
    by_cases large : ((cvtca (genpathlist ext bound)).take 65536).length = 65536
    · rw [if_pos large]
      rw [length_take] at large
      refine ⟨nofun, fun _ => iff_of_false nofun ?_⟩
      rintro (inside | ⟨_, small⟩)
      · exact inScratch inside
      · omega
    rw [if_neg large]
    rw [length_take] at large
    have small : (cvtca (genpathlist ext bound)).length < 65536 := by omega
    rw [take_of_length_le (Nat.le_of_lt small), foldl_genpathlist held]
    have decided : ∀ found : Str, (if found = str "rw" then none
        else if found = str "ro" then some (str "error: " ++ path ++ str " is read-only")
        else some (str "error: " ++ path ++ str " is not covered by an rw path grant")) =
          (none : Option Str) ↔ found = str "rw" := by
      intro _
      split_ifs with writable <;> simp [writable]
    simp only [decided, inScratch, Bool.false_eq_true, false_or, small, and_true]
    exact ⟨sound, fun narrower => ⟨sound, complete narrower⟩⟩

theorem held_replicate (n : Nat) :
    Held (List.replicate n (str "/usr/a")) [⟨str "/usr/b", .rw⟩] := by
  induction n with
  | zero => exact @Held.bind _ _ .start (str "/usr/b") (by decide) (by unfold Runes; decide) .rw
  | succ _ ih =>
    exact .ext ih (by decide) (by unfold Runes; decide)

theorem checkreadonly_eq_none_other :
    checkreadonly (some (some (cvtca (genpathlist (List.replicate 1 (str "/usr/a"))
      [⟨str "/usr/b", .rw⟩])))) (str "/usr/b") = none :=
  ((checkreadonly_eq_none (held_replicate 1) (str "/usr/b")).2 (by decide)).2
    ⟨toolvalidatepath_eq_none.1 (by decide +kernel), Or.inr ⟨by decide +kernel, by decide +kernel⟩⟩

/-- A path with an `rw` grant is refused where it is served without a permission too, or where the
grants do not fit the read. -/
theorem checkreadonly_refuses :
    (∃ ext bound path, Held ext bound ∧ IsPath path ∧ pathperm bound path = .grant .rw ∧
      checkreadonly (some (some (cvtca (genpathlist ext bound)))) path ≠ none) ∧
    ∃ ext bound path, Held ext bound ∧ IsPath path ∧ pathperm bound path = .grant .rw ∧
      (∀ e ∈ ext, ¬ pathwithin e path = true) ∧
      checkreadonly (some (some (cvtca (genpathlist ext bound)))) path ≠ none := by
  have isPath : IsPath (str "/usr/b") := toolvalidatepath_eq_none.1 (by decide +kernel)
  have writable : pathperm [⟨str "/usr/b", .rw⟩] (str "/usr/b") = .grant .rw := by decide +kernel
  constructor
  · refine ⟨[str "/usr/b"], [⟨str "/usr/b", .rw⟩], str "/usr/b", ?_, isPath, writable, by decide +kernel⟩
    exact .ext (held_replicate 0) (by decide) (by unfold Runes; decide)
  have held := held_replicate 7000
  have apart : ∀ e ∈ List.replicate 7000 (str "/usr/a"), ¬ pathwithin e (str "/usr/b") = true := by
    intro _ member
    rw [(mem_replicate.1 member).2]
    decide
  refine ⟨_, _, str "/usr/b", held, isPath, writable, apart, fun allowed => ?_⟩
  have small := checkreadonly_small (by decide +kernel) (by decide) allowed
  have longer : (genpathlist (List.replicate 7000 (str "/usr/a")) [⟨str "/usr/b", .rw⟩]).length ≤
      (cvtca (genpathlist (List.replicate 7000 (str "/usr/a")) [⟨str "/usr/b", .rw⟩])).length := by
    exact length_le_cvtca _
  have rows : ((List.replicate 7000 (str "/usr/a")).filter fun p => p ≠ scratch) =
      List.replicate 7000 (str "/usr/a") := filter_replicate_of_pos (by decide)
  have length : 70000 ≤
      (genpathlist (List.replicate 7000 (str "/usr/a")) [⟨str "/usr/b", .rw⟩]).length := by
    rw [genpathlist, rows]
    simp only [length_append, length_flatMap, map_replicate, sum_replicate_nat]
    exact Nat.le_trans (Nat.le_add_left _ _) (Nat.le_add_right _ _)
  omega

end Infernode.Tools9p
