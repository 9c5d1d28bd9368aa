import Infernode.Lib.Gitpaths

/-!
The index of `appl/lib/git/git.b`: the file of the entries that are staged, a line for each.

Owns: `saveindex` and `loadindex` with the helpers that split a line and read its fields; and
when the entries that were saved are those that are loaded.
-/

namespace Infernode.Git

open Text Lib9 List

structure IndexEntry where
  mode : Int
  hash : Bytes
  path : Str
deriving DecidableEq

/-! ### Saving -/

/-- `%06o` of a number that is not negative. -/
def octal6 (m : Nat) : Str := List.replicate (6 - (octal m).length) 48 ++ octal m

def IndexEntry.fields (e : IndexEntry) : Str := octal6 e.mode.toNat ++ 32 :: (hex e.hash ++ [32])

def IndexEntry.line (e : IndexEntry) : Str := e.fields ++ e.path ++ [10]

def indextext (entries : List IndexEntry) : Str := entries.flatMap IndexEntry.line

/-- What the kernel answers to `saveindex`: the error of `create`, if it fails, and the count that
`write` returns. -/
structure Saved where
  create : Option Str
  write : Bytes → Nat
  err : Str

def saveindex (kernel : Saved) (file : Option Bytes) (entries : List IndexEntry) :
    Option Bytes × Option Str :=
  let data := cvtca (indextext entries)
  match kernel.create with
  | some err => (file, some (str "create index: " ++ err))
  | none =>
    if kernel.write data ≠ data.length then
      (some (data.take (kernel.write data)), some (str "write index: " ++ kernel.err))
    else (some data, none)

/-! ### Loading -/

def splitline : Str → Str × Str
  | [] => ([], [])
  | 10 :: s => ([], s)
  | 13 :: 10 :: s => ([], s)
  | c :: s => (c :: (splitline s).1, (splitline s).2)

def splitfirst (sep : Nat) : Str → Str × Str
  | [] => ([], [])
  | c :: s => if c = sep then ([], s) else (c :: (splitfirst sep s).1, (splitfirst sep s).2)

/-- The octal digits that `s` starts with, in 32 bits. -/
def parseoctal : Int → Str → Int
  | v, [] => v
  | v, c :: s => if 48 ≤ c ∧ c ≤ 55 then parseoctal (wrap (8 * v + (c - 48 : Nat))) s else v

def hexval (c : Nat) : Option Nat :=
  if 48 ≤ c ∧ c ≤ 57 then some (c - 48)
  else if 97 ≤ c ∧ c ≤ 102 then some (c - 97 + 10)
  else if 65 ≤ c ∧ c ≤ 70 then some (c - 65 + 10)
  else none

/-- `n` bytes in hexadecimal. -/
def hexbytes : Nat → Str → Option Bytes
  | 0, _ => some []
  | n + 1, c :: d :: s =>
    match hexval c, hexval d with
    | some high, some low => (hexbytes n s).map fun h => (16 * high + low) :: h
    | _, _ => none
  | _ + 1, _ => none

def parsehash (s : Str) : Except Str Bytes :=
  if s.length < 40 then .error (str "short hash string")
  else
    match hexbytes 20 s with
    | none => .error (str "bad hex in hash")
    | some h => .ok h

/-- `mode hash path`; a line with another hash is passed over. -/
def parseline (line : Str) : Option IndexEntry :=
  let (modestr, r2) := splitfirst 32 line
  let (hashstr, path) := splitfirst 32 r2
  match parsehash hashstr with
  | .error _ => none
  | .ok h => some ⟨parseoctal 0 modestr, h, path⟩

theorem splitline_length (s : Str) : (splitline s).2.length ≤ s.length ∧
    ((splitline s).1 ≠ [] → (splitline s).2.length < s.length) := by
  fun_induction splitline s with
  | case1 => exact ⟨Nat.le_refl _, fun nonempty => absurd rfl nonempty⟩
  | case2 _ => exact ⟨Nat.le_succ _, fun nonempty => absurd rfl nonempty⟩
  | case3 _ =>
    exact ⟨Nat.le_add_right _ 2, fun nonempty => absurd rfl nonempty⟩
  | case4 _ _ _ _ ih =>
    have fewer := ih.1
    exact ⟨Nat.le_succ_of_le fewer, fun _ => Nat.lt_succ_of_le fewer⟩

/-- The entries in the order of the lines, up to an empty line. -/
def readlines (s : Str) : List IndexEntry :=
  if _ : (splitline s).1 = [] then []
  else (parseline (splitline s).1).toList ++ readlines (splitline s).2
termination_by s.length
decreasing_by exact (splitline_length s).2 (by assumption)

/-- One `read`: the file server hands out `iounit` bytes at most. -/
def sysread (iounit : Nat) (file : Bytes) (size : Nat) : Bytes := file.take (min size iounit)

def loadindex (iounit : Nat) : Option Bytes → List IndexEntry × Option Str
  | none => ([], none)
  | some file =>
    let buf := sysread iounit file 65536
    if buf.length = 0 then ([], none) else (readlines (c2string buf), none)

/-! ### The fields of a line -/

/-- What an entry holds: a mode of 31 bits, a hash of 20 bytes and a name that is not empty. -/
structure IndexEntry.Wellformed (e : IndexEntry) : Prop where
  mode : 0 ≤ e.mode ∧ e.mode < 2 ^ 31
  length : e.hash.length = 20
  bytes : ∀ b ∈ e.hash, b < 256
  path : e.path ≠ []
  runes : Runes e.path

variable {s front cut : Str} {c : Nat} {h : Bytes}

theorem parseoctal_of_octalmode {v m : Int} (read : octalmode v s = some m) :
    parseoctal v s = m := by
  induction s generalizing v with
  | nil => exact Option.some.inj read
  | cons c s ih =>
    rw [octalmode] at read
    rw [parseoctal]
    split at read
    · rename_i digit
      rw [if_pos digit]
      exact ih read
    · exact absurd read (by simp)

theorem parseoctal_zeros (n : Nat) (s : Str) :
    parseoctal 0 (List.replicate n 48 ++ s) = parseoctal 0 s := by
  induction n with
  | zero => rfl
  | succ _ ih =>
    rw [replicate_succ, cons_append, parseoctal, if_pos (by decide)]
    exact ih

theorem parseoctal_octal6 {mode : Int} (nonneg : 0 ≤ mode) (small : mode < 2 ^ 31) :
    parseoctal 0 (octal6 mode.toNat) = mode := by
  have below : mode.toNat < 2 ^ 31 := by omega
  have digits := parseoctal_of_octalmode (octalmode_octal mode.toNat below)
  rw [octal6, parseoctal_zeros, digits]
  exact Int.toNat_of_nonneg nonneg

def Digit (c : Nat) : Prop := 48 ≤ c ∧ c < 128

variable {m sep : Nat} {path : Str}

theorem digit_of_octal (member : c ∈ octal m) : Digit c := by
  unfold octal at member
  unfold Digit
  split at member
  · have zero := mem_singleton.1 member
    omega
  · have ⟨_, digit, _⟩ := mem_map.1 (mem_reverse.1 member)
    have small := Nat.digits_lt_base (by decide) digit
    omega

theorem digit_of_octal6 (member : c ∈ octal6 m) : Digit c := by
  rcases mem_append.1 member with zero | digit
  · rw [(mem_replicate.1 zero).2]
    exact ⟨by decide, by decide⟩
  · exact digit_of_octal digit

theorem hexval_hexdigit : ∀ v < 16, hexval (hexdigit v) = some v := by
  decide

theorem digit_of_hexdigit {v : Nat} (small : v < 16) : Digit (hexdigit v) := by
  unfold hexdigit Digit
  split_ifs
  · omega
  · omega

def hexes (h : Bytes) : Str := h.flatMap fun b => [hexdigit (b / 16), hexdigit (b % 16)]

theorem hex_eq (twenty : h.length = 20) : hex h = hexes h := by
  have nonempty : h ≠ [] := by
    intro empty
    rw [empty] at twenty
    exact absurd twenty (by decide)
  rw [hex, if_neg nonempty, take_of_length_le (Nat.le_of_eq twenty)]
  rfl

theorem hexes_length (h : Bytes) : (hexes h).length = 2 * h.length := by
  induction h with
  | nil => rfl
  | cons _ h ih =>
    show (hexes h).length + 1 + 1 = _
    rw [ih, length_cons]
    omega

theorem digit_of_hexes (bytes : ∀ b ∈ h, b < 256) (member : c ∈ hexes h) : Digit c := by
  have ⟨b, inside, digit⟩ := mem_flatMap.1 member
  have small := bytes b inside
  rcases mem_cons.1 digit with high | low
  · exact high ▸ digit_of_hexdigit (by omega)
  · exact (mem_singleton.1 low) ▸ digit_of_hexdigit (by omega)

theorem hexbytes_hexes (bytes : ∀ b ∈ h, b < 256) : hexbytes h.length (hexes h) = some h := by
  induction h with
  | nil => rfl
  | cons b h ih =>
    have small := bytes b mem_cons_self
    have rest := ih (forall_mem_cons.1 bytes).2
    have value : 16 * (b / 16) + b % 16 = b := by omega
    show hexbytes (h.length + 1) (hexdigit (b / 16) :: hexdigit (b % 16) :: hexes h) = _
    simp only [hexbytes, hexval_hexdigit (b / 16) (by omega), hexval_hexdigit (b % 16) (by omega),
      rest, Option.map_some, value]

theorem parsehash_hex (twenty : h.length = 20) (bytes : ∀ b ∈ h, b < 256) :
    parsehash (hex h) = .ok h := by
  have read := hexbytes_hexes bytes
  rw [twenty] at read
  have long : ¬ (hexes h).length < 40 := by rw [hexes_length, twenty]; decide
  rw [hex_eq twenty, parsehash, if_neg long, read]

theorem splitfirst_append (missing : sep ∉ front) (behind : Str) :
    splitfirst sep (front ++ sep :: behind) = (front, behind) := by
  induction front with
  | nil => exact if_pos rfl
  | cons c _ ih =>
    have other : c ≠ sep := fun same => missing (same ▸ mem_cons_self)
    have rest := ih fun member => missing (mem_cons_of_mem _ member)
    rw [cons_append, splitfirst, if_neg other, rest]

theorem splitfirst_missing (missing : sep ∉ s) : splitfirst sep s = (s, []) := by
  induction s with
  | nil => rfl
  | cons c _ ih =>
    have other : c ≠ sep := fun same => missing (same ▸ mem_cons_self)
    have rest := ih fun member => missing (mem_cons_of_mem _ member)
    rw [splitfirst, if_neg other, rest]

theorem noSpace_octal6 (m : Nat) : 32 ∉ octal6 m :=
  fun member => absurd (digit_of_octal6 member).1 (by decide)

theorem noSpace_hex (twenty : h.length = 20) (bytes : ∀ b ∈ h, b < 256) : 32 ∉ hex h := by
  rw [hex_eq twenty]
  exact fun member => absurd (digit_of_hexes bytes member).1 (by decide)

variable {d : IndexEntry}

theorem parseline_path_nil {line : Str} (missing : 32 ∉ (splitfirst 32 line).2)
    (parsed : parseline line = some d) : d.path = [] := by
  unfold parseline at parsed
  simp only [splitfirst_missing missing] at parsed
  split at parsed
  · exact absurd parsed (by simp)
  · rw [← Option.some.inj parsed]

section Entry

variable {e : IndexEntry} (wellformed : e.Wellformed)

include wellformed

/-- A line is read back with the path it has. -/
theorem parseline_fields (path : Str) :
    parseline (e.fields ++ path) = some { e with path := path } := by
  have shape : e.fields ++ path = octal6 e.mode.toNat ++ 32 :: (hex e.hash ++ 32 :: path) := by
    simp only [IndexEntry.fields, append_assoc, cons_append, nil_append]
  rw [shape, parseline, splitfirst_append (noSpace_octal6 _)]
  simp only
  rw [splitfirst_append (noSpace_hex wellformed.length wellformed.bytes)]
  simp only
  rw [parsehash_hex wellformed.length wellformed.bytes,
    parseoctal_octal6 wellformed.mode.1 wellformed.mode.2]

/-- A line that is cut off before the path has none. -/
theorem parseline_cut (isPrefix : cut <+: e.fields) (short : cut ≠ e.fields)
    (parsed : parseline cut = some d) : d.path = [] := by
  apply parseline_path_nil _ parsed
  have noSpace := noSpace_octal6 e.mode.toNat
  have shape : e.fields = (octal6 e.mode.toNat ++ 32 :: hex e.hash) ++ [32] := by
    simp only [IndexEntry.fields, append_assoc, cons_append]
  rw [shape] at isPrefix short
  have inside := (prefix_concat_iff.1 isPrefix).resolve_left short
  rcases prefix_or_prefix_of_prefix inside (prefix_append _ _) with mode | ⟨rest, rfl⟩
  · rw [splitfirst_missing fun member => noSpace (mode.subset member)]
    exact not_mem_nil
  have behind := (prefix_append_right_inj _).1 inside
  cases rest with
  | nil =>
    rw [append_nil, splitfirst_missing noSpace]
    exact not_mem_nil
  | cons _ _ =>
    have ⟨same, digits⟩ := cons_prefix_cons.1 behind
    rw [same, splitfirst_append noSpace]
    exact fun member => noSpace_hex wellformed.length wellformed.bytes (digits.subset member)

theorem plain_of_fields (member : c ∈ e.fields) : 32 ≤ c ∧ c < 128 := by
  have plain : ∀ {d}, Digit d → 32 ≤ d ∧ d < 128 :=
    fun digit => ⟨Nat.le_trans (by decide) digit.1, digit.2⟩
  have space : ∀ {d}, d = 32 → 32 ≤ d ∧ d < 128 := by
    intro _ _
    omega
  unfold IndexEntry.fields at member
  rw [hex_eq wellformed.length] at member
  rcases mem_append.1 member with digit | member
  · exact plain (digit_of_octal6 digit)
  rcases mem_cons.1 member with first | member
  · exact space first
  · rcases mem_append.1 member with digit | second
    · exact plain (digit_of_hexes wellformed.bytes digit)
    · exact space (mem_singleton.1 second)

end Entry

/-! ### The lines of a text -/

/-- The ends of a line that `splitline` finds. -/
theorem splitline_cases (s : Str) : 10 ∉ (splitline s).1 ∧
    ((s = (splitline s).1 ∧ (splitline s).2 = []) ∨
      (s = (splitline s).1 ++ 10 :: (splitline s).2 ∧ (splitline s).1.getLast? ≠ some 13) ∨
      s = (splitline s).1 ++ 13 :: 10 :: (splitline s).2) := by
  fun_induction splitline s with
  | case1 => exact ⟨not_mem_nil, .inl ⟨rfl, rfl⟩⟩
  | case2 _ => exact ⟨not_mem_nil, .inr (.inl ⟨rfl, nofun⟩)⟩
  | case3 _ => exact ⟨not_mem_nil, .inr (.inr rfl)⟩
  | case4 c s notLine notReturn ih =>
    have ⟨clean, ends⟩ := ih
    have cleanHere : 10 ∉ c :: (splitline s).1 := by
      intro member
      rcases mem_cons.1 member with same | later
      · exact notLine same.symm
      · exact clean later
    refine ⟨cleanHere, ?_⟩
    rcases ends with ⟨whole, last⟩ | ⟨shape, unended⟩ | shape
    · exact .inl ⟨congrArg (c :: ·) whole, last⟩
    · refine .inr (.inl ⟨congrArg (c :: ·) shape, ?_⟩)
      cases line : (splitline s).1 with
      | nil =>
        rw [line] at shape
        exact fun same => notReturn _ (Option.some.inj same) shape
      | cons _ _ =>
        rw [line] at unended
        rwa [getLast?_cons_cons]
    · exact .inr (.inr (congrArg (c :: ·) shape))

theorem splitline_missing (clean : 10 ∉ s) : splitline s = (s, []) := by
  fun_induction splitline s with
  | case1 => rfl
  | case2 _ => exact absurd mem_cons_self clean
  | case3 _ => exact absurd (mem_cons_of_mem _ mem_cons_self) clean
  | case4 _ _ _ _ ih =>
    rw [ih fun member => clean (mem_cons_of_mem _ member)]

theorem splitline_cons (notLine : c ≠ 10) (notReturn : c = 13 → s.head? ≠ some 10) :
    splitline (c :: s) = (c :: (splitline s).1, (splitline s).2) := by
  rw [splitline]
  · exact notLine
  · intro _ return' starts
    rw [starts] at notReturn
    exact notReturn return' rfl

/-- A name that `splitline` gives back: it has no newline, and no carriage return at its end. -/
def Clean (path : Str) : Prop := 10 ∉ path ∧ path.getLast? ≠ some 13

theorem splitline_append (clean : Clean front) (behind : Str) :
    splitline (front ++ 10 :: behind) = (front, behind) := by
  induction front with
  | nil => rw [nil_append, splitline]
  | cons c front ih =>
    have notLine : c ≠ 10 := fun same => clean.1 (same ▸ mem_cons_self)
    have later : 10 ∉ front := fun member => clean.1 (mem_cons_of_mem _ member)
    cases front with
    | nil =>
      have notReturn : c ≠ 13 := fun same => clean.2 (same ▸ rfl)
      rw [cons_append, splitline_cons notLine fun same => absurd same notReturn,
        nil_append, splitline]
    | cons d front =>
      have unended := clean.2
      rw [getLast?_cons_cons] at unended
      have starts : (d :: front ++ 10 :: behind).head? ≠ some 10 :=
        fun same => later ((Option.some.inj same) ▸ mem_cons_self)
      rw [cons_append, splitline_cons notLine fun _ => starts,
        ih ⟨later, unended⟩]

theorem splitline_fields (plain : ∀ c ∈ front, 32 ≤ c) (behind : Str) :
    splitline (front ++ behind) = (front ++ (splitline behind).1, (splitline behind).2) := by
  induction front with
  | nil => rfl
  | cons c _ ih =>
    have here := plain c mem_cons_self
    have rest := ih (forall_mem_cons.1 plain).2
    rw [cons_append, splitline_cons (by omega) (fun same => by omega), rest]
    rfl

/-- The line that starts a text of which `path` was to be the first line. -/
theorem splitline_eq_iff {behind : Str} (isPrefix : s <+: path ++ 10 :: behind) :
    (splitline s).1 = path ↔ 10 ∉ path ∧
      (s = path ∨ path.getLast? ≠ some 13 ∧ ∃ rest, s = path ++ 10 :: rest) := by
  constructor
  · intro first
    have ⟨clean, ends⟩ := splitline_cases s
    rw [first] at clean ends
    refine ⟨clean, ?_⟩
    rcases ends with ⟨whole, _⟩ | ⟨shape, unended⟩ | shape
    · exact .inl whole
    · exact .inr ⟨unended, _, shape⟩
    · rw [shape] at isPrefix
      have starts := (prefix_append_right_inj _).1 isPrefix
      exact absurd (cons_prefix_cons.1 starts).1 (by decide)
  · rintro ⟨clean, rfl | ⟨unended, rest, rfl⟩⟩
    · rw [splitline_missing clean]
    · rw [splitline_append ⟨clean, unended⟩]

/-! ### What is loaded -/

theorem readlines_nil : readlines [] = [] := by
  rw [readlines, dif_pos (by rfl)]

variable {e : IndexEntry}

/-- A text whose first line starts with the fields of an entry. -/
theorem readlines_fields (wellformed : e.Wellformed) (behind : Str) :
    readlines (e.fields ++ behind) =
      { e with path := (splitline behind).1 } :: readlines (splitline behind).2 := by
  have first := splitline_fields (fun c member => (plain_of_fields wellformed member).1) behind
  have nonempty : ¬ e.fields ++ (splitline behind).1 = [] := by
    intro empty
    rw [IndexEntry.fields] at empty
    simp at empty
  rw [readlines, first, dif_neg nonempty]
  simp only
  rw [parseline_fields wellformed]
  rfl

/-- A text that ends before the path of its first line. -/
theorem readlines_cut (wellformed : e.Wellformed) (isPrefix : cut <+: e.fields)
    (short : cut ≠ e.fields) (entries : List IndexEntry) : readlines cut ≠ e :: entries := by
  have clean : 10 ∉ cut := fun member =>
    absurd (plain_of_fields wellformed (isPrefix.subset member)).1 (by decide)
  rw [readlines, splitline_missing clean]
  simp only [readlines_nil, append_nil]
  intro same
  split at same
  · exact absurd same (by simp)
  cases parsed : parseline cut with
  | none =>
    rw [parsed] at same
    exact absurd same (by simp)
  | some d =>
    rw [parsed] at same
    have first : d = e := (List.cons.inj same).1
    exact wellformed.path (first ▸ parseline_cut wellformed isPrefix short parsed)

def Ended (entries : List IndexEntry) : Prop := ∀ e ∈ entries, Clean e.path

def Unended (entries : List IndexEntry) : Prop :=
  ∃ front last, entries = front ++ [last] ∧ Ended front ∧ 10 ∉ last.path

variable {entries : List IndexEntry}

theorem ended_cons :
    Ended (e :: entries) ↔ Clean e.path ∧ Ended entries := forall_mem_cons

theorem unended_cons : Unended (e :: entries) ↔
    (entries = [] ∧ 10 ∉ e.path) ∨ (Clean e.path ∧ Unended entries) := by
  constructor
  · rintro ⟨front, last, shape, ended, clean⟩
    cases front with
    | nil =>
      have ⟨same, alone⟩ := List.cons.inj shape
      exact .inl ⟨alone, same ▸ clean⟩
    | cons _ front =>
      have ⟨same, rest⟩ := List.cons.inj shape
      have ⟨here, later⟩ := ended_cons.1 ended
      exact .inr ⟨same ▸ here, front, last, rest, later, clean⟩
  · rintro (⟨alone, clean⟩ | ⟨here, front, last, shape, later, clean⟩)
    · exact ⟨[], e, congrArg (e :: ·) alone, nofun, clean⟩
    · exact ⟨e :: front, last, congrArg (e :: ·) shape, ended_cons.2 ⟨here, later⟩, clean⟩

theorem indextext_cons (e : IndexEntry) (entries : List IndexEntry) :
    indextext (e :: entries) = e.fields ++ (e.path ++ 10 :: indextext entries) := by
  simp only [indextext, flatMap_cons, IndexEntry.line, append_assoc, cons_append,
    nil_append]

theorem indextext_ends (nonempty : entries ≠ []) : ∃ front, indextext entries = front ++ [10] := by
  rw [← dropLast_append_getLast nonempty, indextext, flatMap_append,
    flatMap_singleton, IndexEntry.line, ← append_assoc]
  exact ⟨_, rfl⟩

/-- A text of which the front is as it was saved, with the fields of its first line read. -/
theorem readlines_behind (isPrefix : cut <+: e.path ++ 10 :: indextext entries)
    (later : ∀ {cut : Str}, cut <+: indextext entries → (readlines cut = entries ↔
      (cut = indextext entries ∧ Ended entries) ∨
        (cut ++ [10] = indextext entries ∧ Unended entries))) :
    { e with path := (splitline cut).1 } :: readlines (splitline cut).2 = e :: entries ↔
      (cut = e.path ++ 10 :: indextext entries ∧ Ended (e :: entries)) ∨
        (cut ++ [10] = e.path ++ 10 :: indextext entries ∧ Unended (e :: entries)) := by
  have head : { e with path := (splitline cut).1 } = e ↔ (splitline cut).1 = e.path :=
    ⟨fun same => congrArg IndexEntry.path same, fun same => by rw [same]⟩
  rw [List.cons.injEq, head, ended_cons, unended_cons, splitline_eq_iff isPrefix]
  constructor
  · rintro ⟨⟨clean, rfl | ⟨unended, rest, rfl⟩⟩, loaded⟩
    · rw [splitline_missing clean, readlines_nil] at loaded
      rw [← loaded]
      exact .inr ⟨rfl, .inl ⟨rfl, clean⟩⟩
    rw [splitline_append ⟨clean, unended⟩] at loaded
    have behind := (cons_prefix_cons.1 ((prefix_append_right_inj _).1 isPrefix)).2
    rcases (later behind).1 loaded with ⟨same, ended⟩ | ⟨same, last⟩
    · exact .inl ⟨by rw [same], ⟨clean, unended⟩, ended⟩
    · refine .inr ⟨?_, .inr ⟨⟨clean, unended⟩, last⟩⟩
      rw [append_assoc, cons_append, same]
  · rintro (⟨same, here, ended⟩ | ⟨same, ⟨alone, clean⟩ | ⟨here, last⟩⟩)
    · refine ⟨⟨here.1, .inr ⟨here.2, _, same⟩⟩, ?_⟩
      rw [same, splitline_append here]
      exact (later prefix_rfl).2 (.inl ⟨rfl, ended⟩)
    · rw [alone] at same ⊢
      have whole : cut = e.path := append_cancel_right same
      rw [whole, splitline_missing clean]
      exact ⟨⟨clean, .inl rfl⟩, readlines_nil⟩
    have nonempty : entries ≠ [] := by
      have ⟨front, _, shape, _⟩ := last
      rw [shape]
      exact concat_ne_nil _ _
    have ⟨front, ends⟩ := indextext_ends nonempty
    rw [ends, ← cons_append, ← append_assoc] at same
    have shape : cut = e.path ++ 10 :: front := append_cancel_right same
    refine ⟨⟨here.1, .inr ⟨here.2, _, shape⟩⟩, ?_⟩
    rw [shape, splitline_append here]
    exact (later ⟨[10], ends.symm⟩).2 (.inr ⟨ends.symm, last⟩)

/-- What is loaded from the front of a text that was saved. -/
theorem readlines_eq_iff (wellformed : ∀ e ∈ entries, e.Wellformed) :
    ∀ {cut : Str}, cut <+: indextext entries → (readlines cut = entries ↔
      (cut = indextext entries ∧ Ended entries) ∨
        (cut ++ [10] = indextext entries ∧ Unended entries)) := by
  induction entries with
  | nil =>
    intro cut isPrefix
    have empty : cut = [] := prefix_nil.1 isPrefix
    rw [empty, readlines_nil]
    exact ⟨fun _ => .inl ⟨rfl, nofun⟩, fun _ => rfl⟩
  | cons e entries ih =>
    intro cut isPrefix
    have here := wellformed e mem_cons_self
    have later := @ih (forall_mem_cons.1 wellformed).2
    rw [indextext_cons] at isPrefix ⊢
    by_cases whole : e.fields <+: cut
    · have ⟨_, same⟩ := whole
      rw [← same] at isPrefix ⊢
      have isPrefix := (prefix_append_right_inj _).1 isPrefix
      rw [readlines_fields here, append_assoc, append_cancel_left_eq,
        append_cancel_left_eq]
      exact readlines_behind isPrefix later
    have short : cut <+: e.fields :=
      (List.prefix_or_prefix_of_prefix isPrefix (prefix_append _ _)).resolve_right whole
    have fewer := short.length_le
    have other : cut ≠ e.fields := fun same => whole (same ▸ prefix_rfl)
    have never := readlines_cut here short other entries
    have positive : 0 < e.path.length := length_pos_iff.2 here.path
    constructor
    · exact fun same => absurd same never
    rintro (⟨same, _⟩ | ⟨same, _⟩)
    · have lengths := congrArg List.length same
      simp only [length_append, length_cons] at lengths
      omega
    · have lengths := congrArg List.length same
      simp only [length_append, length_cons, length_nil] at lengths
      omega

/-! ### The bytes of the file -/

theorem runes_indextext (wellformed : ∀ e ∈ entries, e.Wellformed) : Runes (indextext entries) := by
  intro c member
  have ⟨e, inside, written⟩ := mem_flatMap.1 member
  rcases mem_append.1 written with front | newline
  · rcases mem_append.1 front with field | name
    · have plain := plain_of_fields (wellformed e inside) field
      omega
    · exact (wellformed e inside).runes c name
  · rw [mem_singleton.1 newline]
    decide

/-- The bytes of a character that are cut off are dropped. -/
theorem c2string_runetochar_cut {n : Nat} (cut : n < (runetochar c).length) :
    c2string ((runetochar c).take n) = [] := by
  unfold runetochar at cut ⊢
  split_ifs at cut ⊢
  · rw [Nat.lt_one_iff.1 cut]
    rfl
  · obtain _ | _ | n := n
    · rfl
    · rw [take_succ_cons, take_zero, c2string, if_neg (by omega)]
    · simp at cut
  obtain _ | _ | _ | n := n
  · rfl
  · rw [take_succ_cons, take_zero, c2string, if_neg (by omega)]
  · rw [take_succ_cons, take_succ_cons, take_zero, c2string, if_neg (by omega),
      if_pos (by omega)]
  · exact absurd cut (by simp)

theorem c2string_front : ∀ {text : Str}, Runes text → ∀ n : Nat, ∃ front back,
    text = front ++ back ∧ c2string ((cvtca text).take n) = front ∧
      (cvtca front).length ≤ n ∧
      ∀ c rest, back = c :: rest → n < (cvtca front).length + (runetochar c).length
  | [], _, n => by
    refine ⟨[], [], rfl, ?_, Nat.zero_le n, nofun⟩
    rw [cvtca, flatMap_nil, take_nil]
    rfl
  | c :: text, runes, n => by
    rw [cvtca_cons]
    by_cases whole : (runetochar c).length ≤ n
    · have later : Runes text := (forall_mem_cons.1 runes).2
      obtain ⟨front, back, shape, decoded, _, next⟩ :=
        c2string_front later (n - (runetochar c).length)
      refine ⟨c :: front, back, congrArg (c :: ·) shape, ?_, ?_, ?_⟩
      · rw [take_append, take_of_length_le whole,
          c2string_runetochar_append (runes c mem_cons_self), decoded]
      · rw [cvtca_cons, length_append]
        omega
      intro d rest same
      have beyond := next d rest same
      rw [cvtca_cons, length_append]
      omega
    · have cut := Nat.lt_of_not_le whole
      refine ⟨[], c :: text, rfl, ?_, Nat.zero_le n, ?_⟩
      · rw [take_append_of_le_length (Nat.le_of_lt cut)]
        exact c2string_runetochar_cut cut
      · intro _ _ same
        rw [← (List.cons.inj same).1]
        exact Nat.lt_of_lt_of_le cut (Nat.le_add_left ..)

/-- What is decoded of a text, all of it or all but its last newline, says how many bytes of it
were there. -/
theorem c2string_take_iff {text : Str} (runes : Runes text) (n : Nat) :
    c2string ((cvtca text).take n) <+: text ∧
      (c2string ((cvtca text).take n) = text ↔ (cvtca text).length ≤ n) ∧
      ((∃ front, text = front ++ [10]) → (c2string ((cvtca text).take n) ++ [10] = text ↔
        (cvtca text).length = n + 1)) := by
  have ⟨front, back, shape, decoded, fits, next⟩ := c2string_front runes n
  have newline : (runetochar 10).length = 1 := rfl
  have lengths : (cvtca text).length = (cvtca front).length + (cvtca back).length := by
    rw [shape, cvtca_append, length_append]
  rw [decoded]
  refine ⟨⟨back, shape.symm⟩, ?_, ?_⟩
  · constructor
    · intro same
      rw [← same]
      exact fits
    intro long
    cases back with
    | nil => rw [shape, append_nil]
    | cons c rest =>
      have beyond := next c rest rfl
      rw [cvtca_cons, length_append] at lengths
      omega
  · intro ends
    constructor
    · intro same
      rw [shape] at same
      have last : [10] = back := append_cancel_left same
      have beyond := next 10 [] last.symm
      rw [← last, cvtca_cons, length_append] at lengths
      have empty : (cvtca []).length = 0 := rfl
      omega
    intro _
    cases back with
    | nil =>
      have empty : (cvtca []).length = 0 := rfl
      omega
    | cons c rest =>
      have beyond := next c rest rfl
      rw [cvtca_cons, length_append] at lengths
      cases rest with
      | nil =>
        have ⟨_, same⟩ := ends
        rw [shape] at same
        have last := (append_inj' same rfl).2
        rw [shape, last]
      | cons d _ =>
        have more := runetochar_pos d
        rw [cvtca_cons, length_append] at lengths
        omega

/-! ### The round trip -/

/-- What one `read` returns holds all lines, or all but the newline of the last, and every path is
one that `splitline` gives back. -/
def Returns (iounit : Nat) (entries : List IndexEntry) : Prop :=
  ((cvtca (indextext entries)).length ≤ min 65536 iounit ∧ Ended entries) ∨
    ((cvtca (indextext entries)).length = min 65536 iounit + 1 ∧ Unended entries)

theorem saveindex_saved {kernel : Saved} {file : Option Bytes}
    (saved : (saveindex kernel file entries).2 = none) :
    (saveindex kernel file entries).1 = some (cvtca (indextext entries)) := by
  unfold saveindex at saved ⊢
  cases created : kernel.create with
  | some _ =>
    rw [created] at saved
    exact absurd saved (by simp)
  | none =>
    rw [created] at saved
    simp only at saved ⊢
    split_ifs at saved ⊢ with short
    rfl

theorem loadindex_returns {iounit : Nat} (positive : 0 < iounit)
    (wellformed : ∀ e ∈ entries, e.Wellformed) :
    loadindex iounit (some (cvtca (indextext entries))) = (entries, none) ↔
      Returns iounit entries := by
  have runes := runes_indextext wellformed
  obtain ⟨isPrefix, all, but⟩ := c2string_take_iff runes (min 65536 iounit)
  have loaded : loadindex iounit (some (cvtca (indextext entries))) =
      (readlines (c2string ((cvtca (indextext entries)).take (min 65536 iounit))), none) := by
    unfold loadindex sysread
    simp only
    split_ifs with empty
    · rw [length_eq_zero_iff] at empty
      rw [empty, c2string, readlines_nil]
    · rfl
  rw [loaded, Prod.mk.injEq, readlines_eq_iff wellformed isPrefix, all]
  unfold Returns
  by_cases nonempty : entries = []
  · rw [nonempty]
    have fits : (cvtca (indextext [])).length ≤ min 65536 iounit := Nat.zero_le _
    have ended : Ended [] := by simp [Ended]
    exact ⟨fun _ => .inl ⟨fits, ended⟩, fun _ => ⟨.inl ⟨fits, ended⟩, rfl⟩⟩
  · rw [but (indextext_ends nonempty)]
    exact ⟨fun both => both.1, fun returns => ⟨returns, rfl⟩⟩

theorem length_indextext (wellformed : ∀ e ∈ entries, e.Wellformed) :
    50 * entries.length ≤ (indextext entries).length := by
  induction entries with
  | nil => exact Nat.le_refl _
  | cons e _ ih =>
    have here := wellformed e mem_cons_self
    have later := ih (forall_mem_cons.1 wellformed).2
    have path : 0 < e.path.length := length_pos_iff.2 here.path
    have digits : (hex e.hash).length = 40 := by
      rw [hex_eq here.length, hexes_length, here.length]
    have fields : 48 ≤ e.fields.length := by
      simp only [IndexEntry.fields, octal6, length_append, length_cons,
        length_nil, length_replicate, digits]
      omega
    rw [indextext_cons, length_append, length_append, length_cons,
      length_cons]
    omega

theorem not_returns_of_many (iounit : Nat) (wellformed : ∀ e ∈ entries, e.Wellformed)
    (many : 1310 < entries.length) : ¬ Returns iounit entries := by
  have lines := length_indextext wellformed
  have bytes := length_le_cvtca (indextext entries)
  unfold Returns
  omega

/-- The entries that were saved are the entries that are loaded, in their order, exactly when the
file is not longer than one read and no path ends a line. -/
theorem index_round_trip (kernel : Saved) (file : Option Bytes) {iounit : Nat}
    (positive : 0 < iounit) {entries : List IndexEntry}
    (wellformed : ∀ e ∈ entries, e.Wellformed)
    (saved : (saveindex kernel file entries).2 = none) :
    loadindex iounit (saveindex kernel file entries).1 = (entries, none) ↔
      Returns iounit entries := by
  rw [saveindex_saved saved]
  exact loadindex_returns positive wellformed

theorem wellformed_file (nonempty : path ≠ []) (runes : Runes path) :
    IndexEntry.Wellformed ⟨33188, List.replicate 20 7, path⟩ where
  mode := (by decide : (0 : Int) ≤ 33188 ∧ (33188 : Int) < 2 ^ 31)
  length := length_replicate
  bytes := (by decide : ∀ b ∈ List.replicate 20 7, b < 256)
  path := nonempty
  runes := runes

theorem index_round_trip_readme :
    loadindex 8192 (saveindex ⟨none, List.length, []⟩ none
        [⟨33188, List.replicate 20 7, str "README"⟩]).1 =
      ([⟨33188, List.replicate 20 7, str "README"⟩], none) ↔
    Returns 8192 [⟨33188, List.replicate 20 7, str "README"⟩] := by
  apply index_round_trip ⟨none, List.length, []⟩ none (by decide)
  · intro _ member
    rw [mem_singleton.1 member]
    exact wellformed_file (by decide) fun c inside =>
      (by decide : ∀ c ∈ str "README", c < 65536) c inside
  · rfl

theorem saveindex_all (entries : List IndexEntry) :
    (saveindex ⟨none, List.length, []⟩ none entries).2 = none := by
  unfold saveindex
  simp only [ne_eq, not_true_eq_false, if_false]

/-- An entry for each of the numbers below `n`. -/
def staged (n : Nat) : List IndexEntry :=
  (List.range n).map fun i => ⟨33188, List.replicate 20 7, octal i⟩

theorem wellformed_staged (n : Nat) : ∀ e ∈ staged n, e.Wellformed := by
  intro _ member
  have ⟨i, _, same⟩ := mem_map.1 member
  have digits : ∀ c ∈ octal i, c < 65536 := by
    intro _ inside
    have digit := (digit_of_octal inside).2
    omega
  have nonempty : octal i ≠ [] := by
    unfold octal
    split_ifs with zero
    · exact cons_ne_nil _ _
    · simp only [ne_eq, reverse_eq_nil_iff, map_eq_nil_iff]
      exact Nat.digits_ne_nil_iff_ne_zero.2 zero
  rw [← same]
  exact wellformed_file nonempty digits

/-- Of two thousand files that are staged, some are not in the index that is loaded. -/
theorem index_loses_entries :
    (∀ e ∈ staged 2000, e.Wellformed) ∧
      (saveindex ⟨none, List.length, []⟩ none (staged 2000)).2 = none ∧
      loadindex 65536 (saveindex ⟨none, List.length, []⟩ none (staged 2000)).1 ≠
        (staged 2000, none) := by
  have wellformed := wellformed_staged 2000
  have saved := saveindex_all (staged 2000)
  have many : 1310 < (staged 2000).length := by
    rw [staged, length_map, length_range]
    decide
  refine ⟨wellformed, saved, ?_⟩
  rw [saveindex_saved saved]
  exact fun loaded => not_returns_of_many 65536 wellformed many
    ((loadindex_returns (by decide) wellformed).1 loaded)

end Infernode.Git
