import Infernode.Audit.Auditfs
import Infernode.Chain.Hash

/-!
Replaying a backing file of the audit log.

Owns: the line of a record, the lines that parse back to their record, the chain
over records as an instance of the hash chain, and the inversion of `replay`:
the lines it accepts, and what stops it.

Does not own: which records the server seals, or what a step does to the file.
-/

namespace Infernode.Auditfs

open Text Lib9 Auditchain List

/-! ### Words and lines -/

private theorem foldl_join {acc : Str} (nonempty : acc ≠ []) (toks : List Str) :
    toks.foldl (fun s tok => if s != [] then s ++ [32] ++ tok else s ++ tok) acc =
      acc ++ toks.flatMap (32 :: ·) := by
  induction toks generalizing acc with
  | nil => simp
  | cons tok _ ih =>
    have longer : acc ++ [32] ++ tok ≠ [] := by simp
    rw [foldl_cons, if_pos (by simpa using nonempty), ih longer]
    simp

private theorem intercalate_cons (tok : Str) (rest : List Str) :
    [32].intercalate (tok :: rest) = tok ++ rest.flatMap (32 :: ·) := by
  induction rest generalizing tok with
  | nil => simp [List.intercalate]
  | cons next others ih =>
    have unfolded : [32].intercalate (tok :: next :: others) =
        tok ++ 32 :: [32].intercalate (next :: others) := by simp [List.intercalate]
    rw [unfolded, ih]
    simp

/-- `join` puts one blank between words. -/
theorem join_eq_intercalate {toks : List Str} (words : ∀ tok ∈ toks, tok ≠ []) :
    join toks = [32].intercalate toks := by
  cases toks with
  | nil => rfl
  | cons tok rest =>
    have nonempty := words tok (by simp)
    have first : join (tok :: rest) =
        rest.foldl (fun s tok => if s != [] then s ++ [32] ++ tok else s ++ tok) tok := by
      simp [join]
    rw [first, foldl_join nonempty, intercalate_cons]

theorem mem_join {toks : List Str} {c : Nat} (member : c ∈ join toks) :
    c = 32 ∨ ∃ tok ∈ toks, c ∈ tok := by
  have general : ∀ acc : Str,
      c ∈ toks.foldl (fun s tok => if s != [] then s ++ [32] ++ tok else s ++ tok) acc →
        c ∈ acc ∨ c = 32 ∨ ∃ tok ∈ toks, c ∈ tok := by
    clear member
    induction toks with
    | nil => exact fun _ inAcc => Or.inl inAcc
    | cons _ _ ih =>
      intro _ inFold
      rw [foldl_cons] at inFold
      rcases ih _ inFold with inStep | blank | ⟨other, inRest, inOther⟩
      · split_ifs at inStep <;> simp only [mem_append, mem_singleton] at inStep <;>
          simp only [mem_cons, exists_eq_or_imp] <;> tauto
      · exact Or.inr (Or.inl blank)
      · exact Or.inr (Or.inr ⟨other, mem_cons_of_mem _ inRest, inOther⟩)
  rcases general [] member with inNil | found
  · exact absurd inNil (not_mem_nil)
  · exact found

theorem join_words (text : Str) : join (words text) = [32].intercalate (words text) :=
  join_eq_intercalate fun _ member => (mem_tokens member).1

theorem join_words_eq_iff {text : Str} : join (words text) = text ↔ WellSpaced 32 text := by
  rw [join_words]
  exact intercalate_tokens_eq_iff

theorem words_word_append {word rest : Str} (nonempty : word ≠ []) (clean : 32 ∉ word) :
    words (word ++ 32 :: rest) = word :: words rest := by
  unfold words
  rw [tokens_append_delim (by rfl), tokens_eq_singleton nonempty]
  · rfl
  · intro c member
    have other : c ≠ 32 := fun same => clean (same ▸ member)
    simpa using other

/-! ### The line of a record -/

def Record.line (r : Record) : Str :=
  decimal r.seq ++ 32 :: (decimal r.time ++ 32 :: (r.source ++ 32 :: (r.event ++
    32 :: (r.hash ++ 32 :: r.msg))))

def Record.canon (r : Record) : Str :=
  Auditchain.canon r.seq r.time r.source r.event r.msg

def Record.bytes (r : Record) : List Nat := cvtca r.canon

/-- The record is what its own line parses to, and its line is one line of runes. -/
structure Record.Stored (r : Record) : Prop where
  parses : parserec r.line = some r
  oneLine : 10 ∉ r.line
  runes : Runes r.line

variable {r : Record} {line : Str} {records : List Record} {prev : List Nat} {last : Int}
    {rest : List Str}

theorem parserec_line (seqInWord : InWord r.seq) (timeInWord : InWord r.time)
    (source : r.source ≠ [] ∧ 32 ∉ r.source) (event : r.event ≠ [] ∧ 32 ∉ r.event)
    (hash : r.hash ≠ [] ∧ 32 ∉ r.hash) (spaced : WellSpaced 32 r.msg) :
    parserec r.line = some r := by
  have split : words r.line =
      decimal r.seq :: decimal r.time :: r.source :: r.event :: r.hash :: words r.msg := by
    unfold Record.line
    rw [words_word_append (decimal_ne_nil _) (blank_notMem_decimal _),
      words_word_append (decimal_ne_nil _) (blank_notMem_decimal _),
      words_word_append source.1 source.2, words_word_append event.1 event.2,
      words_word_append hash.1 hash.2]
  unfold parserec
  rw [split]
  simp only
  rw [strtoint_decimal seqInWord, strtoint_decimal timeInWord, join_words_eq_iff.2 spaced]

theorem parserec_eq_some_iff :
    parserec line = some r ↔
      ∃ seqf tf rest, words line = seqf :: tf :: r.source :: r.event :: r.hash :: rest ∧
        strtoint seqf = r.seq ∧ strtoint tf = r.time ∧ join rest = r.msg := by
  unfold parserec
  split
  · rename_i seqf tf source event hashf rest split
    constructor
    · intro parsed
      cases parsed
      exact ⟨seqf, tf, rest, split, rfl, rfl, rfl⟩
    rintro ⟨seqf', tf', rest', split', seqEq, timeEq, msgEq⟩
    rw [split] at split'
    simp only [List.cons.injEq] at split'
    obtain ⟨rfl, rfl, rfl, rfl, rfl, rfl⟩ := split'
    rw [seqEq, timeEq, msgEq]
  · rename_i short
    constructor
    · intro parsed
      cases parsed
    · rintro ⟨seqf, tf, rest, split, _⟩
      exact absurd split (short _ _ _ _ _ _)

/-! ### The stored text -/

def storedText (records : List Record) : Str := records.flatMap fun r => r.line ++ [10]

theorem storedText_append (front back : List Record) :
    storedText (front ++ back) = storedText front ++ storedText back := by
  simp [storedText]

theorem line_ne_nil (r : Record) : r.line ≠ [] := by
  have nonempty := decimal_ne_nil r.seq
  unfold Record.line
  simp [nonempty]

theorem lines_storedText (oneLine : ∀ r ∈ records, 10 ∉ r.line) :
    lines (storedText records) = records.map Record.line := by
  have reshaped : storedText records = (records.map Record.line).flatMap (· ++ [10]) := by
    simp [storedText, flatMap_map]
  unfold lines
  rw [reshaped, tokens_flatMap_concat (by rfl)]
  clear reshaped
  induction records with
  | nil => rfl
  | cons r _ ih =>
    rw [map_cons, flatMap_cons,
      ih (forall_mem_cons.1 oneLine).2,
      tokens_eq_singleton (line_ne_nil r)]
    · rfl
    · intro c member
      have other : c ≠ 10 := fun same => oneLine r (by simp) (same ▸ member)
      simpa using other

theorem runes_storedText (runes : ∀ r ∈ records, Runes r.line) : Runes (storedText records) := by
  intro c member
  have ⟨r, recordMember, inLine⟩ := mem_flatMap.1 member
  rcases mem_append.1 inLine with inLine | newline
  · exact runes r recordMember c inLine
  · rw [mem_singleton.1 newline]
    decide

section Chain

variable (sha : Sha256)

def tipFrom (prev : List Nat) (records : List Record) : List Nat :=
  HashChain.tipFrom sha.digest (· ++ ·) prev (records.map Record.bytes)

def tip (records : List Record) : List Nat := tipFrom sha (genesis sha) records

def ChainedFrom (prev : List Nat) : List Record → Prop
  | [] => True
  | r :: rest =>
    hex (extend sha prev r.bytes) = r.hash ∧
      ChainedFrom (extend sha prev r.bytes) rest

def Chained (records : List Record) : Prop := ChainedFrom sha (genesis sha) records

def lastSeqFrom (last : Int) (records : List Record) : Int :=
  records.foldl (fun _ r => r.seq) last

def lastSeq (records : List Record) : Int := lastSeqFrom 0 records

/-- Why `replay` stops at a line, and the number it reports. -/
def breaksAt (prev : List Nat) (last : Int) (line : Str) (seq : Int) : Prop :=
  (parserec line = none ∧ seq = wrap (last + 1)) ∨
    ∃ r, parserec line = some r ∧ hex (extend sha prev r.bytes) ≠ r.hash ∧ seq = r.seq

end Chain

variable {sha : Sha256}

theorem tipFrom_append (prev : List Nat) (front back : List Record) :
    tipFrom sha prev (front ++ back) = tipFrom sha (tipFrom sha prev front) back := by
  unfold tipFrom
  rw [map_append, HashChain.tipFrom_append]

theorem tip_concat (front : List Record) (last : Record) :
    tip sha (front ++ [last]) = extend sha (tip sha front) last.bytes :=
  tipFrom_append _ front [last]

theorem chainedFrom_append {front back : List Record} :
    ChainedFrom sha prev (front ++ back) ↔
      ChainedFrom sha prev front ∧
        ChainedFrom sha (tipFrom sha prev front) back := by
  induction front generalizing prev with
  | nil => simp [ChainedFrom, tipFrom]
  | cons _ _ ih =>
    simp only [cons_append, ChainedFrom]
    rw [ih, and_assoc]
    rfl

theorem chained_concat {front : List Record} {last : Record} :
    Chained sha (front ++ [last]) ↔
      Chained sha front ∧ hex (extend sha (tip sha front) last.bytes) = last.hash := by
  unfold Chained
  rw [chainedFrom_append]
  simp only [ChainedFrom, and_true]
  rfl

theorem lastSeq_concat (front : List Record) (last : Record) :
    lastSeq (front ++ [last]) = last.seq := by
  unfold lastSeq lastSeqFrom
  rw [foldl_append]
  rfl

/-! ### Replay -/

theorem replayLines_cons_accept (parsed : parserec line = some r)
    (sealed : hex (extend sha prev r.bytes) = r.hash) :
    replayLines sha prev last (line :: rest) =
      replayLines sha (extend sha prev r.bytes) r.seq rest := by
  have nonempty : line ≠ [] := by
    rintro rfl
    simp [parserec, words] at parsed
  simp only [replayLines, parsed]
  unfold Record.bytes Record.canon at sealed
  rw [if_neg (by simpa using nonempty), if_neg (by simpa using sealed)]
  rfl

theorem replayLines_cons_break {seq : Int} (nonempty : line ≠ [])
    (breaks : breaksAt sha prev last line seq) :
    replayLines sha prev last (line :: rest) = (prev, last, seq) := by
  rcases breaks with ⟨unparsed, rfl⟩ | ⟨r, parsed, unsealed, rfl⟩
  · simp only [replayLines, unparsed]
    rw [if_neg (by simpa using nonempty)]
  · simp only [replayLines, parsed]
    unfold Record.bytes Record.canon at unsealed
    rw [if_neg (by simpa using nonempty), if_pos (by simpa using unsealed)]

theorem replayLines_append {accepted : List Str}
    (parsed : List.Forall₂ (fun line r => parserec line = some r) accepted records)
    (chained : ChainedFrom sha prev records) :
    replayLines sha prev last (accepted ++ rest) =
      replayLines sha (tipFrom sha prev records)
        (lastSeqFrom last records) rest := by
  induction parsed generalizing prev last with
  | nil => rfl
  | cons first _ ih =>
    rw [cons_append, replayLines_cons_accept first chained.1,
      ih chained.2]
    rfl

variable (sha) in
theorem exists_accepted (prev : List Nat) (last : Int) (texts : List Str)
    (nonempty : ∀ line ∈ texts, line ≠ []) :
    ∃ accepted rest records, texts = accepted ++ rest ∧
      List.Forall₂ (fun line r => parserec line = some r) accepted records ∧
      ChainedFrom sha prev records ∧
      (rest = [] ∨ ∃ line others seq, rest = line :: others ∧
        breaksAt sha (tipFrom sha prev records)
          (lastSeqFrom last records) line seq) := by
  induction texts generalizing prev last with
  | nil => exact ⟨[], [], [], rfl, List.Forall₂.nil, trivial, Or.inl rfl⟩
  | cons line others ih =>
    have later := fun other member => nonempty other (mem_cons_of_mem line member)
    cases parsed : parserec line with
    | none =>
      exact ⟨[], line :: others, [], rfl, List.Forall₂.nil, trivial,
        Or.inr ⟨line, others, _, rfl, Or.inl ⟨parsed, rfl⟩⟩⟩
    | some r =>
      by_cases sealed : hex (extend sha prev r.bytes) = r.hash
      · have ⟨accepted, rest, records, split, parses, chained, stop⟩ :=
          ih (extend sha prev r.bytes) r.seq later
        exact ⟨line :: accepted, rest, r :: records, by rw [split]; rfl,
          List.Forall₂.cons parsed parses, ⟨sealed, chained⟩, stop⟩
      · exact ⟨[], line :: others, [], rfl, List.Forall₂.nil, trivial,
          Or.inr ⟨line, others, _, rfl, Or.inr ⟨r, parsed, sealed, rfl⟩⟩⟩

theorem lines_nonempty {data : Str} (member : line ∈ lines data) : line ≠ [] :=
  (mem_tokens member).1

/-- What replay returns: the end of the accepted records, and `-1` at the end of the
file or the number of the line that stopped it. -/
theorem replay_cases (sha : Sha256) (data : Str) :
    ∃ front back accepted, lines data = front ++ back ∧
      List.Forall₂ (fun line r => parserec line = some r) front accepted ∧
      Chained sha accepted ∧ (replay sha data).1 = tip sha accepted ∧
      (replay sha data).2.1 = lastSeq accepted ∧
      ((back = [] ∧ (replay sha data).2.2 = -1) ∨
        ∃ line others, back = line :: others ∧
          breaksAt sha (tip sha accepted) (lastSeq accepted) line (replay sha data).2.2) := by
  have ⟨front, back, accepted, split, parsed, chained, stop⟩ :=
    exists_accepted sha (genesis sha) 0 (lines data) fun line member => lines_nonempty member
  refine ⟨front, back, accepted, split, parsed, chained, ?_⟩
  have replayed : replay sha data =
      replayLines sha (tip sha accepted) (lastSeq accepted) back := by
    unfold replay
    rw [split, replayLines_append parsed chained]
    rfl
  rcases stop with rfl | ⟨line, others, seq, rfl, breaks⟩
  · rw [replayed]
    exact ⟨rfl, rfl, Or.inl ⟨rfl, rfl⟩⟩
  have member : line ∈ lines data := by
    rw [split]
    simp
  have nonempty := lines_nonempty member
  have stopped : replayLines sha (tip sha accepted) (lastSeq accepted) (line :: others) =
      (tip sha accepted, lastSeq accepted, seq) := replayLines_cons_break nonempty breaks
  rw [replayed, stopped]
  exact ⟨rfl, rfl, Or.inr ⟨line, others, rfl, breaks⟩⟩

theorem replay_storedText (stored : ∀ r ∈ records, r.Stored) (chained : Chained sha records) :
    replay sha (storedText records) = (tip sha records, lastSeq records, -1) := by
  have parsed : List.Forall₂ (fun line r => parserec line = some r)
      (records.map Record.line) records := by
    clear chained
    induction records with
    | nil => exact List.Forall₂.nil
    | cons r _ ih =>
      exact List.Forall₂.cons (stored r (by simp)).parses
        (ih (forall_mem_cons.1 stored).2)
  unfold replay
  rw [lines_storedText fun r member => (stored r member).oneLine,
    ← append_nil (records.map Record.line), replayLines_append parsed chained]
  rfl

end Infernode.Auditfs
