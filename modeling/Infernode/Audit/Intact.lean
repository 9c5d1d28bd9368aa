import Infernode.Audit.Replay

/-!
The audit log replays over whole runs of its server.

Owns: the record an append seals, the ledger invariant of a server, the
condition on a step under which the invariant is kept, and the run theorem.
-/

namespace Infernode.Auditfs

open Text Lib9 Auditchain List

/-! ### Cleaned fields -/

/-- The fields whose cleaned forms survive splitting the stored line at blanks. -/
structure Storable (source event msg : Str) : Prop where
  source : cstr (clean1 source) ≠ []
  event : cstr (clean1 event) ≠ []
  msg : WellSpaced 32 (cstr (cleannl msg))

variable {c : Nat} {io : Append} {source event msg : Str} {s : Server} {records : List Record}

theorem mem_clean1 {s : Str} (member : c ∈ clean1 s) :
    c = 45 ∨ c = 95 ∨ (c ∈ s ∧ c ≠ 32 ∧ c ≠ 10) := by
  simp only [clean1] at member
  split_ifs at member
  · exact Or.inl (mem_singleton.1 member)
  obtain ⟨_, inside, rfl⟩ := mem_map.1 member
  split_ifs with blank
  · exact Or.inr (Or.inl rfl)
  · simp only [Bool.or_eq_true, beq_iff_eq, not_or] at blank
    exact Or.inr (Or.inr ⟨inside, blank.1.1, blank.2⟩)

theorem mem_cleannl {s : Str} (member : c ∈ cleannl s) : c = 32 ∨ (c ∈ s ∧ c ≠ 10) := by
  obtain ⟨_, inside, rfl⟩ := mem_map.1 member
  split_ifs with newline
  · exact Or.inl rfl
  · simp only [Bool.or_eq_true, beq_iff_eq, not_or] at newline
    exact Or.inr ⟨inside, newline.1⟩

/-- A text without line breaks is left as it is. -/
theorem cleannl_of_clean {s : Str} (clean : ∀ c ∈ s, c ≠ 10 ∧ c ≠ 13) : cleannl s = s := by
  have same : ∀ c ∈ s, (if c == 10 || c == 13 then 32 else c) = id c := by
    intro c member
    have ⟨notNewline, notReturn⟩ := clean c member
    simp [notNewline, notReturn]
  exact (map_congr_left same).trans (map_id s)

theorem clean1_word (s : Str) : 32 ∉ clean1 s ∧ 10 ∉ clean1 s := by
  constructor <;> intro member <;> rcases mem_clean1 member with same | same | ⟨_, other⟩ <;> omega

theorem newline_notMem_cleannl (s : Str) : 10 ∉ cleannl s := by
  intro member
  rcases mem_cleannl member with same | ⟨_, other⟩ <;> omega

theorem runes_clean1 {s : Str} (runes : Runes s) : Runes (clean1 s) := by
  intro c member
  rcases mem_clean1 member with rfl | rfl | ⟨inside, _⟩
  · decide
  · decide
  · exact runes c inside

theorem runes_cleannl {s : Str} (runes : Runes s) : Runes (cleannl s) := by
  intro c member
  rcases mem_cleannl member with rfl | ⟨inside, _⟩
  · decide
  · exact runes c inside

theorem runes_decimal (n : Int) : Runes (decimal n) := fun _ member =>
  lt_trans (decimal_bounds member).2 (by decide)

theorem runes_hex (hash : List Nat) : Runes (hex hash) := fun _ member =>
  lt_trans (mem_hex member).2 (by decide)

theorem runes_cstr {s : Str} (runes : Runes s) : Runes (cstr s) := runes.sublist (cstr_sublist s)

theorem runes_words {s : Str} (runes : Runes s) {word : Str} (member : word ∈ words s) :
    Runes word :=
  runes.sublist (tokens_sublist member)

/-! ### Sealing one record -/

section Sealing

variable (sha : Sha256)

def sealedRecord (io : Append) (source event msg : Str) (s : Server) : Record where
  seq := wrap (s.seq + 1)
  time := io.now
  source := cstr (clean1 source)
  event := cstr (clean1 event)
  hash := hex (extend sha s.tiphash
    (cvtca (canon (wrap (s.seq + 1)) io.now (clean1 source) (clean1 event) (cleannl msg))))
  msg := cstr (cleannl msg)

/-- The server's file is a chain of records numbered from one, and the server
stands at its end. -/
structure Ledger (s : Server) (records : List Record) : Prop where
  file : s.file = cvtca (storedText records)
  stored : ∀ r ∈ records, r.Stored
  chained : Chained sha records
  numbered : records.map Record.seq = (List.range records.length).map fun i : Nat => (i : Int) + 1
  tiphash : s.tiphash = tip sha records
  seq : s.seq = records.length

end Sealing

variable {sha : Sha256}

theorem canon_cstr (seq t : Int) (source event msg : Str) :
    canon seq t (cstr source) (cstr event) (cstr msg) = canon seq t source event msg := by
  simp only [canon, cstr_cstr]

theorem cstr_hex (hash : List Nat) : cstr (hex hash) = hex hash := by
  apply cstr_of_no_nul
  intro member
  have bounds := mem_hex member
  omega

theorem hex_word (hash : List Nat) : 32 ∉ hex hash := fun member =>
  absurd (mem_hex member).1 (lt_irrefl _)

theorem hex_digest_ne_nil (bytes record : List Nat) : hex (extend sha bytes record) ≠ [] := by
  have size : (hex (extend sha bytes record)).length = 2 * HASHLEN := by
    rw [length_hex, extend, sha.length_digest]
  intro empty
  rw [empty] at size
  simp [HASHLEN] at size

theorem appendrec_stored (stored : io.stored = none) (source event msg : Str) (s : Server) :
    appendrec sha io source event msg s =
      ({ s with
          file := s.file ++ cvtca ((sealedRecord sha io source event msg s).line ++ [10])
          tiphash := extend sha s.tiphash (sealedRecord sha io source event msg s).bytes
          seq := (sealedRecord sha io source event msg s).seq }, none) := by
  simp only [appendrec, stored, sealedRecord, Record.bytes, Record.canon, canon_cstr]
  congr 3
  simp [sprintLine, Record.line, cstr_hex]

theorem appendrec_refused (stored : io.stored = some 0) (source event msg : Str) (s : Server) :
    appendrec sha io source event msg s = (s, some .writefailed) := by
  simp [appendrec, stored]

theorem sealedRecord_stored (io : Append) (s : Server) (storable : Storable source event msg)
    (sourceRunes : Runes source) (eventRunes : Runes event) (msgRunes : Runes msg) :
    (sealedRecord sha io source event msg s).Stored where
  parses := by
    have subset : ∀ field : Str, 32 ∉ clean1 field → 32 ∉ cstr (clean1 field) :=
      fun field clean member => clean ((cstr_sublist _).subset member)
    exact parserec_line (inWord_wrap _) io.inWord
      ⟨storable.source, subset source (clean1_word source).1⟩
      ⟨storable.event, subset event (clean1_word event).1⟩
      ⟨hex_digest_ne_nil _ _, hex_word _⟩ storable.msg
  oneLine := by
    have decimalClean : ∀ n : Int, 10 ∉ decimal n := by
      intro _ member
      have bounds := decimal_bounds member
      omega
    have hexClean : ∀ hash : List Nat, 10 ∉ hex hash := by
      intro _ member
      have bounds := mem_hex member
      omega
    have fieldClean : ∀ field : Str, 10 ∉ cstr (clean1 field) :=
      fun field member => (clean1_word field).2 ((cstr_sublist _).subset member)
    have msgClean : 10 ∉ cstr (cleannl msg) :=
      fun member => newline_notMem_cleannl msg ((cstr_sublist _).subset member)
    simp [Record.line, sealedRecord, decimalClean, hexClean, fieldClean, msgClean]
  runes := by
    have blank : ∀ {rest : Str}, Runes rest → Runes (32 :: rest) := by
      intro _ runes c member
      rcases mem_cons.1 member with rfl | member
      · decide
      · exact runes c member
    exact (runes_decimal _).append (blank ((runes_decimal _).append (blank
      ((runes_cstr (runes_clean1 sourceRunes)).append (blank
        ((runes_cstr (runes_clean1 eventRunes)).append (blank
          ((runes_hex _).append (blank (runes_cstr (runes_cleannl msgRunes)))))))))))

/-! ### The ledger of a server -/

theorem Ledger.lastSeq (ledger : Ledger sha s records) : lastSeq records = records.length := by
  rcases eq_nil_or_concat' records with rfl | ⟨front, last, rfl⟩
  · rfl
  have numbered := ledger.numbered
  rw [length_append, length_singleton, range_succ, map_append,
    map_append] at numbered
  have lastEq := (append_inj' numbered rfl).2
  simp only [map_cons, map_nil, List.cons.injEq, and_true] at lastEq
  rw [lastSeq_concat, lastEq]
  simp

theorem Ledger.replay (ledger : Ledger sha s records) :
    replay sha (c2string s.file) = (tip sha records, (records.length : Int), -1) := by
  rw [ledger.file, c2string_cvtca (runes_storedText fun r member => (ledger.stored r member).runes),
    replay_storedText ledger.stored ledger.chained, ledger.lastSeq]

theorem Ledger.append (ledger : Ledger sha s records) (stored : io.stored = none)
    (storable : Storable source event msg) (sourceRunes : Runes source) (eventRunes : Runes event)
    (msgRunes : Runes msg) (room : s.seq + 1 ≤ 2147483647) :
    Ledger sha (appendrec sha io source event msg s).1
      (records ++ [sealedRecord sha io source event msg s]) := by
  have count := ledger.seq
  have next : wrap (s.seq + 1) = (records.length : Int) + 1 := by
    rw [wrap_of_inWord (by unfold InWord; omega), count]
  rw [appendrec_stored stored]
  refine ⟨?_, ?_, ?_, ?_, ?_, ?_⟩
  · rw [storedText_append, cvtca_append (storedText records), ledger.file]
    simp only [storedText, flatMap_cons, flatMap_nil, append_nil]
  · intro r member
    rcases mem_append.1 member with old | new
    · exact ledger.stored r old
    · rw [mem_singleton.1 new]
      exact sealedRecord_stored io s storable sourceRunes eventRunes msgRunes
  · refine chained_concat.2 ⟨ledger.chained, ?_⟩
    rw [← ledger.tiphash]
    simp only [sealedRecord, Record.bytes, Record.canon, canon_cstr]
  · rw [map_append, length_append, length_singleton, range_succ,
      map_append, ledger.numbered]
    simp only [map_cons, map_nil, sealedRecord, next]
  · rw [tip_concat, ← ledger.tiphash]
  · simp only [sealedRecord, next, length_append, length_singleton]
    push_cast
    rfl

/-- A step keeps a ledger: it may add records, and an error reply changes nothing. -/
structure Kept (sha : Sha256) (s : Server) (records : List Record)
    (outcome : Server × Option Err) : Prop where
  ledger : ∃ more, Ledger sha outcome.1 (records ++ more)
  error : outcome.2 ≠ none → outcome.1 = s

theorem Kept.refl (ledger : Ledger sha s records) (err : Option Err) :
    Kept sha s records (s, err) :=
  ⟨⟨[], by rwa [append_nil]⟩, fun _ => rfl⟩

def Append.Clean (io : Append) : Prop := io.stored = none ∨ io.stored = some 0

theorem appendrec_kept (ledger : Ledger sha s records) (clean : io.Clean)
    (storable : Storable source event msg) (sourceRunes : Runes source) (eventRunes : Runes event)
    (msgRunes : Runes msg) (room : s.seq + 1 ≤ 2147483647) :
    Kept sha s records (appendrec sha io source event msg s) := by
  rcases clean with stored | refused
  · refine ⟨⟨_, ledger.append stored storable sourceRunes eventRunes msgRunes room⟩, ?_⟩
    rw [appendrec_stored stored]
    intro failed
    exact absurd rfl failed
  · rw [appendrec_refused refused]
    exact Kept.refl ledger _

/-! ### Checkpoints -/

private theorem graphic_append {left right : Str} (leftGraphic : ∀ c ∈ left, 32 < c ∧ c < 128)
    (rightGraphic : ∀ c ∈ right, 32 < c ∧ c < 128) : ∀ c ∈ left ++ right, 32 < c ∧ c < 128 := by
  intro c member
  rcases mem_append.1 member with member | member
  · exact leftGraphic c member
  · exact rightGraphic c member

private theorem checkpointMsg_eq (s : Server) (cert : List Nat) :
    checkpointMsg s cert = [32].intercalate
      [str "head=" ++ hex s.tiphash, str "seq=" ++ decimal s.seq, str "sig=" ++ hex cert] := by
  have seqLabel : str " seq=" = 32 :: str "seq=" := by decide
  have sigLabel : str " sig=" = 32 :: str "sig=" := by decide
  unfold checkpointMsg
  rw [seqLabel, sigLabel]
  simp [List.intercalate]

private theorem checkpoint_words (s : Server) (cert : List Nat) :
    ∀ word ∈ [str "head=" ++ hex s.tiphash, str "seq=" ++ decimal s.seq, str "sig=" ++ hex cert],
      word ≠ [] ∧ ∀ c ∈ word, 32 < c ∧ c < 128 := by
  intro _ member
  simp only [mem_cons, not_mem_nil, or_false] at member
  rcases member with rfl | rfl | rfl
  · exact ⟨by simp [str], graphic_append (by decide) fun _ => mem_hex⟩
  · exact ⟨by simp [str], graphic_append (by decide) fun _ => decimal_bounds⟩
  · exact ⟨by simp [str], graphic_append (by decide) fun _ => mem_hex⟩

theorem mem_checkpointMsg {cert : List Nat} (member : c ∈ checkpointMsg s cert) :
    32 ≤ c ∧ c < 128 := by
  simp only [checkpointMsg, mem_append] at member
  have label : ∀ text : Str, text.all (fun c => decide (32 ≤ c) && decide (c < 128)) = true →
      c ∈ text → 32 ≤ c ∧ c < 128 := by
    intro _ small inside
    simpa using all_eq_true.1 small c inside
  rcases member with ((((first | tipHash) | second) | number) | third) | signature
  · exact label _ (by decide) first
  · exact (mem_hex tipHash).imp_left le_of_lt
  · exact label _ (by decide) second
  · exact (decimal_bounds number).imp_left le_of_lt
  · exact label _ (by decide) third
  · exact (mem_hex signature).imp_left le_of_lt

theorem words_checkpointMsg (s : Server) (cert : List Nat) :
    words (checkpointMsg s cert) =
      [str "head=" ++ hex s.tiphash, str "seq=" ++ decimal s.seq, str "sig=" ++ hex cert] := by
  rw [checkpointMsg_eq]
  refine tokens_intercalate 32 _ ?_
  intro word member
  have ⟨nonempty, graphic⟩ := checkpoint_words s cert word member
  exact ⟨nonempty, fun inside => absurd (graphic 32 inside).1 (lt_irrefl _)⟩

theorem cstr_cleannl_checkpointMsg (s : Server) (cert : List Nat) :
    cstr (cleannl (checkpointMsg s cert)) = checkpointMsg s cert := by
  have unchanged : cleannl (checkpointMsg s cert) = checkpointMsg s cert := by
    refine cleannl_of_clean fun c member => ?_
    have bounds := mem_checkpointMsg member
    omega
  have noNul : 0 ∉ checkpointMsg s cert := fun member =>
    absurd (mem_checkpointMsg member).1 (by decide)
  rw [unchanged, cstr_of_no_nul noNul]

theorem checkpoint_storable (s : Server) (cert : List Nat) :
    Storable (str "-") (str "checkpoint") (checkpointMsg s cert) where
  source := by decide
  event := by decide
  msg := by
    have split := words_checkpointMsg s cert
    unfold words at split
    rw [cstr_cleannl_checkpointMsg, ← intercalate_tokens_eq_iff, split, checkpointMsg_eq]

theorem runes_checkpointMsg (s : Server) (cert : List Nat) : Runes (checkpointMsg s cert) :=
  fun _ member => lt_trans (mem_checkpointMsg member).2 (by decide)

theorem runes_dash : Runes (str "-") := by
  unfold Runes
  decide

theorem runes_checkpoint : Runes (str "checkpoint") := by
  unfold Runes
  decide

theorem Ledger.setCadence (ledger : Ledger sha s records) (check attempt : Int) :
    Ledger sha { s with lastcheck := check, lastattempt := attempt } records :=
  ⟨ledger.file, ledger.stored, ledger.chained, ledger.numbered, ledger.tiphash, ledger.seq⟩

theorem docheckpoint_kept (ledger : Ledger sha s records) (clean : io.Clean)
    (sign : List Nat → Option (List Nat)) (room : s.seq + 1 ≤ 2147483647) :
    Kept sha s records (docheckpoint sha io sign s) := by
  unfold docheckpoint
  cases signature : sign (cvtca (checkpointContent s)) with
  | none => exact Kept.refl ledger _
  | some cert =>
    have kept := appendrec_kept ledger clean (checkpoint_storable s cert)
      runes_dash runes_checkpoint (runes_checkpointMsg s cert) room
    simp only
    rcases outcome : appendrec sha io (str "-") (str "checkpoint") (checkpointMsg s cert) s with
      ⟨s', _ | err⟩
    · rw [outcome] at kept
      have ⟨more, later⟩ := kept.ledger
      exact ⟨⟨more, later.setCadence _ _⟩, fun failed => absurd rfl failed⟩
    · rw [outcome] at kept
      exact kept

/-! ### Whole runs -/

def StepOk (s : Server) (env : Env) : Op → Prop
  | .log data =>
    (∀ i, (env.appends i).Clean) ∧ s.seq + 2 ≤ 2147483647 ∧
      ∀ source event rest, words (stripnl (c2string data)) = source :: event :: rest →
        Storable source event (join rest)
  | .ctl _ => (∀ i, (env.appends i).Clean) ∧ s.seq + 2 ≤ 2147483647
  | .tick => (∀ i, (env.appends i).Clean) ∧ s.seq + 2 ≤ 2147483647
  | .restart sysname =>
    (∀ i, (env.appends i).Clean) ∧ s.seq + 2 ≤ 2147483647 ∧
      Storable (str "auditfs") (str "start") (bootMsg sysname (str "ok"))

theorem Ledger.seq_nonneg (ledger : Ledger sha s records) : 0 ≤ s.seq := by
  rw [ledger.seq]
  exact Int.natCast_nonneg _

theorem appendrec_seq_le (nonneg : 0 ≤ s.seq) (room : s.seq + 1 ≤ 2147483647) :
    (appendrec sha io source event msg s).1.seq ≤ s.seq + 1 := by
  have next : wrap (s.seq + 1) = s.seq + 1 := wrap_of_inWord (by unfold InWord; omega)
  simp only [appendrec]
  cases io.stored with
  | none => exact le_of_eq next
  | some _ => exact Int.le_add_one (le_refl _)

theorem stripnl_sublist (s : Str) : (stripnl s).Sublist s := by
  unfold stripnl
  split_ifs
  · exact dropLast_sublist s
  · exact List.Sublist.refl s

theorem runes_auditfs : Runes (str "auditfs") := by
  unfold Runes
  decide

theorem runes_start : Runes (str "start") := by
  unfold Runes
  decide

theorem runes_bootMsg (sysname : List Nat) {rst : Str} (rstRunes : Runes rst) :
    Runes (bootMsg sysname rst) := by
  have host : Runes (hostname sysname) := by
    have trimmed := (runes_c2string sysname).sublist
      (reverse_sublist.1 (by
        rw [reverse_reverse]
        exact dropWhile_sublist _) :
        ((c2string sysname).reverse.dropWhile fun c => c == 10 || c == 32).reverse.Sublist
          (c2string sysname))
    simp only [hostname]
    split_ifs
    · unfold Runes
      decide
    · exact trimmed
  exact (((show Runes (str "host=") by unfold Runes; decide).append (runes_cstr host)).append
    (show Runes (str " replay=") by unfold Runes; decide)).append (runes_cstr rstRunes)

theorem runes_fields {text : Str} {rest : List Str} (runes : Runes text)
    (split : words text = source :: event :: rest) :
    Runes source ∧ Runes event ∧ Runes (join rest) := by
  have pieces : ∀ word ∈ words text, Runes word := fun _ member => runes_words runes member
  rw [split] at pieces
  refine ⟨pieces source (by simp), pieces event (by simp), ?_⟩
  intro c member
  rcases mem_join member with rfl | ⟨tok, inRest, inTok⟩
  · decide
  · exact pieces tok (by simp [inRest]) c inTok

theorem writelog_kept (ledger : Ledger sha s records) {env : Env}
    (clean : ∀ i, (env.appends i).Clean) (room : s.seq + 2 ≤ 2147483647) {text : Str}
    (textRunes : Runes text) (storable : ∀ source event rest, words text = source :: event :: rest →
      Storable source event (join rest)) : Kept sha s records (writelog sha env s text) := by
  unfold writelog
  split
  · rename_i source event rest split
    have ⟨sourceRunes, eventRunes, msgRunes⟩ := runes_fields textRunes split
    split_ifs
    · exact Kept.refl ledger _
    have kept := appendrec_kept ledger (clean 0) (storable source event rest split)
      sourceRunes eventRunes msgRunes (by omega)
    rcases outcome : appendrec sha (env.appends 0) source event (join rest) s with ⟨s', _ | err⟩
    · rw [outcome] at kept
      have ⟨more, later⟩ := kept.ledger
      have nextSeq : (appendrec sha (env.appends 0) source event (join rest) s).1.seq ≤
          s.seq + 1 := appendrec_seq_le ledger.seq_nonneg (by omega)
      rw [outcome] at nextSeq
      simp only at nextSeq
      simp only
      split_ifs
      · have ⟨others, final⟩ := (docheckpoint_kept (later.setCadence s'.lastcheck s'.seq)
          (clean 1) env.factotumsign (by simp only; omega)).ledger
        exact ⟨⟨more ++ others, by rwa [← append_assoc]⟩, fun failed => absurd rfl failed⟩
      · exact ⟨⟨more, later⟩, fun failed => absurd rfl failed⟩
    · rw [outcome] at kept
      exact kept
  · exact Kept.refl ledger _

/-- A step that meets the condition keeps the ledger. -/
theorem step_kept (ledger : Ledger sha s records) {env : Env} {op : Op} (ok : StepOk s env op) :
    Kept sha s records (step sha env op s) := by
  cases op with
  | log data =>
    have ⟨clean, room, storable⟩ := ok
    simp only [step]
    split_ifs
    · refine writelog_kept ledger clean room ?_ storable
      exact (runes_c2string data).sublist (stripnl_sublist _)
    · exact Kept.refl ledger _
  | ctl _ =>
    have ⟨clean, room⟩ := ok
    simp only [step, writectl]
    split_ifs
    · exact Kept.refl ledger _
    · exact docheckpoint_kept ledger (clean 0) _ (by omega)
    · exact Kept.refl ledger _
  | tick =>
    have ⟨clean, room⟩ := ok
    simp only [step, tick]
    split_ifs
    · have ⟨more, later⟩ := (docheckpoint_kept (ledger.setCadence s.lastcheck s.seq)
        (clean 0) env.factotumsign (by simp only; omega)).ledger
      exact ⟨⟨more, later⟩, fun failed => absurd rfl failed⟩
    · exact Kept.refl ledger _
    · exact Kept.refl ledger _
  | restart sysname =>
    have ⟨clean, _, storable⟩ := ok
    have replayed := ledger.replay
    have started : Ledger sha ⟨s.file, true, tip sha records, records.length, 0, 0⟩ records :=
      ⟨ledger.file, ledger.stored, ledger.chained, ledger.numbered, rfl, rfl⟩
    have count := ledger.seq
    have okRunes : Runes (str "ok") := by
      unfold Runes
      decide
    have kept := appendrec_kept started (clean 0) storable runes_auditfs runes_start
      (runes_bootMsg sysname okRunes) (by simp only; omega)
    simp only [step, init, replayed]
    rw [if_neg (by omega)]
    rcases outcome : appendrec sha (env.appends 0) (str "auditfs") (str "start")
      (bootMsg sysname (str "ok")) ⟨s.file, true, tip sha records, records.length, 0, 0⟩ with
      ⟨s', _ | err⟩
    · rw [outcome] at kept
      exact ⟨kept.ledger, fun failed => absurd rfl failed⟩
    rw [outcome] at kept
    have ⟨more, later⟩ := kept.ledger
    exact ⟨⟨more, ⟨later.file, later.stored, later.chained, later.numbered, later.tiphash,
      later.seq⟩⟩, fun failed => absurd rfl failed⟩

section Runs

variable (sha : Sha256)

/-- What the log promises in a state: the file replays without a break, a running
server stands at the end of the replay, and the lines are numbered from one. -/
structure Intact (s : Server) : Prop where
  unbroken : (replay sha (c2string s.file)).2.2 = -1
  tiphash : s.up = true → (replay sha (c2string s.file)).1 = s.tiphash
  seq : s.up = true → (replay sha (c2string s.file)).2.1 = s.seq
  numbered : (lines (c2string s.file)).map (fun line => (parserec line).map Record.seq) =
    (List.range (lines (c2string s.file)).length).map fun i : Nat => some ((i : Int) + 1)

def ErrorAddsNothing (s : Server) (env : Env) (op : Op) : Prop :=
  (step sha env op s).2 ≠ none →
    lines (c2string (step sha env op s).1.file) = lines (c2string s.file)

def NeverBreaks (steps : List (Env × Op)) : Prop :=
  (∀ front, front <+: steps → Intact sha (run sha (fresh sha) front)) ∧
    ∀ front env op, front ++ [(env, op)] <+: steps →
      ErrorAddsNothing sha (run sha (fresh sha) front) env op

def RunOk (s : Server) : List (Env × Op) → Prop
  | [] => True
  | (env, op) :: rest => StepOk s env op ∧ RunOk (step sha env op s).1 rest

end Runs

theorem Ledger.intact (ledger : Ledger sha s records) : Intact sha s := by
  have replayed := ledger.replay
  have split : lines (c2string s.file) = records.map Record.line := by
    rw [ledger.file,
      c2string_cvtca (runes_storedText fun r member => (ledger.stored r member).runes),
      lines_storedText fun r member => (ledger.stored r member).oneLine]
  refine ⟨by rw [replayed], fun _ => by rw [replayed, ledger.tiphash],
    fun _ => by rw [replayed, ledger.seq], ?_⟩
  have parsed : (records.map Record.line).map (fun line => (parserec line).map Record.seq) =
      (records.map Record.seq).map some := by
    rw [map_map, map_map]
    refine map_congr_left fun r member => ?_
    simp only [Function.comp_apply, (ledger.stored r member).parses, Option.map_some]
  rw [split, parsed, ledger.numbered, length_map, map_map]
  rfl

theorem fresh_ledger : Ledger sha (fresh sha) [] :=
  ⟨rfl, by simp, trivial, rfl, rfl, rfl⟩

theorem run_ledger (ledger : Ledger sha s records) {steps : List (Env × Op)}
    (ok : RunOk sha s steps) : ∃ more, Ledger sha (run sha s steps) (records ++ more) := by
  induction steps generalizing s records with
  | nil => exact ⟨[], by rwa [append_nil]⟩
  | cons _ _ ih =>
    have ⟨more, next⟩ := (step_kept ledger ok.1).ledger
    have ⟨others, _⟩ := ih next ok.2
    exact ⟨more ++ others, by rwa [← append_assoc]⟩

theorem RunOk.append {front back : List (Env × Op)} (ok : RunOk sha s (front ++ back)) :
    RunOk sha s front ∧ RunOk sha (run sha s front) back := by
  induction front generalizing s with
  | nil => exact ⟨trivial, ok⟩
  | cons _ _ ih =>
    have ⟨frontOk, backOk⟩ := ih ok.2
    exact ⟨⟨ok.1, frontOk⟩, backOk⟩

/-- In every run whose steps meet the condition the log never breaks itself. -/
theorem run_neverBreaks (sha : Sha256) (steps : List (Env × Op))
    (ok : RunOk sha (fresh sha) steps) : NeverBreaks sha steps := by
  constructor
  · rintro front ⟨back, rfl⟩
    have ⟨records, ledger⟩ := run_ledger fresh_ledger ok.append.1
    exact ledger.intact
  rintro front env op ⟨back, rfl⟩ failed
  rw [append_assoc] at ok
  have ⟨frontOk, lastOk⟩ := ok.append
  have ⟨_, ledger⟩ := run_ledger fresh_ledger frontOk
  rw [(step_kept ledger lastOk.1).error failed]

/-! ### A run that meets the condition, and one that does not -/

def lastBytes : Sha256 where
  digest bytes := ((bytes.reverse.map (· % 256)) ++ List.replicate HASHLEN 0).take HASHLEN
  length_digest bytes := by simp
  byte_digest bytes b member := by
    rcases mem_append.1 (mem_of_mem_take member) with kept | padding
    · obtain ⟨original, _, rfl⟩ := mem_map.1 kept
      exact Nat.mod_lt _ (by decide)
    · rw [(mem_replicate.1 padding).2]
      decide

/-- A clock that stands still and a file that stores every append, with no signer. -/
def quietEnv : Env where
  appends _ := ⟨1000, none, by unfold InWord; omega⟩
  factotumsign _ := none

theorem run_neverBreaks_hello :
    NeverBreaks lastBytes
      [(quietEnv, .restart (str "host")), (quietEnv, .log (str "login failed for bob\n"))] := by
  have starts : StepOk (fresh lastBytes) quietEnv (.restart (str "host")) := by
    refine ⟨fun _ => Or.inl rfl, by decide, by decide, by decide, ?_⟩
    unfold WellSpaced
    decide +kernel
  have writes : ∀ s : Server, s.seq + 2 ≤ 2147483647 →
      StepOk s quietEnv (.log (str "login failed for bob\n")) := by
    intro _ room
    refine ⟨fun _ => Or.inl rfl, room, ?_⟩
    intro _ _ _ split
    have read : words (stripnl (c2string (str "login failed for bob\n"))) =
        [str "login", str "failed", str "for", str "bob"] := by decide
    rw [read] at split
    simp only [List.cons.injEq] at split
    obtain ⟨rfl, rfl, rfl⟩ := split
    refine ⟨by decide, by decide, ?_⟩
    unfold WellSpaced
    decide +kernel
  have room : (step lastBytes quietEnv (.restart (str "host")) (fresh lastBytes)).1.seq + 2 ≤
      2147483647 := by decide +kernel
  exact run_neverBreaks lastBytes _ ⟨starts, writes _ room, trivial⟩

/-- Two newlines inside a message become two blanks of the stored line, which
`parserec` rejoins with one: the sealed text and the replayed text differ. -/
theorem log_breaks_on_newlines :
    ¬NeverBreaks lastBytes
      [(quietEnv, .restart (str "host")), (quietEnv, .log (str "login failed x\n\ny"))] := by
  intro promised
  have unbroken := (promised.1 _ prefix_rfl).unbroken
  revert unbroken
  decide +kernel

end Infernode.Auditfs
