import Infernode.Audit.Intact

/-!
Which changes of the backing file the `verify` file of the audit log detects.

Owns: the log that a server has sealed, the respellings of a record's line that
replay takes for the line, and the exact condition under which a file that
verifies holds the sealed lines.
-/

namespace Infernode.Auditfs

open Text Lib9 Auditchain List

/-! ### The sealed log -/

section Sealed

variable (sha : Sha256)

/-- The server stands at the end of the log that it has sealed. A restart takes up
the chain at the records that it accepts from the file. -/
inductive Sealed : Server → List Record → Prop
  | fresh : Sealed (fresh sha) []
  | append {s : Server} {log : List Record} (io : Append) (source event msg : Str) :
      Sealed s log → io.stored = none → Runes source → Runes event → Runes msg →
        Sealed (appendrec sha io source event msg s).1
          (log ++ [sealedRecord sha io source event msg s])
  | restart {s : Server} {log accepted : List Record} {front back : List Str} (s' : Server) :
      Sealed s log → lines (c2string s.file) = front ++ back →
        List.Forall₂ (fun line r => parserec line = some r) front accepted →
        Chained sha accepted → s'.tiphash = tip sha accepted → s'.seq = lastSeq accepted →
        Sealed s' accepted
  | refused {s : Server} {log : List Record} (io : Append) (source event msg : Str) :
      Sealed s log → io.stored ≠ none → Sealed (appendrec sha io source event msg s).1 log
  | same {s : Server} {log : List Record} (s' : Server) :
      Sealed s log → s'.file = s.file → s'.tiphash = s.tiphash → s'.seq = s.seq → Sealed s' log

/-- A record whose canonical text has its fields at the blanks. -/
structure Record.Proper (r : Record) : Prop where
  source : 32 ∉ r.source
  event : 32 ∉ r.event
  runes : Runes r.canon

structure HoldsLog (s : Server) (log : List Record) : Prop where
  tiphash : s.tiphash = tip sha log
  seq : s.seq = lastSeq log
  chained : Chained sha log
  proper : ∀ r ∈ log, r.Proper

end Sealed

variable {sha : Sha256}

private theorem runes_blank {rest : Str} (runes : Runes rest) : Runes (32 :: rest) := by
  intro c member
  rcases mem_cons.1 member with rfl | member
  · decide
  · exact runes c member

variable {source event msg : Str} {accepted log : List Record} {front : List Str} {s : Server}

theorem runes_canon (seq t : Int) (sourceRunes : Runes source) (eventRunes : Runes event)
    (msgRunes : Runes msg) : Runes (canon seq t source event msg) :=
  (runes_decimal _).append (runes_blank ((runes_decimal _).append (runes_blank
    ((runes_cstr sourceRunes).append (runes_blank ((runes_cstr eventRunes).append
      (runes_blank (runes_cstr msgRunes))))))))

variable {line : Str} {left right : List Record} {prev : List Nat}

/-- The fields of a parsed line are words of it, and the message joins words of it. -/
theorem proper_of_parserec {r : Record} (runes : Runes line) (parsed : parserec line = some r) :
    r.Proper := by
  have ⟨_, _, _, split, _, _, joined⟩ := parserec_eq_some_iff.1 parsed
  have word : ∀ field ∈ words line, 32 ∉ field ∧ Runes field := by
    intro _ member
    exact ⟨fun blank => by simpa using (mem_tokens member).2 32 blank, runes_words runes member⟩
  rw [split] at word
  refine ⟨(word r.source (by simp)).1, (word r.event (by simp)).1, ?_⟩
  refine runes_canon _ _ (word r.source (by simp)).2 (word r.event (by simp)).2 ?_
  rw [← joined]
  intro c member
  rcases mem_join member with rfl | ⟨tok, inRest, inTok⟩
  · decide
  · exact (word tok (by simp [inRest])).2 c inTok

theorem proper_of_parsed (runes : ∀ line ∈ front, Runes line)
    (parsed : List.Forall₂ (fun line r => parserec line = some r) front accepted) :
    ∀ r ∈ accepted, r.Proper := by
  induction parsed with
  | nil => simp
  | cons first _ ih =>
    intro r member
    rcases mem_cons.1 member with rfl | member
    · exact proper_of_parserec (runes _ (by simp)) first
    · exact ih (forall_mem_cons.1 runes).2
        r member

theorem runes_lines {data : Str} (runes : Runes data) (member : line ∈ lines data) :
    Runes line := runes.sublist (tokens_sublist member)

theorem sealedRecord_proper (io : Append) (s : Server) (sourceRunes : Runes source)
    (eventRunes : Runes event) (msgRunes : Runes msg) :
    (sealedRecord sha io source event msg s).Proper where
  source member := (clean1_word source).1 ((cstr_sublist _).subset member)
  event member := (clean1_word event).1 ((cstr_sublist _).subset member)
  runes := runes_canon _ _ (runes_cstr (runes_clean1 sourceRunes))
    (runes_cstr (runes_clean1 eventRunes)) (runes_cstr (runes_cleannl msgRunes))

theorem sealedRecord_hash (io : Append) (source event msg : Str) (s : Server) :
    hex (extend sha s.tiphash (sealedRecord sha io source event msg s).bytes) =
      (sealedRecord sha io source event msg s).hash := by
  simp only [sealedRecord, Record.bytes, Record.canon, canon_cstr]

theorem Sealed.holds (isSealed : Sealed sha s log) : HoldsLog sha s log := by
  induction isSealed with
  | fresh => exact ⟨rfl, rfl, trivial, by simp⟩
  | append io _ _ _ _ stored sourceRunes eventRunes msgRunes ih =>
    have ⟨tipEq, seqEq, chained, proper⟩ := ih
    rw [appendrec_stored stored]
    refine ⟨by rw [tip_concat, ← tipEq], (lastSeq_concat _ _).symm,
      chained_concat.2 ⟨chained, by rw [← tipEq, sealedRecord_hash]⟩, ?_⟩
    intro r member
    rcases mem_append.1 member with old | new
    · exact proper r old
    · rw [mem_singleton.1 new]
      exact sealedRecord_proper io _ sourceRunes eventRunes msgRunes
  | restart _ _ split parsed chained tipEq seqEq _ =>
    refine ⟨tipEq, seqEq, chained, proper_of_parsed (fun line member => ?_) parsed⟩
    exact runes_lines (runes_c2string _) (split ▸ mem_append_left _ member)
  | refused _ _ _ _ _ failed ih =>
    have ⟨_, stored⟩ := Option.ne_none_iff_exists'.1 failed
    simp only [appendrec, stored]
    exact ⟨ih.tiphash, ih.seq, ih.chained,
      ih.proper⟩
  | same _ _ _ tipEq seqEq ih =>
    exact ⟨by rw [tipEq, ih.tiphash], by rw [seqEq, ih.seq],
      ih.chained, ih.proper⟩

/-! ### Every run has a sealed log -/

theorem appendrec_sealed (isSealed : Sealed sha s log) (io : Append) (sourceRunes : Runes source)
    (eventRunes : Runes event) (msgRunes : Runes msg) :
    ∃ longer, Sealed sha (appendrec sha io source event msg s).1 longer := by
  by_cases stored : io.stored = none
  · exact ⟨_, isSealed.append io source event msg stored sourceRunes eventRunes msgRunes⟩
  · exact ⟨log, isSealed.refused io source event msg stored⟩

theorem docheckpoint_sealed (isSealed : Sealed sha s log) (io : Append)
    (sign : List Nat → Option (List Nat)) :
    ∃ longer, Sealed sha (docheckpoint sha io sign s).1 longer := by
  unfold docheckpoint
  cases sign (cvtca (checkpointContent s)) with
  | none => exact ⟨log, isSealed⟩
  | some cert =>
    have ⟨longer, later⟩ := appendrec_sealed isSealed io runes_dash runes_checkpoint
      (runes_checkpointMsg s cert)
    simp only
    rcases outcome : appendrec sha io (str "-") (str "checkpoint") (checkpointMsg s cert) s with
      ⟨s', _ | err⟩
    · rw [outcome] at later
      exact ⟨longer, later.same _ rfl rfl rfl⟩
    · rw [outcome] at later
      exact ⟨longer, later⟩

theorem writelog_sealed (isSealed : Sealed sha s log) (env : Env) {text : Str}
    (textRunes : Runes text) : ∃ longer, Sealed sha (writelog sha env s text).1 longer := by
  unfold writelog
  split
  · rename_i source event rest split
    have ⟨sourceRunes, eventRunes, msgRunes⟩ := runes_fields textRunes split
    split_ifs
    · exact ⟨log, isSealed⟩
    have ⟨longer, later⟩ :=
      appendrec_sealed isSealed (env.appends 0) sourceRunes eventRunes msgRunes
    rcases outcome : appendrec sha (env.appends 0) source event (join rest) s with ⟨s', _ | err⟩
    · rw [outcome] at later
      simp only
      split_ifs
      · exact docheckpoint_sealed (later.same { s' with lastattempt := s'.seq } rfl rfl rfl) _ _
      · exact ⟨longer, later⟩
    · rw [outcome] at later
      exact ⟨longer, later⟩
  · exact ⟨log, isSealed⟩

/-- A restart takes up the chain at the records accepted from the file. -/
theorem init_sealed (isSealed : Sealed sha s log) (env : Env) (sysname : List Nat) :
    ∃ longer, Sealed sha (init sha env sysname s.file) longer := by
  have ⟨front, back, accepted, split, parsed, chained, tipEq, seqEq, _⟩ :=
    replay_cases sha (c2string s.file)
  have resumed := isSealed.restart
    ⟨s.file, true, (replay sha (c2string s.file)).1, (replay sha (c2string s.file)).2.1, 0, 0⟩
    split parsed chained tipEq seqEq
  have rstRunes : Runes (if 0 ≤ (replay sha (c2string s.file)).2.2 then
      str "broken@" ++ decimal (replay sha (c2string s.file)).2.2 else str "ok") := by
    split_ifs
    · refine Runes.append ?_ (runes_decimal _)
      unfold Runes
      decide
    · unfold Runes
      decide
  have ⟨longer, later⟩ := appendrec_sealed resumed (env.appends 0) runes_auditfs runes_start
    (runes_bootMsg sysname rstRunes)
  refine ⟨longer, ?_⟩
  simp only [init]
  split
  · rename_i s' outcome
    rw [outcome] at later
    exact later
  · rename_i s' err outcome
    rw [outcome] at later
    exact later.same _ rfl rfl rfl

theorem step_sealed (isSealed : Sealed sha s log) (env : Env) (op : Op) :
    ∃ longer, Sealed sha (step sha env op s).1 longer := by
  cases op with
  | log data =>
    simp only [step]
    split_ifs
    · exact writelog_sealed isSealed env ((runes_c2string data).sublist (stripnl_sublist _))
    · exact ⟨log, isSealed⟩
  | ctl _ =>
    simp only [step, writectl]
    split_ifs
    · exact ⟨log, isSealed⟩
    · exact docheckpoint_sealed isSealed _ _
    · exact ⟨log, isSealed⟩
  | tick =>
    simp only [step, tick]
    split_ifs
    · exact docheckpoint_sealed (isSealed.same { s with lastattempt := s.seq } rfl rfl rfl) _ _
    · exact ⟨log, isSealed⟩
    · exact ⟨log, isSealed⟩
  | restart sysname => exact init_sealed isSealed env sysname

theorem run_sealed (isSealed : Sealed sha s log) (steps : List (Env × Op)) :
    ∃ longer, Sealed sha (run sha s steps) longer := by
  induction steps generalizing s log with
  | nil => exact ⟨log, isSealed⟩
  | cons first _ ih =>
    have ⟨_, next⟩ := step_sealed isSealed first.1 first.2
    exact ih next

/-! ### Respellings of a log -/

/-- The line has the record's fields, as far as splitting at blanks, reading a
number's leading digits and copying up to a NUL can tell. -/
def Respelt (line : Str) (r : Record) : Prop :=
  ∃ seqf tf source event rest, words line = seqf :: tf :: source :: event :: r.hash :: rest ∧
    strtoint seqf = r.seq ∧ strtoint tf = r.time ∧ cstr source = cstr r.source ∧
    cstr event = cstr r.event ∧ cstr (join rest) = cstr r.msg

section Tamper

variable (sha : Sha256)

/-- The line breaks the chain, but at a number that is taken for the end of the file. -/
def NegativeBreak (prev : List Nat) (last : Int) (line : Str) : Prop :=
  ∃ seq < 0, breaksAt sha prev last line seq

def Respelling (log : List Record) (data : List Nat) : Prop :=
  ∃ front back, lines (c2string data) = front ++ back ∧ List.Forall₂ Respelt front log ∧
    (back = [] ∨ ∃ line others, back = line :: others ∧
      NegativeBreak sha (tip sha log) (lastSeq log) line)

def Detects (s : Server) (log : List Record) (data : List Nat) : Prop :=
  verify sha s data = .ok s.seq → lines (c2string data) = log.map Record.line

def hashed (records : List Record) : List (List Nat) :=
  HashChain.inputs sha.digest (cvtca GENESIS) (· ++ ·) (records.map Record.bytes)

def CollisionFree (log : List Record) (data : List Nat) : Prop :=
  HashChain.CollisionFree sha.digest
    (hashed sha log ++ hashed sha ((lines (c2string data)).filterMap parserec))

end Tamper

/-- What is hashed along a part is hashed along the whole. -/
theorem mem_hashed_append {front back : List Record} {bytes : List Nat}
    (member : bytes ∈ hashed sha front) : bytes ∈ hashed sha (front ++ back) := by
  unfold hashed HashChain.inputs at member ⊢
  rw [map_append, HashChain.inputsFrom_append, ← cons_append]
  exact mem_append_left _ member

theorem exists_digest_eq_tip (sha : Sha256) (records : List Record) :
    ∃ bytes, sha.digest bytes = tip sha records := by
  have ⟨bytes, _, isTip⟩ := HashChain.exists_digest_eq_tip sha.digest (cvtca GENESIS) (· ++ ·)
    (records.map Record.bytes)
  exact ⟨bytes, isTip⟩

theorem hex_tip_injective (same : hex (tip sha left) = hex (tip sha right)) :
    tip sha left = tip sha right := by
  have ⟨_, leftEq⟩ := exists_digest_eq_tip sha left
  have ⟨_, rightEq⟩ := exists_digest_eq_tip sha right
  rw [← leftEq, ← rightEq] at same ⊢
  exact hex_injective (sha.byte_digest _) (sha.byte_digest _) same

theorem bytes_eq_of_tip_eq
    (apart : HashChain.CollisionFree sha.digest (hashed sha left ++ hashed sha right))
    (same : tip sha left = tip sha right) : left.map Record.bytes = right.map Record.bytes := by
  refine HashChain.tip_injective ?_ ?_ apart same
  · intro first second _ _ linked
    have sizes : (sha.digest first).length = (sha.digest second).length := by
      rw [sha.length_digest, sha.length_digest]
    exact append_inj linked sizes
  intro input bytes linked
  have longer := length_genesis_lt sha input bytes
  rw [linked] at longer
  exact lt_irrefl _ longer

theorem cvtca_injOn {left right : Str} (leftRunes : Runes left) (rightRunes : Runes right)
    (same : cvtca left = cvtca right) : left = right := by
  rw [← c2string_cvtca leftRunes, same, c2string_cvtca rightRunes]

theorem respelt_of_bytes_eq
    (parsed : List.Forall₂ (fun line r => parserec line = some r) front accepted)
    (acceptedChain : ChainedFrom sha prev accepted) (logChain : ChainedFrom sha prev log)
    (acceptedProper : ∀ r ∈ accepted, r.Proper) (logProper : ∀ r ∈ log, r.Proper)
    (same : accepted.map Record.bytes = log.map Record.bytes) : List.Forall₂ Respelt front log := by
  induction parsed generalizing log prev with
  | nil =>
    cases log with
    | nil => exact List.Forall₂.nil
    | cons _ _ => simp at same
  | @cons line r _ _ first others ih =>
    cases log with
    | nil => simp at same
    | cons r' _ =>
      simp only [map_cons, List.cons.injEq] at same
      have ⟨sameBytes, sameRest⟩ := same
      have proper := acceptedProper r (by simp)
      have proper' := logProper r' (by simp)
      have sameCanon := cvtca_injOn proper.runes proper'.runes sameBytes
      have ⟨seqEq, timeEq, sourceEq, eventEq, msgEq⟩ :=
        canon_inj proper.source proper.event proper'.source proper'.event sameCanon
      have hashEq : r.hash = r'.hash := by
        rw [← acceptedChain.1, ← logChain.1, sameBytes]
      have ⟨seqf, tf, tail, split, seqRead, timeRead, joined⟩ :=
        parserec_eq_some_iff.1 first
      refine List.Forall₂.cons ?_ (ih acceptedChain.2
        (by rw [sameBytes]; exact logChain.2)
        (forall_mem_cons.1 acceptedProper).2
        (forall_mem_cons.1 logProper).2 sameRest)
      exact ⟨seqf, tf, r.source, r.event, tail, by rw [split, hashEq], by rw [seqRead, seqEq],
        by rw [timeRead, timeEq], sourceEq, eventEq, by rw [joined, msgEq]⟩

theorem accepted_of_respelt (last : Int) (respelt : List.Forall₂ Respelt front log)
    (chained : ChainedFrom sha prev log) :
    ∃ accepted, List.Forall₂ (fun line r => parserec line = some r) front accepted ∧
      ChainedFrom sha prev accepted ∧ tipFrom sha prev accepted = tipFrom sha prev log ∧
      lastSeqFrom last accepted = lastSeqFrom last log := by
  induction respelt generalizing prev last with
  | nil => exact ⟨[], List.Forall₂.nil, trivial, rfl, rfl⟩
  | @cons line r _ _ first others ih =>
    obtain ⟨seqf, tf, source, event, rest, split, seqEq, timeEq, sourceEq, eventEq, msgEq⟩ :=
      first
    let p : Record := ⟨r.seq, r.time, source, event, r.hash, join rest⟩
    have parsed : parserec line = some p :=
      parserec_eq_some_iff.2 ⟨seqf, tf, rest, split, seqEq, timeEq, rfl⟩
    have sameBytes : p.bytes = r.bytes := by
      simp only [p, Record.bytes, Record.canon, Auditchain.canon, sourceEq, eventEq, msgEq]
    obtain ⟨accepted, parses, acceptedChain, tipEq, seqLast⟩ :=
      ih r.seq chained.2
    refine ⟨p :: accepted, List.Forall₂.cons parsed parses, ⟨?_, ?_⟩, ?_, seqLast⟩
    · rw [sameBytes]
      exact chained.1
    · rw [sameBytes]
      exact acceptedChain
    have step : tipFrom sha prev (p :: accepted) =
        tipFrom sha (extend sha prev p.bytes) accepted := rfl
    rw [step, sameBytes, tipEq]
    rfl

theorem filterMap_of_parsed
    (parsed : List.Forall₂ (fun line r => parserec line = some r) front accepted) :
    front.filterMap parserec = accepted := by
  induction parsed with
  | nil => rfl
  | cons first _ ih =>
    rw [filterMap_cons_some first, ih]

/-- The file verifies exactly when it respells the log. -/
theorem verify_ok_iff (holds : HoldsLog sha s log) {data : List Nat}
    (apart : CollisionFree sha log data) :
    verify sha s data = .ok s.seq ↔ Respelling sha log data := by
  constructor
  · intro verified
    have ⟨front, back, accepted, split, parsed, chained, tipEq, seqEq, stop⟩ :=
      replay_cases sha (c2string data)
    simp only [verify] at verified
    split_ifs at verified with broken diverged
    · simp only [not_or, not_not] at diverged
      have tips : tip sha accepted = tip sha log := by
        apply hex_tip_injective
        rw [← tipEq, ← holds.tiphash]
        exact diverged.2
      have fewer : HashChain.CollisionFree sha.digest (hashed sha accepted ++ hashed sha log) := by
        have inFile : ∀ bytes ∈ hashed sha accepted,
            bytes ∈ hashed sha ((lines (c2string data)).filterMap parserec) := by
          intro _ member
          rw [split, filterMap_append, filterMap_of_parsed parsed]
          exact mem_hashed_append member
        intro left leftMember right rightMember
        refine apart left ?_ right ?_
        · rcases mem_append.1 leftMember with member | member
          · exact mem_append_right _ (inFile left member)
          · exact mem_append_left _ member
        · rcases mem_append.1 rightMember with member | member
          · exact mem_append_right _ (inFile right member)
          · exact mem_append_left _ member
      have sameBytes := bytes_eq_of_tip_eq fewer tips
      have acceptedProper : ∀ r ∈ accepted, r.Proper := by
        refine proper_of_parsed (fun line member => ?_) parsed
        exact runes_lines (runes_c2string _) (split ▸ mem_append_left _ member)
      have lastEq : lastSeq accepted = lastSeq log := by
        rw [← seqEq, ← holds.seq]
        exact diverged.1
      refine ⟨front, back, split, respelt_of_bytes_eq parsed chained holds.chained acceptedProper
        holds.proper sameBytes, ?_⟩
      rcases stop with ⟨finished, _⟩ | ⟨line, others, stopped, breaks⟩
      · exact Or.inl finished
      · rw [tips, lastEq] at breaks
        exact Or.inr ⟨line, others, stopped, _, not_le.1 broken, breaks⟩
  · rintro ⟨front, back, split, respelt, stop⟩
    have ⟨_, parsed, chained, tipEq, seqEq⟩ :=
      accepted_of_respelt 0 respelt holds.chained
    have replayed : replay sha (c2string data) =
        replayLines sha (tip sha log) (lastSeq log) back := by
      unfold replay
      rw [split, replayLines_append parsed chained, tipEq, seqEq]
      rfl
    have ends : ∃ seq < 0, replay sha (c2string data) = (tip sha log, lastSeq log, seq) := by
      rcases stop with rfl | ⟨line, others, rfl, seq, negative, breaks⟩
      · exact ⟨-1, by decide, replayed⟩
      have member : line ∈ lines (c2string data) := by
        rw [split]
        simp
      exact ⟨seq, negative, by
        rw [replayed, replayLines_cons_break (lines_nonempty member) breaks]⟩
    have ⟨_, negative, result⟩ := ends
    simp only [verify, result]
    rw [if_neg (not_le.2 negative), if_neg]
    rw [holds.seq, holds.tiphash]
    simp

/-- A file that verifies holds the sealed lines, unless it respells them. -/
theorem detects_iff (sha : Sha256) (s : Server) (log : List Record) (data : List Nat)
    (isSealed : Sealed sha s log) (apart : CollisionFree sha log data) :
    Detects sha s log data ↔
      ¬(Respelling sha log data ∧ lines (c2string data) ≠ log.map Record.line) := by
  unfold Detects
  rw [verify_ok_iff isSealed.holds apart, not_and, not_not]

/-! ### A log of one record -/

def oneRecord : Server × List Record :=
  ((appendrec lastBytes (quietEnv.appends 0) (str "login") (str "failed") (str "for bob")
    (fresh lastBytes)).1,
    [sealedRecord lastBytes (quietEnv.appends 0) (str "login") (str "failed") (str "for bob")
      (fresh lastBytes)])

theorem oneRecord_sealed : Sealed lastBytes oneRecord.1 oneRecord.2 :=
  Sealed.fresh.append _ _ _ _ rfl (by unfold Runes; decide) (by unfold Runes; decide)
    (by unfold Runes; decide)

/-- The file of the log with a blank doubled. -/
theorem detects_iff_doubled_blank :
    Detects lastBytes oneRecord.1 oneRecord.2 (32 :: oneRecord.1.file) ↔
      ¬(Respelling lastBytes oneRecord.2 (32 :: oneRecord.1.file) ∧
        lines (c2string (32 :: oneRecord.1.file)) ≠ oneRecord.2.map Record.line) := by
  refine detects_iff lastBytes _ _ _ oneRecord_sealed ?_
  unfold CollisionFree HashChain.CollisionFree
  decide +kernel

/-- A line with a negative number after the log: replay stops there and reports a
negative number, which reads as the end of the file. -/
theorem verify_misses_negative :
    Sealed lastBytes oneRecord.1 oneRecord.2 ∧
      CollisionFree lastBytes oneRecord.2
        (oneRecord.1.file ++ str "-1 1000 login granted 0 for root\n") ∧
      ¬Detects lastBytes oneRecord.1 oneRecord.2
        (oneRecord.1.file ++ str "-1 1000 login granted 0 for root\n") := by
  refine ⟨oneRecord_sealed, ?_, ?_⟩
  · unfold CollisionFree HashChain.CollisionFree
    decide +kernel
  · unfold Detects
    decide +kernel

end Infernode.Auditfs
