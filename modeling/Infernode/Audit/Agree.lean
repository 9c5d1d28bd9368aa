import Infernode.Audit.Vouched

/-!
The offline verifier and the server of the audit log agree.

Owns: the `head` file as an anchor; the signatures that a run asks factotum for; what the
verifier promises of a log and of any file; the runs in which it keeps the promise; and a run
in which it does not.

Does not own: how the server writes its log, and the exactness of its own `verify`.
-/

namespace Infernode.Auditverify

open Text Lib9 Auditchain Auditfs List

/-! ### Anchors -/

/-- What the server's `head` file reads. -/
def headfile (s : Server) : List Nat := cvtca (hex s.tiphash ++ 32 :: (decimal s.seq ++ [10]))

def headAnchor (s : Server) : Anchor := ⟨hex s.tiphash, s.seq⟩

variable {s : Server} {records : List Record}

theorem parseanchor_headfile (size : s.tiphash.length = HASHLEN) (inWord : InWord s.seq) :
    parseanchor (readfd (headfile s)) = if s.seq < 0 then none else some (headAnchor s) := by
  have graphic : ∀ c, 32 < c ∧ c < 128 → (c == 32 || c == 9 || c == 10) = false := by
    intro c _
    simp only [Bool.or_eq_false_iff, beq_eq_false_iff_ne]
    omega
  have ascii : ∀ c ∈ hex s.tiphash ++ 32 :: (decimal s.seq ++ [10]), c < 128 := by
    intro c member
    simp only [mem_append, mem_cons, not_mem_nil, or_false] at member
    rcases member with member | rfl | member | rfl
    · exact (mem_hex member).2
    · decide
    · exact (decimal_bounds member).2
    · decide
  have nonempty : hex s.tiphash ≠ [] := by
    apply hex_ne_nil
    intro empty
    rw [empty] at size
    simp [HASHLEN] at size
  have split : tokens (fun c => c == 32 || c == 9 || c == 10)
      (hex s.tiphash ++ 32 :: (decimal s.seq ++ [10])) = [hex s.tiphash, decimal s.seq] := by
    rw [tokens_append_delim (by rfl), tokens_concat_delim (by rfl),
      tokens_eq_singleton nonempty fun c member => graphic c (mem_hex member),
      tokens_eq_singleton (decimal_ne_nil _) fun c member => graphic c (decimal_bounds member)]
    rfl
  rw [headfile, readfd_ascii ascii, parseanchor, split]
  simp only [strtoint_decimal inWord, length_hex, size, ne_eq, not_true_eq_false, false_or]
  rfl

variable {sha : Sha256}

theorem length_tip (records : List Record) : (tip sha records).length = HASHLEN := by
  have ⟨_, isTip⟩ := exists_digest_eq_tip sha records
  rw [← isTip, sha.length_digest]

theorem inWord_strtoint (text : Str) : InWord (strtoint text) := by
  unfold strtoint clamp InWord
  omega

private theorem inWord_lastSeqFrom {texts : List Str}
    (parsed : List.Forall₂ (fun line r => Auditfs.parserec line = some r) texts records) :
    ∀ {last : Int}, InWord last → InWord (lastSeqFrom last records) := by
  induction parsed with
  | nil => exact fun inWord => inWord
  | cons first _ ih =>
    intro _ _
    obtain ⟨seqf, _, _, -, seqEq, -⟩ := parserec_eq_some_iff.1 first
    have inWord : InWord (strtoint seqf) := inWord_strtoint seqf
    rw [seqEq] at inWord
    exact ih inWord

variable {log : List Record} {r : Record} {pk : Option Key} {steps : List (Env × Op)}

theorem inWord_seq (isSealed : Sealed sha s log) : InWord s.seq := by
  induction isSealed with
  | fresh =>
    simp only [fresh, InWord]
    omega
  | append _ _ _ _ _ stored _ _ _ _ =>
    rw [appendrec_stored stored]
    exact inWord_wrap _
  | restart _ _ _ parsed _ _ seqEq _ =>
    rw [seqEq]
    exact inWord_lastSeqFrom parsed ⟨by decide, by decide⟩
  | refused _ _ _ _ _ failed ih =>
    have ⟨_, stored⟩ := Option.ne_none_iff_exists'.1 failed
    simp only [appendrec, stored]
    exact ih
  | same _ _ _ _ seqEq ih =>
    rw [seqEq]
    exact ih

theorem parseanchor_of_sealed (isSealed : Sealed sha s log) :
    parseanchor (readfd (headfile s)) = if s.seq < 0 then none else some (headAnchor s) := by
  apply parseanchor_headfile
  · rw [isSealed.holds.tiphash]
    exact length_tip log
  · exact inWord_seq isSealed

/-! ### What the verifier promises -/

section Promises

variable (sha : Sha256)

/-- The state in which a step asks factotum for a signature. -/
def asks (env : Env) (s : Server) : Op → Option Server
  | .log data =>
    if s.up then
      match words (stripnl (c2string data)) with
      | source :: event :: rest =>
        if event == str "checkpoint" then none
        else
          match appendrec sha (env.appends 0) source event (join rest) s with
          | (_, some _) => none
          | (s', none) =>
            if CHECKEVERY ≤ wrap (s'.seq - s'.lastcheck) ∧
                CHECKEVERY ≤ wrap (s'.seq - s'.lastattempt) then
              some { s' with lastattempt := s'.seq }
            else none
      | _ => none
    else none
  | .ctl data => if s.up ∧ stripnl (c2string data) = str "checkpoint" then some s else none
  | .tick => if s.up ∧ s.lastcheck < s.seq then some { s with lastattempt := s.seq } else none
  | .restart _ => none

def Asked (steps : List (Env × Op)) (s : Server) : Prop :=
  ∃ front env op, front ++ [(env, op)] <+: steps ∧
    asks sha env (Auditfs.run sha (fresh sha) front) op = some s

def Unforgeable (steps : List (Env × Op)) (key : Key) : Prop :=
  ∀ cert text, key.verify cert text = true →
    ∃ s, Asked sha steps s ∧ text = cvtca (checkpointContent s)

/-- A running server's head at some time of the run. -/
def Published (steps : List (Env × Op)) (head : List Nat) : Prop :=
  ∃ front, front <+: steps ∧ (Auditfs.run sha (fresh sha) front).up = true ∧
    head = headfile (Auditfs.run sha (fresh sha) front)

def RightKey (steps : List (Env × Op)) (key : Key) : Prop :=
  ∀ env op, (env, op) ∈ steps → Signs key env

def readRecords (data : List Nat) : List Record :=
  (lines (readfd data)).filterMap Auditfs.parserec

def Checkpointed (data : List Nat) : Prop :=
  ∃ r ∈ (lines (c2string data)).filterMap Auditfs.parserec, r.event = str "checkpoint"

def AcceptsLog (steps : List (Env × Op)) : Prop :=
  ∀ pk head, (∀ key, pk = some key → RightKey steps key ∧
      Checkpointed (Auditfs.run sha (fresh sha) steps).file) →
    (∀ data, head = some data → Published sha steps data) →
    ∃ report, run sha pk head (Auditfs.run sha (fresh sha) steps).file = some report ∧
      report.fault = none ∧
      report.nrec = (replay sha (c2string (Auditfs.run sha (fresh sha) steps).file)).2.1

def SignedPrefix (steps : List (Env × Op)) : Prop :=
  ∀ key head data report, Unforgeable sha steps key → run sha (some key) head data = some report →
    report.fault = none → ∀ front r back, readRecords data = front ++ r :: back →
      r.event = str "checkpoint" →
      ∃ s log, Asked sha steps s ∧ Sealed sha s log ∧
        (HashChain.CollisionFree sha.digest (hashed sha front ++ hashed sha log) →
          front.map Record.bytes = log.map Record.bytes)

def AnchoredPrefix (steps : List (Env × Op)) : Prop :=
  ∀ pk data report front, front <+: steps →
    run sha pk (some (headfile (Auditfs.run sha (fresh sha) front))) data = some report →
    report.fault = none →
      ∃ log, Sealed sha (Auditfs.run sha (fresh sha) front) log ∧
        (HashChain.CollisionFree sha.digest (hashed sha (readRecords data) ++ hashed sha log) →
          ((readRecords data).take log.length).map Record.bytes = log.map Record.bytes)

/-- The verifier agrees with the server of a run. -/
structure Agrees (steps : List (Env × Op)) : Prop where
  accepts : AcceptsLog sha steps
  signed : SignedPrefix sha steps
  anchored : AnchoredPrefix sha steps

end Promises

/-! ### The log of a run is accepted -/

theorem seq_getElem (ledger : Ledger sha s records) {i : Nat} (inside : i < records.length) :
    records[i].seq = (i : Int) + 1 := by
  have same := congrArg (fun seqs : List Int => seqs[i]?) ledger.numbered
  simp only [getElem?_map, getElem?_eq_getElem inside, getElem?_range inside,
    Option.map_some, Option.some.injEq] at same
  exact same

theorem seq_pos (ledger : Ledger sha s records) (member : r ∈ records) : 0 < r.seq := by
  obtain ⟨_, inside, rfl⟩ := getElem_of_mem member
  rw [seq_getElem ledger inside]
  omega

theorem anchors_of_ledger {front back : List Record} (ledger : Ledger sha s (front ++ back)) :
    (∀ r ∈ front ++ back, r.seq = front.length → r.hash = hex (tip sha front)) ∧
      (front ≠ [] → ∃ r ∈ front ++ back, r.seq = front.length) := by
  rcases eq_nil_or_concat' front with rfl | ⟨before, last, rfl⟩
  · refine ⟨fun r member same => ?_, fun nonempty => absurd rfl nonempty⟩
    have positive := seq_pos ledger member
    rw [same] at positive
    simp at positive
  have here : before.length < (before ++ [last] ++ back).length := by
    simp
  have isLast : (before ++ [last] ++ back)[before.length] = last := by
    simp
  constructor
  · intro _ member same
    obtain ⟨i, inside, rfl⟩ := getElem_of_mem member
    have number := seq_getElem ledger inside
    rw [same, length_append, length_singleton] at number
    have index : i = before.length := by omega
    subst index
    rw [isLast, tip_concat]
    exact (chained_concat.1 (chainedFrom_append.1 ledger.chained).1).2.symm
  · intro _
    refine ⟨last, by simp, ?_⟩
    have number := seq_getElem ledger here
    rw [isLast] at number
    rw [number, length_append, length_singleton]
    push_cast
    rfl

theorem lines_of_ledger (ledger : Ledger sha s records) (whole : Whole s.file) :
    lines (readfd s.file) = records.map Record.line ∧
      lines (c2string s.file) = records.map Record.line := by
  have runes := runes_storedText fun r member => (ledger.stored r member).runes
  have split := lines_storedText fun r member => (ledger.stored r member).oneLine
  rw [ledger.file] at whole ⊢
  rw [readfd_cvtca runes whole, c2string_cvtca runes]
  exact ⟨split, split⟩

theorem parsed_of_stored (stored : ∀ r ∈ records, r.Stored) :
    List.Forall₂ (fun line r => Auditfs.parserec line = some r) (records.map Record.line)
      records := by
  induction records with
  | nil => exact List.Forall₂.nil
  | cons r _ ih =>
    exact List.Forall₂.cons (stored r mem_cons_self).parses
      (ih (forall_mem_cons.1 stored).2)

theorem verifychain_of_vouched (vouched : Vouched sha pk s records) (whole : Whole s.file)
    {anchor : Anchor} (signed : pk.isSome = true → Checkpointed s.file)
    (anchors : ∀ r ∈ records, r.seq = anchor.seq → r.hash = anchor.hash)
    (reached : 0 ≤ anchor.seq → (anchor.seq = 0 ∧ anchor.hash = hex (genesis sha)) ∨
      ∃ r ∈ records, r.seq = anchor.seq) :
    (verifychain sha (readfd s.file) pk anchor).fault = none ∧
      (verifychain sha (readfd s.file) pk anchor).nrec = (replay sha (c2string s.file)).2.1 := by
  have ledger := vouched.ledger
  have ⟨read, stored⟩ := lines_of_ledger ledger whole
  have parsed := parsed_of_stored ledger.stored
  refine verifychain_iff.2 ⟨records, ⟨?_, ledger.chained, vouched.checked, anchors, ?_, ?_⟩, ?_⟩
  · rw [read]
    exact parsed
  · intro wanted
    rcases reached wanted with atStart | found
    · exact Or.inl (decide_eq_true atStart)
    · exact Or.inr found
  · intro keyed
    have ⟨r, member, isCheckpoint⟩ := signed keyed
    rw [stored, filterMap_of_parsed parsed] at member
    exact Or.inr ⟨r, member, isCheckpoint⟩
  · rw [ledger.replay, ledger.lastSeq]

theorem run_acceptsLog (ok : RunVerifyOk sha (fresh sha) steps)
    (whole : Whole (Auditfs.run sha (fresh sha) steps).file) : AcceptsLog sha steps := by
  intro pk head keyed published
  have signed : pk.isSome = true → Checkpointed (Auditfs.run sha (fresh sha) steps).file := by
    intro isKey
    obtain ⟨key, rfl⟩ := Option.isSome_iff_exists.1 isKey
    exact (keyed key rfl).2
  have signs : ∀ key, pk = some key → ∀ env op, (env, op) ∈ steps → Signs key env :=
    fun key isKey => (keyed key isKey).1
  cases head with
  | none =>
    have ⟨records, vouched⟩ := run_vouches (fresh_vouched pk) ok signs
    rw [nil_append] at vouched
    refine ⟨_, rfl, verifychain_of_vouched vouched whole signed (fun r member same => ?_)
      (fun wanted => absurd wanted (by decide))⟩
    have positive := seq_pos vouched.ledger member
    rw [same] at positive
    exact absurd positive (by decide)
  | some data =>
    obtain ⟨front, ⟨back, rfl⟩, -, rfl⟩ := published data rfl
    rw [run_append] at whole signed ⊢
    have ⟨frontOk, backOk⟩ := ok.append
    have ⟨records, before⟩ := run_vouches (fresh_vouched pk) frontOk
      fun key isKey env op member => signs key isKey env op (mem_append_left _ member)
    have ⟨_, after⟩ := run_vouches before backOk
      fun key isKey env op member => signs key isKey env op (mem_append_right _ member)
    rw [nil_append] at before after
    have ⟨anchors, reached⟩ := anchors_of_ledger after.ledger
    have tipEq := before.ledger.tiphash
    have seqEq := before.ledger.seq
    have ⟨_, isSealed⟩ := run_sealed (Sealed.fresh : Sealed sha (fresh sha) []) front
    have read := parseanchor_of_sealed isSealed
    have nonneg := before.ledger.seq_nonneg
    rw [if_neg (by omega)] at read
    refine ⟨verifychain sha (readfd (Auditfs.run sha (Auditfs.run sha (fresh sha) front)
      back).file) pk (headAnchor (Auditfs.run sha (fresh sha) front)), ?_, ?_⟩
    · simp only [run, read, Option.map_some]
    apply verifychain_of_vouched after whole signed
    · intro r member same
      rw [headAnchor, seqEq] at same
      rw [headAnchor, tipEq]
      exact anchors r member same
    intro _
    rw [headAnchor, tipEq, seqEq]
    cases records with
    | nil => exact Or.inl ⟨rfl, rfl⟩
    | cons _ _ => exact Or.inr (reached (by simp))

/-! ### An accepted file -/

theorem asked_sealed (asked : Asked sha steps s) : ∃ log, Sealed sha s log := by
  obtain ⟨front, env, op, -, asking⟩ := asked
  have ⟨log, isSealed⟩ := run_sealed (Sealed.fresh : Sealed sha (fresh sha) []) front
  cases op with
  | log data =>
    have textRunes := (runes_c2string data).sublist (stripnl_sublist _)
    simp only [asks] at asking
    split_ifs at asking
    split at asking
    · rename_i source event rest split
      have ⟨sourceRunes, eventRunes, msgRunes⟩ := runes_fields textRunes split
      split_ifs at asking
      have ⟨longer, later⟩ := appendrec_sealed isSealed (env.appends 0)
        sourceRunes eventRunes msgRunes
      split at asking
      · cases asking
      rename_i s' outcome
      rw [outcome] at later
      split_ifs at asking
      cases asking
      exact ⟨longer, later.same _ rfl rfl rfl⟩
    · cases asking
  | ctl data =>
    simp only [asks] at asking
    split_ifs at asking
    cases asking
    exact ⟨log, isSealed⟩
  | tick =>
    simp only [asks] at asking
    split_ifs at asking
    cases asking
    exact ⟨log, isSealed.same _ rfl rfl rfl⟩
  | restart sysname => cases asking

theorem tiphash_of_content {cseq : Str} {tiphash : List Nat}
    (size : tiphash.length = s.tiphash.length)
    (same : cvtca (content (hex tiphash) cseq) = cvtca (checkpointContent s)) :
    hex tiphash = hex s.tiphash := by
  rw [content, checkpointContent, cstr_hex, append_assoc, append_assoc, cvtca_append,
    cvtca_append, cvtca_append, cvtca_append] at same
  have ascii : ∀ bytes, cvtca (hex bytes) = hex bytes :=
    fun bytes => cvtca_ascii fun c member => (mem_hex member).2
  rw [ascii, ascii] at same
  refine (append_inj (append_cancel_left same) ?_).1
  rw [length_hex, length_hex, size]

theorem accepted_of_run {head : Option (List Nat)} {data : List Nat} {report : Report}
    (ran : run sha pk head data = some report) (sound : report.fault = none) :
    ∃ anchor, (∀ contents, head = some contents → parseanchor (readfd contents) = some anchor) ∧
      Accepted sha pk anchor (genesis sha) 0
        (decide (anchor.seq = 0 ∧ anchor.hash = hex (genesis sha))) (lines (readfd data))
        (readRecords data) := by
  have accepted : ∀ anchor, report = verifychain sha (readfd data) pk anchor →
      Accepted sha pk anchor (genesis sha) 0
        (decide (anchor.seq = 0 ∧ anchor.hash = hex (genesis sha))) (lines (readfd data))
        (readRecords data) := by
    rintro anchor rfl
    obtain ⟨_, accepted, -⟩ := verifychain_iff.1 ⟨sound, rfl⟩
    rw [readRecords, filterMap_of_parsed accepted.parsed]
    exact accepted
  cases head with
  | none =>
    cases ran
    exact ⟨_, fun contents isHead => absurd isHead (by simp), accepted _ rfl⟩
  | some _ =>
    simp only [run, Option.map_eq_some_iff] at ran
    obtain ⟨anchor, parsed, rfl⟩ := ran
    refine ⟨anchor, ?_, accepted _ rfl⟩
    rintro other ⟨⟩
    exact parsed

theorem exists_signature {key : Key} {prev : List Nat}
    (faultless : checkfault (some key) prev r = none) :
    ∃ cert cseq, key.verify cert (cvtca (content (hex prev) cseq)) = true := by
  simp only [checkfault] at faultless
  split_ifs at faultless with other unsigned verifies
  rw [not_not.1 other] at verifies
  exact ⟨_, _, verifies⟩

theorem run_signedPrefix (sha : Sha256) (steps : List (Env × Op)) : SignedPrefix sha steps := by
  intro key _ _ _ unforgeable ran sound front r _ split isCheckpoint
  obtain ⟨_, -, accepted⟩ := accepted_of_run ran sound
  have checked := accepted.checked
  rw [split, checked_append] at checked
  have faultless : checkfault (some key) (tip sha front) r = none := checked.2.1 isCheckpoint
  have ⟨_, _, verifies⟩ := exists_signature faultless
  have ⟨s, asked, same⟩ := unforgeable _ _ verifies
  have ⟨log, isSealed⟩ := asked_sealed asked
  refine ⟨s, log, asked, isSealed, fun apart => bytes_eq_of_tip_eq apart ?_⟩
  apply hex_tip_injective
  rw [← isSealed.holds.tiphash]
  refine tiphash_of_content ?_ same
  rw [isSealed.holds.tiphash, length_tip, length_tip]

theorem run_anchoredPrefix (sha : Sha256) (steps : List (Env × Op)) :
    AnchoredPrefix sha steps := by
  intro _ data _ front _ ran sound
  have ⟨log, isSealed⟩ := run_sealed (Sealed.fresh : Sealed sha (fresh sha) []) front
  refine ⟨log, isSealed, fun apart => ?_⟩
  have ⟨anchor, isAnchor, accepted⟩ := accepted_of_run ran sound
  have read := isAnchor _ rfl
  rw [parseanchor_of_sealed isSealed] at read
  split_ifs at read with negative
  cases read
  -- The record whose hash the anchor holds ends the part that is the log.
  obtain ⟨part, rest, split, ends⟩ : ∃ part rest, readRecords data = part ++ rest ∧
      hex (tip sha part) = hex (tip sha log) := by
    have tipEq := isSealed.holds.tiphash
    rcases accepted.reached (not_lt.1 negative) with atStart | ⟨r, member, same⟩
    · have start := (of_decide_eq_true atStart).2
      rw [headAnchor, tipEq] at start
      exact ⟨[], readRecords data, rfl, start.symm⟩
    have hash := accepted.anchors r member same
    have ⟨before, rest, split⟩ := append_of_mem member
    have chained := accepted.chained
    rw [split] at chained
    refine ⟨before ++ [r], rest, by rw [split]; simp, ?_⟩
    rw [tip_concat, ← tipEq]
    exact (chainedFrom_append.1 chained).2.1.trans hash
  have sameBytes : part.map Record.bytes = log.map Record.bytes := by
    refine bytes_eq_of_tip_eq ?_ (hex_tip_injective ends)
    have inFile : ∀ bytes ∈ hashed sha part, bytes ∈ hashed sha (readRecords data) := by
      intro _ member
      rw [split]
      exact mem_hashed_append member
    intro left leftMember right rightMember
    simp only [mem_append] at leftMember rightMember
    exact apart left (mem_append.2 (leftMember.imp_left (inFile left))) right
      (mem_append.2 (rightMember.imp_left (inFile right)))
  have size := congrArg List.length sameBytes
  rw [length_map, length_map] at size
  rw [← size, split, take_left']
  · exact sameBytes
  · rfl

/-- In every run whose steps meet the condition, and whose file has no read begin inside a
character, the verifier agrees with the server. -/
theorem auditverify_agrees (sha : Sha256) (steps : List (Env × Op))
    (ok : RunVerifyOk sha (fresh sha) steps)
    (whole : Whole (Auditfs.run sha (fresh sha) steps).file) : Agrees sha steps :=
  ⟨run_acceptsLog ok whole, run_signedPrefix sha steps, run_anchoredPrefix sha steps⟩

/-! ### A run that meets the condition, and one that does not -/

theorem whole_of_short {file : List Nat} (short : file.length ≤ BUFLEN) : Whole file := by
  intro _ _ there
  have inside := (List.getElem?_eq_some_iff.1 there).1
  simp only [BUFLEN] at inside short
  omega

theorem auditverify_agrees_hello :
    Agrees lastBytes
      [(quietEnv, .restart (str "host")), (quietEnv, .log (str "login failed for bob\n"))] := by
  have starts : VerifyOk (fresh lastBytes) quietEnv (.restart (str "host")) := by
    refine ⟨⟨fun _ => Or.inl rfl, by decide, by decide, by decide, ?_⟩,
      fun _ isLog => nomatch isLog⟩
    unfold WellSpaced
    decide +kernel
  have writes : ∀ s : Server, s.seq + 2 ≤ 2147483647 →
      VerifyOk s quietEnv (.log (str "login failed for bob\n")) := by
    have read : words (stripnl (c2string (str "login failed for bob\n"))) =
        [str "login", str "failed", str "for", str "bob"] := by decide
    intro _ room
    constructor
    · refine ⟨fun _ => Or.inl rfl, room, fun source event rest split => ?_⟩
      rw [read] at split
      simp only [List.cons.injEq] at split
      obtain ⟨rfl, rfl, rfl⟩ := split
      refine ⟨by decide, by decide, ?_⟩
      unfold WellSpaced
      decide +kernel
    · rintro data ⟨⟩ source event rest split -
      rw [read] at split
      simp only [List.cons.injEq] at split
      obtain ⟨rfl, rfl, rfl⟩ := split
      decide
  have room : (step lastBytes quietEnv (.restart (str "host")) (fresh lastBytes)).1.seq + 2 ≤
      2147483647 := by decide +kernel
  exact auditverify_agrees lastBytes _ ⟨starts, writes _ room, trivial⟩
    (whole_of_short (by decide +kernel))

/-- An event that a NUL keeps apart from `checkpoint` in a write is `checkpoint` in the file:
the verifier looks for the head in the message of that record. -/
theorem auditverify_refuses_nul_event :
    ¬Agrees lastBytes
      [(quietEnv, .restart (str "host")),
        (quietEnv, .log (str "door checkpoint\x00 opened\n"))] := by
  intro agrees
  obtain ⟨_, ran, sound, -⟩ := agrees.accepts none none
    (fun key isKey => nomatch isKey) (fun data isHead => nomatch isHead)
  have faults : ((run lastBytes none none (Auditfs.run lastBytes (fresh lastBytes)
      [(quietEnv, .restart (str "host")),
        (quietEnv, .log (str "door checkpoint\x00 opened\n"))]).file).bind Report.fault) =
      some (.headMismatch 2) := by
    decide +kernel
  rw [ran, Option.bind_some, sound] at faults
  cases faults

end Infernode.Auditverify
