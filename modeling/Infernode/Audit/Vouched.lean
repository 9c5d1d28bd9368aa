import Infernode.Audit.Accepts

/-!
The checkpoints of a log pass the offline verifier's test.

Owns: what the verifier makes of a checkpoint's message; the keys that take the answers of
factotum; and the condition on a step under which every record that says `checkpoint` is one
of the server's.

Does not own: the anchors, and what the verifier's acceptance says about a file.
-/

namespace Infernode.Auditverify

open Text Lib9 Auditchain Auditfs List

/-! ### The message of a checkpoint -/

theorem splitkv_append {k : Str} (clean : 61 ∉ k) (v : Str) : splitkv (k ++ 61 :: v) = (k, v) := by
  have other : ∀ c ∈ k, (c != 61) = true := by
    intro c member
    have different : c ≠ 61 := fun same => clean (same ▸ member)
    simpa using different
  have key : (k ++ 61 :: v).takeWhile (· != 61) = k := by
    rw [takeWhile_append_of_pos other]
    simp
  have value : (k ++ 61 :: v).dropWhile (· != 61) = 61 :: v := by
    rw [dropWhile_append_of_pos other]
    simp
  rw [splitkv, if_pos (by simp), key, value]
  rfl

variable {bytes : List Nat} {io : Append} {env : Env}

theorem unhex_hex (small : ∀ b ∈ bytes, b < 256) : unhex (hex bytes) = bytes := by
  induction bytes with
  | nil => rfl
  | cons b rest ih =>
    have later := ih (forall_mem_cons.1 small).2
    have bSmall := small b mem_cons_self
    have shape : hex (b :: rest) = hexchar (b / 16 % 16) :: hexchar (b % 16) :: hex rest := by
      simp [hex]
    rw [shape, unhex, later, hexval_hexchar (Nat.mod_lt _ (by decide)),
      hexval_hexchar (Nat.mod_lt _ (by decide))]
    congr 1
    omega

private theorem splitkv_label {label : Str} (k value : Str) (ends : label = k ++ [61])
    (clean : 61 ∉ k) : splitkv (label ++ value) = (k, value) := by
  have shape : label ++ value = k ++ 61 :: value := by
    rw [ends]
    simp
  rw [shape, splitkv_append clean]

theorem parsecheck_checkpointMsg (s : Server) (cert : List Nat) :
    parsecheck (checkpointMsg s cert) = (hex s.tiphash, decimal s.seq, hex cert) := by
  have head : splitkv (str "head=" ++ hex s.tiphash) = (str "head", hex s.tiphash) :=
    splitkv_label _ _ (by decide) (by decide)
  have number : splitkv (str "seq=" ++ decimal s.seq) = (str "seq", decimal s.seq) :=
    splitkv_label _ _ (by decide) (by decide)
  have sig : splitkv (str "sig=" ++ hex cert) = (str "sig", hex cert) :=
    splitkv_label _ _ (by decide) (by decide)
  have seqIsHead : ¬str "seq" = str "head" := by decide
  have sigIsHead : ¬str "sig" = str "head" := by decide
  have sigIsSeq : ¬str "sig" = str "seq" := by decide
  rw [parsecheck, words_checkpointMsg]
  simp only [foldl_cons, foldl_nil, head, number, sig, seqIsHead, sigIsHead, sigIsSeq,
    if_true, if_false]

theorem content_checkpoint (s : Server) :
    content (hex s.tiphash) (decimal s.seq) = checkpointContent s := by
  have noNul : 0 ∉ decimal s.seq := fun member =>
    absurd (decimal_bounds member).1 (by decide)
  rw [content, checkpointContent, cstr_hex, cstr_of_no_nul noNul]

/-! ### The server's checkpoints -/

/-- The key takes what factotum answers for a signature of the text. -/
structure Genuine (key : Key) (cert text : List Nat) : Prop where
  nonempty : cert ≠ []
  bytes : ∀ b ∈ cert, b < 256
  verifies : key.verify (c2string cert) text = true

def Signs (key : Key) (env : Env) : Prop :=
  ∀ text cert, env.factotumsign text = some cert → Genuine key cert text

theorem hex_ne_nil (nonempty : bytes ≠ []) : hex bytes ≠ [] := by
  intro empty
  have size := length_hex bytes
  rw [empty, length_nil] at size
  have filled := length_pos_iff.2 nonempty
  omega

variable {sha : Sha256}

variable {pk : Option Key} {s : Server} {records : List Record}

theorem checkfault_checkpoint {cert : List Nat} {r : Record}
    (genuine : ∀ key, pk = some key → Genuine key cert (cvtca (checkpointContent s)))
    (message : r.msg = checkpointMsg s cert) : checkfault pk s.tiphash r = none := by
  rw [checkfault, message, parsecheck_checkpointMsg]
  simp only [ne_eq, not_true_eq_false, if_false]
  cases pk with
  | none => rfl
  | some key =>
    have ⟨nonempty, small, verifies⟩ := genuine key rfl
    simp only
    rw [if_neg (hex_ne_nil nonempty), unhex_hex small, content_checkpoint, if_pos verifies]

/-- A ledger whose checkpoint records are free of faults. -/
structure Vouched (sha : Sha256) (pk : Option Key) (s : Server) (records : List Record) :
    Prop where
  ledger : Ledger sha s records
  checked : Checked sha pk (genesis sha) records

/-- A step keeps a vouched ledger: it may add records. -/
def Vouches (sha : Sha256) (pk : Option Key) (s : Server) (records : List Record) : Prop :=
  ∃ more, Vouched sha pk s (records ++ more)

theorem Vouched.refl (vouched : Vouched sha pk s records) : Vouches sha pk s records :=
  ⟨[], by rwa [append_nil]⟩

theorem Vouched.setCadence (vouched : Vouched sha pk s records) (check attempt : Int) :
    Vouched sha pk { s with lastcheck := check, lastattempt := attempt } records :=
  ⟨vouched.ledger.setCadence check attempt, vouched.checked⟩

theorem Vouches.trans {more : List Record} (vouches : Vouches sha pk s (records ++ more)) :
    Vouches sha pk s records := by
  have ⟨others, _⟩ := vouches
  exact ⟨more ++ others, by rwa [← append_assoc]⟩

theorem appendrec_vouches (vouched : Vouched sha pk s records) (clean : io.Clean)
    {source event msg : Str} (storable : Storable source event msg) (sourceRunes : Runes source)
    (eventRunes : Runes event) (msgRunes : Runes msg) (room : s.seq + 1 ≤ 2147483647)
    (faultless : cstr (clean1 event) = str "checkpoint" →
      checkfault pk s.tiphash (sealedRecord sha io source event msg s) = none) :
    Vouches sha pk (appendrec sha io source event msg s).1 records := by
  rcases clean with stored | refused
  · refine ⟨_, vouched.ledger.append stored storable sourceRunes eventRunes msgRunes room,
      checked_append.2 ⟨vouched.checked, ?_, trivial⟩⟩
    rw [vouched.ledger.tiphash] at faultless
    exact faultless
  · rw [appendrec_refused refused]
    exact vouched.refl

theorem docheckpoint_vouches (vouched : Vouched sha pk s records) (clean : io.Clean)
    {sign : List Nat → Option (List Nat)} (room : s.seq + 1 ≤ 2147483647)
    (signs : ∀ key, pk = some key → ∀ text cert, sign text = some cert → Genuine key cert text) :
    Vouches sha pk (docheckpoint sha io sign s).1 records := by
  unfold docheckpoint
  cases signature : sign (cvtca (checkpointContent s)) with
  | none => exact vouched.refl
  | some cert =>
    have faultless : checkfault pk s.tiphash
        (sealedRecord sha io (str "-") (str "checkpoint") (checkpointMsg s cert) s) = none :=
      checkfault_checkpoint (fun key isKey => signs key isKey _ _ signature)
        (cstr_cleannl_checkpointMsg s cert)
    have vouches := appendrec_vouches vouched clean (checkpoint_storable s cert)
      runes_dash runes_checkpoint (runes_checkpointMsg s cert) room fun _ => faultless
    simp only
    rcases outcome : appendrec sha io (str "-") (str "checkpoint") (checkpointMsg s cert) s with
      ⟨s', _ | err⟩
    · rw [outcome] at vouches
      have ⟨more, later⟩ := vouches
      exact ⟨more, later.setCadence _ _⟩
    · rw [outcome] at vouches
      exact vouches

/-! ### Runs -/

/-- No written event turns into `checkpoint` on its way into the file. -/
def Reserved (data : List Nat) : Prop :=
  ∀ source event rest, words (stripnl (c2string data)) = source :: event :: rest →
    event ≠ str "checkpoint" → cstr (clean1 event) ≠ str "checkpoint"

/-- The condition on a step: that under which the log does not break itself, and that no
written event becomes the reserved one. -/
def VerifyOk (s : Server) (env : Env) (op : Op) : Prop :=
  StepOk s env op ∧ ∀ data, op = .log data → Reserved data

theorem writelog_vouches (vouched : Vouched sha pk s records) (clean : ∀ i, (env.appends i).Clean)
    (room : s.seq + 2 ≤ 2147483647) {data : List Nat}
    (storable : ∀ source event rest, words (stripnl (c2string data)) = source :: event :: rest →
      Storable source event (join rest)) (reserved : Reserved data)
    (signs : ∀ key, pk = some key → Signs key env) :
    Vouches sha pk (writelog sha env s (stripnl (c2string data))).1 records := by
  have textRunes := (runes_c2string data).sublist (stripnl_sublist _)
  unfold writelog
  split
  · rename_i source event rest split
    have ⟨sourceRunes, eventRunes, msgRunes⟩ := runes_fields textRunes split
    split_ifs with isReserved
    · exact vouched.refl
    have ordinary := reserved source event rest split (by simpa using isReserved)
    have vouches := appendrec_vouches vouched (clean 0) (storable source event rest split)
      sourceRunes eventRunes msgRunes (by omega) fun same => absurd same ordinary
    rcases outcome : appendrec sha (env.appends 0) source event (join rest) s with ⟨s', _ | err⟩
    · rw [outcome] at vouches
      have ⟨more, later⟩ := vouches
      have nextSeq : (appendrec sha (env.appends 0) source event (join rest) s).1.seq ≤
          s.seq + 1 := appendrec_seq_le vouched.ledger.seq_nonneg (by omega)
      rw [outcome] at nextSeq
      simp only at nextSeq
      simp only
      split_ifs
      · exact (docheckpoint_vouches (later.setCadence s'.lastcheck s'.seq) (clean 1)
          (by simp only; omega) signs).trans
      · exact ⟨more, later⟩
    · rw [outcome] at vouches
      exact vouches
  · exact vouched.refl

/-- A step that meets the condition keeps a vouched ledger. -/
theorem step_vouches (vouched : Vouched sha pk s records) {op : Op} (ok : VerifyOk s env op)
    (signs : ∀ key, pk = some key → Signs key env) :
    Vouches sha pk (step sha env op s).1 records := by
  obtain ⟨ok, reserved⟩ := ok
  cases op with
  | log data =>
    obtain ⟨clean, room, storable⟩ := ok
    simp only [step]
    split_ifs
    · exact writelog_vouches vouched clean room storable (reserved data rfl) signs
    · exact vouched.refl
  | ctl _ =>
    obtain ⟨clean, room⟩ := ok
    simp only [step, writectl]
    split_ifs
    · exact vouched.refl
    · exact docheckpoint_vouches vouched (clean 0) (by omega) signs
    · exact vouched.refl
  | tick =>
    obtain ⟨clean, room⟩ := ok
    simp only [step, tick]
    split_ifs
    · exact docheckpoint_vouches (vouched.setCadence s.lastcheck s.seq) (clean 0)
        (by simp only; omega) signs
    · exact vouched.refl
    · exact vouched.refl
  | restart sysname =>
    obtain ⟨clean, _, storable⟩ := ok
    have ledger := vouched.ledger
    have replayed := ledger.replay
    have started : Vouched sha pk ⟨s.file, true, tip sha records, records.length, 0, 0⟩ records :=
      ⟨⟨ledger.file, ledger.stored, ledger.chained, ledger.numbered, rfl, rfl⟩, vouched.checked⟩
    have count := ledger.seq
    have okRunes : Runes (str "ok") := by
      unfold Runes
      decide
    have vouches := appendrec_vouches started (clean 0) storable runes_auditfs runes_start
      (runes_bootMsg sysname okRunes) (by simp only; omega)
      (fun same => absurd same (by decide))
    simp only [step, init, replayed]
    rw [if_neg (by omega)]
    rcases outcome : appendrec sha (env.appends 0) (str "auditfs") (str "start")
      (bootMsg sysname (str "ok")) ⟨s.file, true, tip sha records, records.length, 0, 0⟩ with
      ⟨s', _ | err⟩
    · rw [outcome] at vouches
      exact vouches
    rw [outcome] at vouches
    obtain ⟨more, later⟩ := vouches
    exact ⟨more, ⟨later.ledger.file, later.ledger.stored, later.ledger.chained,
      later.ledger.numbered, later.ledger.tiphash, later.ledger.seq⟩, later.checked⟩

section Runs

variable (sha : Sha256)

def RunVerifyOk (s : Server) : List (Env × Op) → Prop
  | [] => True
  | (env, op) :: rest => VerifyOk s env op ∧ RunVerifyOk (step sha env op s).1 rest

end Runs

theorem fresh_vouched (pk : Option Key) : Vouched sha pk (fresh sha) [] := ⟨fresh_ledger, trivial⟩

theorem run_vouches (vouched : Vouched sha pk s records) {steps : List (Env × Op)}
    (ok : RunVerifyOk sha s steps)
    (signs : ∀ key, pk = some key → ∀ env op, (env, op) ∈ steps → Signs key env) :
    Vouches sha pk (Auditfs.run sha s steps) records := by
  induction steps generalizing s records with
  | nil => exact vouched.refl
  | cons first _ ih =>
    have ⟨_, next⟩ := step_vouches vouched ok.1 fun key isKey =>
      signs key isKey first.1 first.2 mem_cons_self
    exact (ih next ok.2 fun key isKey env op member =>
      signs key isKey env op (mem_cons_of_mem _ member)).trans

theorem RunVerifyOk.append {front back : List (Env × Op)} (ok : RunVerifyOk sha s (front ++ back)) :
    RunVerifyOk sha s front ∧ RunVerifyOk sha (Auditfs.run sha s front) back := by
  induction front generalizing s with
  | nil => exact ⟨trivial, ok⟩
  | cons _ _ ih =>
    have ⟨frontOk, backOk⟩ := ih ok.2
    exact ⟨⟨ok.1, frontOk⟩, backOk⟩

theorem run_append (s : Server) (front back : List (Env × Op)) :
    Auditfs.run sha s (front ++ back) = Auditfs.run sha (Auditfs.run sha s front) back := by
  induction front generalizing s with
  | nil => rfl
  | cons _ _ ih => exact ih _

end Infernode.Auditverify
