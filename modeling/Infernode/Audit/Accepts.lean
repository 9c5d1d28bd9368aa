import Infernode.Audit.Auditverify
import Infernode.Audit.Tamper

/-!
What the offline verifier reads and accepts.

Owns: the files that are read whole in spite of the buffer, and the chains of records that
`verifychain` accepts.
-/

namespace Infernode.Auditverify

open Text Lib9 Auditchain Auditfs List

/-! ### Reading through a buffer -/

/-- No read after the first begins inside a character. -/
def Whole (file : List Nat) : Prop :=
  ∀ k b, file[BUFLEN * (k + 1)]? = some b → isTx b = false

private theorem isTx_tail (c : Nat) : ∀ b ∈ (runetochar c).tail, isTx b = true := by
  have continues : ∀ n, isTx (0x80 + n % 64) = true := by
    intro _
    simp only [isTx, Bool.and_eq_true, decide_eq_true_eq]
    omega
  unfold runetochar
  split_ifs
  · simp
  · simpa using continues c
  · simpa using ⟨continues (c / 64), continues c⟩

variable {text line : Str} {pk : Option Key} {prev : List Nat} {anchor : Anchor} {nsig : Nat}
    {anchored : Bool} {rest : List Str} {r : Record}

theorem cvtca_cut : ∀ {front back : List Nat}, front ++ back = cvtca text →
    (∀ b ∈ back.head?, isTx b = false) →
    ∃ left right, text = left ++ right ∧ front = cvtca left ∧ back = cvtca right := by
  induction text with
  | nil =>
    intro front back split _
    obtain ⟨rfl, rfl⟩ := append_eq_nil_iff.1 split
    exact ⟨[], [], rfl, rfl, rfl⟩
  | cons c text ih =>
    intro front _ split starts
    rw [cvtca_cons] at split
    rcases append_eq_append_iff.1 split with ⟨rest, charEq, backEq⟩ | ⟨more, frontEq, restEq⟩
    · cases front with
      | nil => exact ⟨[], c :: text, rfl, rfl, by rw [cvtca_cons, ← split, nil_append]⟩
      | cons _ _ =>
        cases rest with
        | nil =>
          rw [append_nil] at charEq
          rw [nil_append] at backEq
          refine ⟨[c], text, rfl, ?_, backEq⟩
          rw [cvtca_cons, charEq]
          simp [cvtca]
        | cons d _ =>
          have tail := isTx_tail c d (by rw [charEq]; simp)
          have head := starts d (by rw [backEq]; rfl)
          rw [tail] at head
          cases head
    · obtain ⟨left, right, rfl, rfl, backEq⟩ := ih restEq.symm starts
      exact ⟨c :: left, right, rfl, by rw [cvtca_cons, frontEq], backEq⟩

private theorem readloop_cvtca : ∀ {fuel : Nat} {text : Str}, (cvtca text).length ≤ fuel →
    Runes text → Whole (cvtca text) → readloop fuel (cvtca text) = text := by
  intro fuel
  induction fuel with
  | zero =>
    intro text enough runes _
    rw [readloop, ← c2string_cvtca runes, eq_nil_of_length_eq_zero (Nat.le_zero.1 enough)]
    rfl
  | succ fuel ih =>
    intro text _ runes whole
    rw [readloop]
    split_ifs with done
    · rw [← c2string_cvtca runes, done]
      rfl
    have cut := take_append_drop BUFLEN (cvtca text)
    have starts : ∀ b ∈ ((cvtca text).drop BUFLEN).head?, isTx b = false := by
      intro b first
      rw [head?_drop] at first
      exact whole 0 b first
    obtain ⟨left, right, rfl, leftEq, rightEq⟩ := cvtca_cut cut starts
    have leftRunes : Runes left := fun c member => runes c (mem_append_left _ member)
    have rightRunes : Runes right := fun c member => runes c (mem_append_right _ member)
    have fewer : (cvtca right).length ≤ fuel := by
      have filled : 0 < (cvtca (left ++ right)).length := length_pos_iff.2 done
      rw [← rightEq, length_drop]
      simp only [BUFLEN]
      omega
    have later : Whole (cvtca right) := by
      intro k b there
      refine whole (k + 1) b ?_
      rw [← rightEq, getElem?_drop] at there
      have shift : BUFLEN * (k + 1 + 1) = BUFLEN + BUFLEN * (k + 1) := by
        rw [Nat.mul_succ, Nat.add_comm]
      rwa [shift]
    rw [leftEq, rightEq, c2string_cvtca leftRunes, ih fewer rightRunes later]

theorem readfd_cvtca (runes : Runes text) (whole : Whole (cvtca text)) :
    readfd (cvtca text) = text := readloop_cvtca (le_refl _) runes whole

theorem readfd_ascii (ascii : ∀ c ∈ text, c < 128) : readfd (cvtca text) = text := by
  refine readfd_cvtca (fun c member => lt_trans (ascii c member) (by decide)) fun k b there => ?_
  rw [cvtca_ascii ascii] at there
  have small := ascii b (mem_of_getElem? there)
  simp only [isTx, Bool.and_eq_false_iff, decide_eq_false_iff_not]
  omega

/-! ### What the verifier accepts -/

section Accepted

variable (sha : Sha256)

def Checked (pk : Option Key) (prev : List Nat) : List Record → Prop
  | [] => True
  | r :: rest => (r.event = str "checkpoint" → checkfault pk prev r = none) ∧
      Checked pk (extend sha prev r.bytes) rest

/-- The lines are those of a chain of records that passes every test. -/
structure Accepted (pk : Option Key) (anchor : Anchor) (prev : List Nat) (nsig : Nat)
    (anchored : Bool) (texts : List Str) (records : List Record) : Prop where
  parsed : List.Forall₂ (fun line r => Auditfs.parserec line = some r) texts records
  chained : ChainedFrom sha prev records
  checked : Checked sha pk prev records
  anchors : ∀ r ∈ records, r.seq = anchor.seq → r.hash = anchor.hash
  reached : 0 ≤ anchor.seq → anchored = true ∨ ∃ r ∈ records, r.seq = anchor.seq
  signed : pk.isSome = true → nsig ≠ 0 ∨ ∃ r ∈ records, r.event = str "checkpoint"

end Accepted

variable {sha : Sha256}

theorem checked_append {front back : List Record} :
    Checked sha pk prev (front ++ back) ↔
      Checked sha pk prev front ∧ Checked sha pk (tipFrom sha prev front) back := by
  induction front generalizing prev with
  | nil => simp [Checked, tipFrom]
  | cons _ _ ih =>
    simp only [cons_append, Checked]
    rw [ih, and_assoc]
    rfl

private theorem verifyLines_cons {nrec : Int} {ncheck : Nat} (nonempty : line ≠ [])
    (parses : Auditfs.parserec line = some r) (isSealed : hex (extend sha prev r.bytes) = r.hash) :
    verifyLines sha pk anchor prev nrec ncheck nsig anchored (line :: rest) =
      match (if r.event == str "checkpoint" then checkfault pk prev r else none) with
      | some fault => ⟨nrec, if r.event == str "checkpoint" then ncheck + 1 else ncheck, nsig,
          some fault⟩
      | none =>
        if r.seq = anchor.seq ∧ r.hash ≠ anchor.hash then
          ⟨r.seq, if r.event == str "checkpoint" then ncheck + 1 else ncheck,
            if r.event == str "checkpoint" && pk.isSome then nsig + 1 else nsig,
            some (.anchorMismatch r.seq)⟩
        else
          verifyLines sha pk anchor (extend sha prev r.bytes) r.seq
            (if r.event == str "checkpoint" then ncheck + 1 else ncheck)
            (if r.event == str "checkpoint" && pk.isSome then nsig + 1 else nsig)
            (anchored || decide (r.seq = anchor.seq)) rest := by
  have chains : (hex (extend sha prev (cvtca (canon r.seq r.time r.source r.event r.msg))) !=
      r.hash) = false := by
    unfold Record.bytes Record.canon at isSealed
    simpa using isSealed
  rw [verifyLines, if_neg (by simpa using nonempty), parserec, parses]
  simp only [chains, Bool.false_eq_true, if_false]
  rfl

private theorem accepted_cons {records : List Record} (parses : Auditfs.parserec line = some r)
    (isSealed : hex (extend sha prev r.bytes) = r.hash) :
    Accepted sha pk anchor prev nsig anchored (line :: rest) (r :: records) ↔
      ((r.event = str "checkpoint" → checkfault pk prev r = none) ∧
        (r.seq = anchor.seq → r.hash = anchor.hash)) ∧
      Accepted sha pk anchor (extend sha prev r.bytes)
        (if r.event == str "checkpoint" && pk.isSome then nsig + 1 else nsig)
        (anchored || decide (r.seq = anchor.seq)) rest records := by
  constructor
  · rintro ⟨parsed, chained, checked, anchors, reached, signed⟩
    rcases parsed with _ | ⟨-, parsed⟩
    refine ⟨⟨checked.1, anchors r mem_cons_self⟩, parsed, chained.2, checked.2,
      (forall_mem_cons.1 anchors).2, fun wanted => ?_,
      fun keyed => ?_⟩
    · rcases reached wanted with reached | ⟨other, member, same⟩
      · exact Or.inl (by rw [reached, Bool.true_or])
      · rcases mem_cons.1 member with rfl | member
        · exact Or.inl (by rw [decide_eq_true same, Bool.or_true])
        · exact Or.inr ⟨other, member, same⟩
    rcases signed keyed with signed | ⟨other, member, same⟩
    · left
      split_ifs <;> omega
    rcases mem_cons.1 member with rfl | member
    · left
      rw [same, keyed]
      simp
    · exact Or.inr ⟨other, member, same⟩
  · rintro ⟨⟨fault, anchorsHere⟩, parsed, chained, checked, anchors, reached, signed⟩
    refine ⟨List.Forall₂.cons parses parsed, ⟨isSealed, chained⟩, ⟨fault, checked⟩,
      forall_mem_cons.2 ⟨anchorsHere, anchors⟩, fun wanted => ?_, fun keyed => ?_⟩
    · rcases reached wanted with reached | ⟨other, member, same⟩
      · rcases Bool.or_eq_true_iff.1 reached with before | here
        · exact Or.inl before
        · exact Or.inr ⟨r, mem_cons_self, of_decide_eq_true here⟩
      · exact Or.inr ⟨other, mem_cons_of_mem _ member, same⟩
    rcases signed keyed with signed | ⟨other, member, same⟩
    · by_cases here : r.event = str "checkpoint"
      · exact Or.inr ⟨r, mem_cons_self, here⟩
      · left
        simpa [here] using signed
    · exact Or.inr ⟨other, mem_cons_of_mem _ member, same⟩

private theorem accepted_shape {records : List Record} (parses : Auditfs.parserec line = some r)
    (accepted : Accepted sha pk anchor prev nsig anchored (line :: rest) records) :
    ∃ later, records = r :: later := by
  rcases accepted.parsed with _ | ⟨first, -⟩
  rw [parses] at first
  cases first
  exact ⟨_, rfl⟩

/-- The verifier accepts exactly the lines of a chain that passes every test, and reports the
number of its last record. -/
theorem verifyLines_iff {n : Int} : ∀ {texts : List Str},
    (∀ line ∈ texts, line ≠ []) → ∀ {prev : List Nat} {nrec : Int} {ncheck nsig : Nat}
      {anchored : Bool},
    ((verifyLines sha pk anchor prev nrec ncheck nsig anchored texts).fault = none ∧
        (verifyLines sha pk anchor prev nrec ncheck nsig anchored texts).nrec = n) ↔
      ∃ records, Accepted sha pk anchor prev nsig anchored texts records ∧
        n = lastSeqFrom nrec records := by
  intro texts
  induction texts with
  | nil =>
    intro _ prev nrec ncheck nsig anchored
    have ends : (verifyLines sha pk anchor prev nrec ncheck nsig anchored []).nrec = nrec := by
      rw [verifyLines]
      split_ifs <;> rfl
    rw [ends]
    constructor
    · rintro ⟨sound, rfl⟩
      rw [verifyLines] at sound
      split_ifs at sound with missing unsigned
      · refine ⟨[], ⟨List.Forall₂.nil, trivial, trivial, by simp, fun wanted => Or.inl ?_,
          fun keyed => Or.inl fun zero => unsigned ⟨keyed, zero⟩⟩, rfl⟩
        by_contra still
        exact missing ⟨wanted, by simpa using still⟩
    rintro ⟨records, accepted, rfl⟩
    cases accepted.parsed
    refine ⟨?_, rfl⟩
    rw [verifyLines, if_neg, if_neg]
    · rintro ⟨keyed, zero⟩
      rcases accepted.signed keyed with signed | ⟨r, member, -⟩
      · exact signed zero
      · cases member
    rintro ⟨wanted, still⟩
    rcases accepted.reached wanted with reached | ⟨r, member, -⟩
    · rw [reached] at still
      cases still
    · cases member
  | cons line _ ih =>
    intro nonempty prev _ _ _ _
    have lineNonempty := nonempty line mem_cons_self
    have later := @ih fun other member =>
      nonempty other (mem_cons_of_mem _ member)
    cases parses : Auditfs.parserec line with
    | none =>
      constructor
      · rintro ⟨sound, -⟩
        rw [verifyLines, if_neg (by simpa using lineNonempty), parserec, parses] at sound
        cases sound
      rintro ⟨records, accepted, -⟩
      rcases accepted.parsed with _ | ⟨first, -⟩
      rw [parses] at first
      cases first
    | some r =>
      by_cases isSealed : hex (extend sha prev r.bytes) = r.hash
      · rw [verifyLines_cons lineNonempty parses isSealed]
        have faultless : (if r.event == str "checkpoint" then checkfault pk prev r else none) =
            none ↔ (r.event = str "checkpoint" → checkfault pk prev r = none) := by
          by_cases check : r.event = str "checkpoint" <;> simp [check]
        cases fault : (if r.event == str "checkpoint" then checkfault pk prev r else none) with
        | some _ =>
          constructor
          · rintro ⟨sound, -⟩
            cases sound
          rintro ⟨records, accepted, -⟩
          obtain ⟨records, rfl⟩ := accepted_shape parses accepted
          rw [faultless.2 accepted.checked.1] at fault
          cases fault
        | none =>
          have clean := faultless.1 fault
          dsimp only
          by_cases same : r.seq = anchor.seq → r.hash = anchor.hash
          · rw [if_neg (by simpa using same), later]
            constructor
            · rintro ⟨records, accepted, rfl⟩
              refine ⟨r :: records, ?_, rfl⟩
              exact (accepted_cons parses isSealed).2 ⟨⟨clean, same⟩, accepted⟩
            · rintro ⟨records, accepted, rfl⟩
              obtain ⟨records, rfl⟩ := accepted_shape parses accepted
              exact ⟨records, ((accepted_cons parses isSealed).1 accepted).2, rfl⟩
          · rw [if_pos (by simpa using same)]
            constructor
            · rintro ⟨sound, -⟩
              cases sound
            · rintro ⟨records, accepted, rfl⟩
              obtain ⟨records, rfl⟩ := accepted_shape parses accepted
              exact absurd ((accepted_cons parses isSealed).1 accepted).1.2 same
      · constructor
        · rintro ⟨sound, -⟩
          have breaks : (hex (extend sha prev (cvtca
              (canon r.seq r.time r.source r.event r.msg))) != r.hash) = true := by
            unfold Record.bytes Record.canon at isSealed
            simpa using isSealed
          rw [verifyLines, if_neg (by simpa using lineNonempty), parserec, parses] at sound
          simp only [breaks, if_true] at sound
          cases sound
        · rintro ⟨records, accepted, -⟩
          obtain ⟨_, rfl⟩ := accepted_shape parses accepted
          exact absurd accepted.chained.1 isSealed

/-- `verifychain` accepts exactly the chains that pass every test from the genesis on. -/
theorem verifychain_iff {data : Str} {n : Int} :
    ((verifychain sha data pk anchor).fault = none ∧ (verifychain sha data pk anchor).nrec = n) ↔
      ∃ records, Accepted sha pk anchor (genesis sha) 0
        (decide (anchor.seq = 0 ∧ anchor.hash = hex (genesis sha))) (lines data) records ∧
        n = lastSeq records :=
  verifyLines_iff fun _ member => lines_nonempty member

end Infernode.Auditverify
