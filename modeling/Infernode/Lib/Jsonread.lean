import Infernode.Lib.Json

/-!
The reader of `appl/lib/json.b` returns.

Owns: the rule for what follows from a reading that returns; that every part of the reader
returns and leaves less than it was given; and that `readjson` comes to a value, to the end
of the input, or to a syntax error on every buffer.
-/

namespace Infernode.Json

open Text

variable {ρ : Type} {α β : Type}

/-! ### Readings -/

def Returns (reading : Reading α) (good : α → Prop) : Prop :=
  ∃ result, reading = some result ∧ ∀ a, result = .ok a → good a

variable {good : α → Prop}

theorem Returns.done {a : α} (holds : good a) : Returns (done a) good := by
  refine ⟨.ok a, rfl, ?_⟩
  intro _ same
  cases same
  exact holds

variable {p : Str} {io : Iobuf}

theorem Returns.raise {text : Str} : Returns (raise text p) good :=
  ⟨.error ⟨text, p⟩, rfl, nofun⟩

variable {reading : Reading α}

theorem Returns.next {rest : α → Reading β} {best : β → Prop} (first : Returns reading good)
    (second : ∀ a, good a → Returns (rest a) best) : Returns (reading.next rest) best := by
  have ⟨result, read, holds⟩ := first
  rw [read]
  cases result with
  | error e => exact ⟨.error e, rfl, nofun⟩
  | ok a => exact second a (holds a rfl)

theorem Returns.weaken {best : α → Prop} (returns : Returns reading good)
    (weaker : ∀ a, good a → best a) : Returns reading best := by
  have ⟨result, read, holds⟩ := returns
  exact ⟨result, read, fun a same => weaker a (holds a same)⟩

/-! ### What is left -/

theorem getc_length (p : Str) : (getc p).2.length ≤ p.length := by
  cases p with
  | nil => exact Nat.le_refl _
  | cons _ _ => exact Nat.le_succ _

theorem getns_length (p : Str) : (getns p).2.length ≤ p.length := by
  induction p with
  | nil => exact Nat.le_refl _
  | cons _ _ ih =>
    unfold getns
    split
    · exact Nat.le_succ_of_le ih
    · exact Nat.le_succ _

theorem getns_length_lt {c : Nat} (taken : (getns p).1 = some c) :
    (getns p).2.length < p.length := by
  induction p with
  | nil => cases taken
  | cons first p ih =>
    unfold getns at taken ⊢
    split at taken
    · rename_i blank
      rw [if_pos blank]
      exact Nat.lt_succ_of_lt (ih taken)
    · rename_i other
      rw [if_neg other]
      exact Nat.lt_succ_self _

/-- A character that is taken and put back is no loss. -/
theorem unget_getns_length (p : Str) : (unget (getns p).1 (getns p).2).length ≤ p.length := by
  cases taken : (getns p).1 with
  | none => exact getns_length p
  | some _ => exact getns_length_lt taken

theorem map_eq_ok {γ : Type} {f : α → β} {read : Except γ α} {b : β}
    (mapped : read.map f = .ok b) : ∃ a, read = .ok a ∧ f a = b := by
  cases read with
  | error _ => cases mapped
  | ok a => exact ⟨a, rfl, Except.ok.inj mapped⟩

theorem readstring_length (io : Iobuf) (p : Str) {s q : Str}
    (read : readstring io p = .ok (s, q)) : q.length < p.length := by
  induction p using readstring.induct io generalizing s with
  | case1 =>
    unfold readstring at read
    cases read
  | case2 _ =>
    unfold readstring at read
    rw [if_pos rfl] at read
    cases read
    exact Nat.lt_succ_self _
  | case3 _ _ notQuote notSlash ih =>
    unfold readstring at read
    rw [if_neg notQuote, if_pos notSlash] at read
    have ⟨rest, found, same⟩ := map_eq_ok read
    cases same
    exact Nat.lt_succ_of_lt (ih found)
  | case4 _ _ notQuote slash _ code =>
    unfold readstring at read
    rw [if_neg notQuote, if_neg slash, code] at read
    cases read
  | case5 _ _ notQuote slash _ _ _ code ih =>
    unfold readstring at read
    rw [if_neg notQuote, if_neg slash, code] at read
    have ⟨_, found, same⟩ := map_eq_ok read
    cases same
    have left := ih found
    rw [List.length_cons]
    omega

theorem returns_readstring (io : Iobuf) (p : Str) :
    Returns (some (readstring io p)) fun read => read.2.length < p.length :=
  ⟨readstring io p, rfl, fun _ same => readstring_length io p same⟩

theorem digitrun_length (p : Str) : (digitrun p).2.length ≤ p.length := by
  induction p with
  | nil => exact Nat.le_refl _
  | cons _ _ ih =>
    unfold digitrun
    split
    · exact Nat.le_succ_of_le ih
    · exact Nat.le_refl _

theorem letterrun_length (p : Str) : (letterrun p).2.length ≤ p.length := by
  induction p with
  | nil => exact Nat.le_refl _
  | cons _ _ ih =>
    unfold letterrun
    split
    · exact Nat.le_succ_of_le ih
    · exact Nat.le_refl _

theorem returns_readdigits (p : Str) :
    Returns (readdigits p) fun read => read.2.length < p.length := by
  cases p with
  | nil => exact Returns.raise
  | cons c p =>
    unfold readdigits
    simp only
    split
    · rename_i digit
      apply Returns.done
      unfold digitrun
      rw [if_pos digit]
      exact Nat.lt_succ_of_le (digitrun_length p)
    · exact Returns.raise

theorem returns_readfraction (p : Str) :
    Returns (readfraction p) fun read => read.2.length ≤ p.length := by
  unfold readfraction
  split
  · apply (returns_readdigits _).weaken
    intro _ _
    have taken := getc_length p
    omega
  · exact Returns.done (Nat.le_refl _)

theorem returns_readexponent (p : Str) :
    Returns (readexponent p) fun read => read.2.length ≤ p.length := by
  cases p with
  | nil => exact Returns.done (Nat.le_refl _)
  | cons _ p =>
    unfold readexponent
    simp only
    have taken := getc_length p
    split
    · split
      · apply (returns_readdigits _).next
        intro digits shorter
        exact Returns.done (show digits.2.length ≤ p.length + 1 by omega)
      · apply (returns_readdigits _).next
        intro digits _
        exact Returns.done (show digits.2.length ≤ p.length + 1 by omega)
    · exact Returns.done (Nat.le_refl _)

theorem returns_readnumber (reals : Reals ρ) (c : Nat) (p : Str) :
    Returns (readnumber reals c p) fun read => read.2.length ≤ p.length ∧ read.1 ≠ .nil := by
  have front : (if c = 45 then p else c :: p).length ≤ p.length + 1 := by
    split
    · exact Nat.le_succ _
    · exact Nat.le_refl _
  unfold readnumber
  apply (returns_readdigits _).next
  intro _ _
  apply (returns_readfraction _).next
  intro _ _
  apply (returns_readexponent _).next
  intro exp _
  have left : exp.2.length ≤ p.length := by omega
  simp only
  split
  · exact Returns.done ⟨left, nofun⟩
  · exact Returns.done ⟨left, nofun⟩

theorem returns_readliteral (c : Nat) (p : Str) :
    Returns (readliteral c p : Reading (JValue ρ × Str)) fun read =>
      read.2.length ≤ p.length ∧ read.1 ≠ .nil := by
  have left := letterrun_length p
  unfold readliteral
  simp only
  split
  · exact Returns.done ⟨left, nofun⟩
  split
  · exact Returns.done ⟨left, nofun⟩
  · split
    · exact Returns.done ⟨left, nofun⟩
    · exact Returns.raise

theorem returns_readname (io : Iobuf) (p : Str) :
    Returns (readname io p) fun read => read.2.length < p.length := by
  have first := getns_length p
  unfold readname
  split
  · exact Returns.raise
  apply (returns_readstring io _).next
  intro name _
  have colon := getns_length name.2
  split
  · exact Returns.raise
  · exact Returns.done (show (getns name.2).2.length < p.length by omega)

theorem returns_bracketed {close : Nat} {missing : Str}
    {items : Str → Reading (List α × Option Nat × Str)} (inner : ∀ q : Str, q.length ≤ p.length →
      Returns (items q) fun l => l.2.2.length ≤ p.length) :
    Returns (bracketed close missing p items) fun l => l.2.length ≤ p.length := by
  have list : Returns
      (if (getns p).1 = some close then done ([], getns p)
        else items (unget (getns p).1 (getns p).2)) fun l => l.2.2.length ≤ p.length := by
    split
    · exact Returns.done (getns_length p)
    · exact inner _ (unget_getns_length p)
  unfold bracketed
  apply list.next
  intro _ shorter
  split
  · exact Returns.done shorter
  · exact Returns.raise

/-! ### Values -/

variable {reals : Reals ρ}

/-- One step of the reader at the front of a text, given what its items come to. -/
theorem returns_readval_of {fuel : Nat} (pairs : ∀ q : Str, q.length < p.length →
      Returns (readpairs io reals fuel q) fun l => l.2.2.length < q.length)
    (items : ∀ q : Str, q.length < p.length →
      Returns (readitems io reals fuel q) fun l => l.2.2.length < q.length) :
    Returns (readval io reals (fuel + 1) p) fun read =>
      read.2.length < p.length ∧ read.1 ≠ .nil := by
  unfold readval
  rcases taken : getns p with ⟨_ | c, q⟩
  · exact Returns.raise
  have shorter : q.length < p.length := by
    have least := getns_length_lt (p := p) (c := c) (by rw [taken])
    rwa [taken] at least
  have object : Returns (bracketed 125 (str "missing '\x7d' at end of object") q
      fun p => readpairs io reals fuel p) fun l => l.2.length ≤ q.length := by
    apply returns_bracketed
    intro r atMost
    exact (pairs r (by omega)).weaken fun l less => by omega
  have array : Returns (bracketed 93 (str "missing ']' at end of array") q
      fun p => readitems io reals fuel p) fun l => l.2.length ≤ q.length := by
    apply returns_bracketed
    intro r _
    exact (items r (by omega)).weaken fun l less => by omega
  simp only
  split
  · apply object.next
    intro l left
    exact Returns.done ⟨show l.2.length < p.length by omega, nofun⟩
  split
  · apply array.next
    intro l left
    exact Returns.done ⟨show l.2.length < p.length by omega, nofun⟩
  split
  · apply (returns_readstring io q).next
    intro read _
    exact Returns.done ⟨show read.2.length < p.length by omega, nofun⟩
  split
  · exact (returns_readnumber reals c q).weaken fun read both => ⟨by omega, both.2⟩
  · split
    · exact (returns_readliteral c q).weaken fun read both => ⟨by omega, both.2⟩
    · exact Returns.raise

mutual

/-- With two units of fuel for each character every value is read to its end. -/
theorem returns_readval (io : Iobuf) (reals : Reals ρ) : ∀ (fuel : Nat) (p : Str),
    2 * p.length + 1 ≤ fuel →
      Returns (readval io reals fuel p) fun read => read.2.length < p.length ∧ read.1 ≠ .nil
  | 0, p, enough => absurd enough (Nat.not_succ_le_zero _)
  | fuel + 1, p, enough => by
    apply returns_readval_of
    · intro q shorter
      exact returns_readpairs io reals fuel q (by omega)
    · intro q _
      exact returns_readitems io reals fuel q (by omega)

theorem returns_readpairs (io : Iobuf) (reals : Reals ρ) : ∀ (fuel : Nat) (p : Str),
    2 * p.length + 2 ≤ fuel →
      Returns (readpairs io reals fuel p) fun l => l.2.2.length < p.length
  | 0, p, enough => absurd enough (Nat.not_succ_le_zero _)
  | fuel + 1, p, enough => by
    unfold readpairs
    apply (returns_readname io p).next
    intro name _
    apply (returns_readval io reals fuel name.2 (by omega)).next
    intro v both
    have left := both.1
    have behind := getns_length v.2
    split
    · apply (returns_readpairs io reals fuel (getns v.2).2 (by omega)).next
      intro l _
      exact Returns.done (show l.2.2.length < p.length by omega)
    · exact Returns.done (show (getns v.2).2.length < p.length by omega)

theorem returns_readitems (io : Iobuf) (reals : Reals ρ) : ∀ (fuel : Nat) (p : Str),
    2 * p.length + 2 ≤ fuel →
      Returns (readitems io reals fuel p) fun l => l.2.2.length < p.length
  | 0, p, enough => absurd enough (Nat.not_succ_le_zero _)
  | fuel + 1, p, enough => by
    unfold readitems
    apply (returns_readval io reals fuel p (by omega)).next
    intro v both
    have left := both.1
    have behind := getns_length v.2
    split
    · apply (returns_readitems io reals fuel (getns v.2).2 (by omega)).next
      intro l _
      exact Returns.done (show l.2.2.length < p.length by omega)
    · exact Returns.done (show (getns v.2).2.length < p.length by omega)

end

/-! ### The whole input -/

/-- What `readjson` may come to: a value, the end of the input with nothing in front of it, or
a syntax error with its place. -/
def Ends (reals : Reals ρ) (io : Iobuf) : Prop :=
  (∃ v, readjson reals io = some (v, none) ∧ v ≠ .nil) ∨
    (readjson reals io = some (.nil, none) ∧ (getns io.chars).1 = none ∧ io.error = none) ∨
    ∃ e : Syntax, readjson reals io = some (.nil, some (str "JSON syntax error (offset " ++
      natDigits (io.offsetof e.left) ++ str "): " ++ e.text))

theorem readjson_eq (more : (getns io.chars).1 ≠ none ∨ io.error ≠ none) :
    readjson reals io =
      match readval io reals (2 * io.chars.length + 1)
        (unget (getns io.chars).1 (getns io.chars).2) with
      | none => none
      | some (.ok (v, _)) => some (v, none)
      | some (.error e) => some (.nil, some (str "JSON syntax error (offset " ++
          natDigits (io.offsetof e.left) ++ str "): " ++ e.text)) := by
  unfold readjson
  rcases taken : getns io.chars with ⟨_ | c, q⟩
  · cases failed : io.error with
    | none => rw [taken, failed] at more; simp at more
    | some _ => rfl
  · rfl

theorem readjson_ends (reals : Reals ρ) (io : Iobuf) : Ends reals io := by
  by_cases more : (getns io.chars).1 ≠ none ∨ io.error ≠ none
  · have least := unget_getns_length io.chars
    have ⟨result, read, good⟩ := returns_readval io reals (2 * io.chars.length + 1)
      (unget (getns io.chars).1 (getns io.chars).2) (by omega)
    have whole : readjson reals io = _ := readjson_eq more
    rw [read] at whole
    cases result with
    | error e => exact Or.inr (Or.inr ⟨e, whole⟩)
    | ok both => exact Or.inl ⟨both.1, whole, (good both rfl).2⟩
  · rw [not_or, not_not, not_not] at more
    refine Or.inr (Or.inl ⟨?_, more⟩)
    unfold readjson
    rcases taken : getns io.chars with ⟨_ | c, q⟩
    · rw [more.2]
    · rw [taken] at more
      cases more.1

end Infernode.Json
