import Infernode.Styx.Packed
import Infernode.Styx.Unpacked

/-!
The codec of `appl/lib/styx.b`: which messages survive packing, and which byte arrays
`unpack` treats as it should.

Owns: the result that unpacking should have on every array, the exact conditions for
it, the round trip of messages, and the agreement with `convM2S`.
-/

namespace Infernode.Styx

open Text Lib9 Wire List

/-- The number of `k` bytes at an index. -/
def num (k i : Nat) (f : Bytes) : Nat := ((rd k (f.drop i)).map Prod.fst).getD 0

variable {f b : Bytes} {α : Type} {reply : Bool} {size tag : Nat}

theorem num_of_rd {k i v : Nat} {rest : Bytes} (read : rd k (f.drop i) = some (v, rest)) :
    num k i f = v := by
  rw [num, read]
  rfl

/-! ### What unpacking should return -/

section Expected

variable {α : Type} (read : Nat → Bytes → Option (α × Bytes))

/-- The message that an array of its size holds: a type that is known, with fields that
fill it. -/
def decode (f : Bytes) : Option (Nat × α) :=
  if f.length < H then none
  else
    match read (num 1 4 f) (f.drop H) with
    | some (pick, []) => some (num 2 5 f, pick)
    | _ => none

/-- Count 0 for an incomplete message, the size for a message, -1 for what is none. -/
def expected (b : Bytes) : Unpacked (Nat × α) :=
  if b.length < H ∨ b.length < num 4 0 b then (0, none)
  else
    match decode read (b.take (num 4 0 b)) with
    | some m => (num 4 0 b, some m)
    | none => (-1, none)

end Expected

def Tmsg.of (m : Nat × TPick) : Tmsg := ⟨m.1, m.2⟩

def Rmsg.of (m : Nat × RPick) : Rmsg := ⟨m.1, m.2⟩

def Tmsg.expected (b : Bytes) : Unpacked Tmsg :=
  Prod.map id (Option.map Tmsg.of) (Styx.expected readT b)

def Rmsg.expected (b : Bytes) : Unpacked Rmsg :=
  Prod.map id (Option.map Rmsg.of) (Styx.expected readR b)

/-! ### Conditions -/

/-- The header names no type of the kind, or the message is too short for its type. -/
def Refused (reply : Bool) (f : Bytes) : Prop :=
  Tmax ≤ num 1 4 f ∨ decide (num 1 4 f % 2 = 1) ≠ reply ∨ f.length < hdrlen (num 1 4 f)

/-- The size is no negative number, and a message that is there is long enough for its
header to be checked. -/
def HeaderSound (reply : Bool) (FieldsSound : Bytes → Prop) (b : Bytes) : Prop :=
  b.length < H ∨ (num 4 0 b < 2 ^ 31 ∧ (b.length < num 4 0 b ∨
    (5 ≤ num 4 0 b ∧ (Refused reply (b.take (num 4 0 b)) ∨
      (H ≤ num 4 0 b ∧ FieldsSound (b.take (num 4 0 b)))))))

/-- The fields, where they are legal, fill the message; the count of a write is not
negative; the stat record of a wstat takes fewer than 256 bytes, and where there is no
such record none in front has the low byte of the count as its size. -/
def Tmsg.FieldsSound (f : Bytes) : Prop :=
  if num 1 4 f = Twstat then
    if 0 < statfront (f.drop 13) ∧ statfront (f.drop 13) = num 2 11 f ∧
        f.length = 13 + num 2 11 f then num 2 11 f < 256
    else statfront (f.drop 13) ≠ num 2 11 f % 256
  else
    (num 1 4 f = Twrite → num 4 19 f < 2 ^ 31) ∧
      ∀ pick rest, readT (num 1 4 f) (f.drop H) = some (pick, rest) → rest = []

/-- The fields, where they are legal, fill the message; the count of a read does not
overflow. -/
def Rmsg.FieldsSound (f : Bytes) : Prop :=
  (num 1 4 f = Rread → num 4 H f < 2 ^ 31 - 11) ∧
    ∀ pick rest, readR (num 1 4 f) (f.drop H) = some (pick, rest) → rest = []

/-! ### The header -/

theorem unpackmsg_eq {fields : Bytes → Nat → Nat → Option (Unpacked α)} (bytes : IsBytes b)
    (header : H ≤ b.length) :
    unpackmsg reply fields b =
      if 2147483648 ≤ num 4 0 b then none
      else if b.length < num 4 0 b then some (0, none)
      else if num 4 0 b < 5 then none
      else if Tmax ≤ num 1 4 (b.take (num 4 0 b)) ∨
          decide (num 1 4 (b.take (num 4 0 b)) % 2 = 1) ≠ reply ∨
          (b.take (num 4 0 b)).length < hdrlen (num 1 4 (b.take (num 4 0 b))) then illegal
      else if num 4 0 b < H then none
      else fields (b.take (num 4 0 b)) (num 1 4 (b.take (num 4 0 b)))
        (num 2 5 (b.take (num 4 0 b))) := by
  have long : 7 ≤ b.length := header
  obtain ⟨size, sizeRead⟩ := number_at (f := b) 4 (i := 0) (by omega)
  have word : size < 4294967296 := rd_lt (IsBytes.drop bytes 0) sizeRead
  rw [num_of_rd sizeRead, unpackmsg, if_neg (Nat.not_lt.2 header)]
  refine andThen (g32_at bytes sizeRead) ?_
  by_cases negative : 2147483648 ≤ size
  · have value : sint size = (size : Int) - 4294967296 := if_neg (by omega)
    rw [if_pos negative, value, if_neg (by omega)]
    exact failed (if_neg (by omega))
  rw [if_neg negative, sint_of_small (by omega)]
  by_cases incomplete : b.length < size
  · rw [if_pos (by omega), if_pos incomplete]
    rfl
  rw [if_neg (by omega), if_neg incomplete]
  have sliced : slice b 0 size = some (b.take size) := by
    rw [slice, if_pos (by omega)]
    simp
  refine andThen sliced ?_
  have sized : (b.take size).length = size := by
    rw [length_take]
    omega
  have bytesF := IsBytes.take bytes size
  by_cases tiny : size < 5
  · rw [if_pos tiny]
    refine failed ?_
    rw [getElem?_eq_none]
    omega
  rw [if_neg tiny]
  obtain ⟨mtype, typeRead⟩ := number_at (f := b.take size) 1 (i := 4) (by omega)
  refine andThen (byte_at typeRead) ?_
  rw [num_of_rd typeRead]
  have same : (size : Int) < hdrlen mtype ↔ (b.take size).length < hdrlen mtype := by
    rw [sized]
    omega
  simp only [same]
  split_ifs with refused noTag
  · rfl
  · refine failed ?_
    rw [g16_eq_rd bytesF, rd_eq_none]
    · rfl
    · rw [length_drop]
      unfold H at noTag
      omega
  · obtain ⟨_, tagRead⟩ := number_at (f := b.take size) 2 (i := 5)
      (by unfold H at noTag; omega)
    rw [num_of_rd tagRead]
    exact andThen (g16_at bytesF tagRead) rfl

/-! ### The fields -/

/-- The answer for the fields that a reader found: they fill the message or it is none. -/
def answer {α : Type} (size tag : Nat) : Option (α × Bytes) → Unpacked (Nat × α)
  | some (pick, []) => (size, some (tag, pick))
  | _ => (-1, none)

theorem answer_none :
    answer size tag (none : Option (α × Bytes)) = (-1, none) := rfl

theorem answer_iff {β : Type} {of : Nat × α → β} {found : Option (α × Bytes)}
    {outcome : Option (Unpacked β)} (nothing : found = none → outcome = illegal)
    (something : ∀ pick rest, found = some (pick, rest) →
      outcome = some (((size - rest.length : Nat) : Int), some (of (tag, pick)))) :
    outcome = some (Prod.map id (Option.map of) (answer size tag found)) ↔
      ∀ pick rest, found = some (pick, rest) → rest = [] := by
  rcases found with _ | ⟨pick, rest⟩
  · simp [nothing rfl, answer, illegal]
  rw [something pick rest rfl]
  cases rest with
  | nil => simp [answer]
  | cons _ _ => simp [answer]

theorem decode_eq (read : Nat → Bytes → Option (α × Bytes)) (header : H ≤ f.length) :
    (match decode read f with
      | some m => ((f.length : Int), some m)
      | none => (-1, none)) =
      answer f.length (num 2 5 f) (read (num 1 4 f) (f.drop H)) := by
  rw [decode, if_neg (Nat.not_lt.2 header)]
  rcases read (num 1 4 f) (f.drop H) with _ | ⟨pick, _ | ⟨byte, rest⟩⟩ <;> rfl

section Unpackmsg

variable {α β : Type} {of : Nat × α → β} {reply : Bool}
  {fields : Bytes → Nat → Nat → Option (Unpacked β)} {read : Nat → Bytes → Option (α × Bytes)}
  {FieldsSound : Bytes → Prop}

theorem unpackmsg_iff
    (refuses : ∀ f, Refused reply f → H ≤ f.length → read (num 1 4 f) (f.drop H) = none)
    (sound : ∀ f, IsBytes f → f.length < 2147483648 → H ≤ f.length → ¬Refused reply f →
      (fields f (num 1 4 f) (num 2 5 f) = some (Prod.map id (Option.map of)
        (answer f.length (num 2 5 f) (read (num 1 4 f) (f.drop H)))) ↔ FieldsSound f))
    (bytes : IsBytes b) (_ : b.length < 2147483648) :
    unpackmsg reply fields b = some (Prod.map id (Option.map of) (Styx.expected read b)) ↔
      HeaderSound reply FieldsSound b := by
  by_cases header : b.length < H
  · rw [unpackmsg, if_pos header, Styx.expected, if_pos (Or.inl header)]
    exact ⟨fun _ => Or.inl header, fun _ => rfl⟩
  rw [unpackmsg_eq bytes (Nat.not_lt.1 header), Styx.expected]
  unfold HeaderSound
  have power : (2 : Nat) ^ 31 = 2147483648 := by decide
  rw [power]
  by_cases negative : 2147483648 ≤ num 4 0 b
  · rw [if_pos negative]
    simp [header]
    omega
  rw [if_neg negative]
  by_cases incomplete : b.length < num 4 0 b
  · rw [if_pos incomplete, if_pos (Or.inr incomplete)]
    exact ⟨fun _ => Or.inr ⟨by omega, Or.inl incomplete⟩, fun _ => rfl⟩
  rw [if_neg incomplete, if_neg (not_or.2 ⟨header, incomplete⟩)]
  by_cases tiny : num 4 0 b < 5
  · rw [if_pos tiny]
    simp [header, incomplete]
    omega
  rw [if_neg tiny]
  have sized : (b.take (num 4 0 b)).length = num 4 0 b := by
    rw [length_take]
    omega
  by_cases refused : Refused reply (b.take (num 4 0 b))
  · have refusal := refused
    unfold Refused at refusal
    rw [if_pos refusal]
    have nothing : decode read (b.take (num 4 0 b)) = none := by
      unfold decode
      split_ifs with tagless
      · rfl
      · rw [refuses _ refused (Nat.not_lt.1 tagless)]
    rw [nothing]
    exact ⟨fun _ => Or.inr ⟨by omega, Or.inr ⟨by omega, Or.inl refused⟩⟩, fun _ => rfl⟩
  have accepted := refused
  unfold Refused at accepted
  rw [if_neg accepted]
  by_cases tagless : num 4 0 b < H
  · rw [if_pos tagless]
    simp [header, incomplete, refused]
    omega
  rw [if_neg tagless]
  have same := decode_eq read (f := b.take (num 4 0 b)) (by omega)
  rw [sized] at same
  have fieldsSound := sound (b.take (num 4 0 b)) (IsBytes.take bytes _) (by omega) (by omega) refused
  rw [sized] at fieldsSound
  rw [same, fieldsSound]
  constructor
  · exact fun holds => Or.inr ⟨by omega, Or.inr ⟨by omega, Or.inr ⟨by omega, holds⟩⟩⟩
  rintro (tooShort | ⟨_, early | ⟨_, bad | ⟨_, holds⟩⟩⟩)
  · exact absurd tooShort header
  · exact absurd early incomplete
  · exact absurd bad refused
  · exact holds

end Unpackmsg

section Fields

variable {f : Bytes} (bytes : IsBytes f) {tag : Nat}

include bytes

/-- A wstat is answered rightly if its record takes fewer than 256 bytes, or where there
is no such record if the low byte of the count is not the size of the one in front. -/
theorem Tmsg.wstat_iff (enough : hdrlen Twstat ≤ f.length) :
    Tmsg.unpackfields f Twstat tag = some (Prod.map id (Option.map Tmsg.of)
      (answer f.length tag (readT Twstat (f.drop H)))) ↔
      if 0 < statfront (f.drop 13) ∧ statfront (f.drop 13) = num 2 11 f ∧
          f.length = 13 + num 2 11 f then num 2 11 f < 256
      else statfront (f.drop 13) ≠ num 2 11 f % 256 := by
  obtain ⟨fid, n, fidRead, countRead, refused, accepted⟩ := Tmsg.wstat_eq bytes tag enough
  have long : 13 ≤ f.length := enough
  rw [num_of_rd countRead]
  have record := unpackdir_eq (IsBytes.drop bytes 13)
  have illegal_iff : Tmsg.unpackfields f Twstat tag = illegal ↔ statfront (f.drop 13) ≠ n % 256 := by
    refine ⟨fun bad same => ?_, refused⟩
    obtain ⟨d, code, _⟩ := accepted same
    rw [code] at bad
    cases bad
  rcases found : rdir (f.drop 13) with _ | ⟨size, d, rest⟩
  · have spec : readT Twstat (f.drop H) = none :=
      andThen fidRead (failed (show rstat (f.drop 11) = none from andThen countRead (failed found)))
    have front : statfront (f.drop 13) = 0 := by
      rw [statfront, found]
      rfl
    rw [spec, answer_none, if_neg (by omega)]
    exact illegal_iff
  rw [found] at record
  obtain ⟨_, atLeast, fits⟩ := record
  rw [length_drop] at fits
  have front : statfront (f.drop 13) = size := by
    rw [statfront, found]
    rfl
  unfold STATFIXLEN at atLeast
  by_cases same : size = n
  · have spec : readT Twstat (f.drop H) = some (.wstat fid d, rest) :=
      andThen fidRead (andThen (show rstat (f.drop 11) = some (d, rest) from
        andThen countRead (andThen found (if_pos same))) rfl)
    rw [spec]
    rcases rest with _ | ⟨byte, rest⟩
    · rw [length_nil] at fits
      rw [if_pos (by omega)]
      constructor
      · intro right
        by_contra big
        rw [refused (by omega)] at right
        simp [answer, illegal] at right
      intro _
      obtain ⟨_, code, which⟩ := accepted (by omega)
      rw [code, which _ _ _ found]
      simp only [answer, Prod.map, id_eq, Option.map_some, Option.some.injEq, Prod.mk.injEq]
      refine ⟨?_, rfl⟩
      omega
    · rw [length_cons] at fits
      rw [if_neg (by omega)]
      exact illegal_iff
  · have spec : readT Twstat (f.drop H) = none :=
      andThen fidRead (failed (show rstat (f.drop 11) = none from
        andThen countRead (andThen found (if_neg same))))
    rw [spec, answer_none, if_neg (by omega)]
    exact illegal_iff

omit bytes in
/-- The cases that return what the reader found. -/
theorem Tmsg.outcome_iff {found : Option (TPick × Bytes)} :
    Tmsg.outcome f tag found =
        some (Prod.map id (Option.map Tmsg.of) (answer f.length tag found)) ↔
      ∀ pick rest, found = some (pick, rest) → rest = [] :=
  answer_iff (fun nothing => by rw [nothing]; rfl) (fun pick rest which => by rw [which]; rfl)

omit bytes in
theorem Rmsg.outcome_iff {found : Option (RPick × Bytes)} :
    Rmsg.outcome f tag found =
        some (Prod.map id (Option.map Rmsg.of) (answer f.length tag found)) ↔
      ∀ pick rest, found = some (pick, rest) → rest = [] :=
  answer_iff (fun nothing => by rw [nothing]; rfl) (fun pick rest which => by rw [which]; rfl)

theorem Tmsg.fields_iff (short : f.length < 2147483648)
    (enough : hdrlen (num 1 4 f) ≤ f.length) :
    Tmsg.unpackfields f (num 1 4 f) tag = some (Prod.map id (Option.map Tmsg.of)
      (answer f.length tag (readT (num 1 4 f) (f.drop H)))) ↔ Tmsg.FieldsSound f := by
  unfold Tmsg.FieldsSound
  by_cases isWstat : num 1 4 f = Twstat
  · rw [if_pos isWstat]
    rw [isWstat] at enough ⊢
    exact Tmsg.wstat_iff bytes enough
  rw [if_neg isWstat]
  by_cases isWrite : num 1 4 f = Twrite
  · rw [isWrite] at enough ⊢
    have ⟨count, countRead, positive, negative⟩ := Tmsg.write_eq bytes tag enough short
    rw [num_of_rd countRead]
    by_cases small : count < 2147483648
    · rw [positive small, Tmsg.outcome_iff]
      exact (and_iff_right fun _ => small).symm
    · rw [negative (Nat.not_lt.1 small)]
      exact ⟨fun raised => (nomatch raised), fun sound => absurd (sound.1 rfl) small⟩
  · rw [Tmsg.fields_eq bytes enough isWrite isWstat, Tmsg.outcome_iff]
    exact (and_iff_right fun same => absurd same isWrite).symm

theorem Rmsg.fields_iff (short : f.length < 2147483648) (header : H ≤ f.length)
    (enough : hdrlen (num 1 4 f) ≤ f.length) :
    Rmsg.unpackfields f (num 1 4 f) tag = some (Prod.map id (Option.map Rmsg.of)
      (answer f.length tag (readR (num 1 4 f) (f.drop H)))) ↔ Rmsg.FieldsSound f := by
  unfold Rmsg.FieldsSound
  by_cases isRead : num 1 4 f = Rread
  · rw [isRead] at enough ⊢
    have ⟨count, countRead, positive, negative⟩ := Rmsg.read_eq bytes tag enough short
    rw [num_of_rd countRead]
    by_cases small : count < 2147483637
    · rw [positive small, Rmsg.outcome_iff]
      exact (and_iff_right fun _ => small).symm
    · rw [negative (Nat.not_lt.1 small)]
      exact ⟨fun raised => (nomatch raised), fun sound => absurd (sound.1 rfl) small⟩
  · rw [Rmsg.fields_eq bytes header enough isRead, Rmsg.outcome_iff]
    exact (and_iff_right fun same => absurd same isRead).symm

end Fields

theorem refused_read (refused : Refused reply f) (parity : num 1 4 f % 2 = (if reply then 1 else 0))
    (known : num 1 4 f < Tmax) : f.length < hdrlen (num 1 4 f) := by
  rcases refused with big | wrong | short
  · omega
  · cases reply <;> simp_all
  · exact short

theorem Tmsg.unpack_iff (bytes : IsBytes b) (short : b.length < 2147483648) :
    Tmsg.unpack b = some (Tmsg.expected b) ↔ HeaderSound false Tmsg.FieldsSound b := by
  refine unpackmsg_iff (fun f refused header => ?_) (fun f bytesF shortF header accepted => ?_)
    bytes short
  · by_contra read
    have ⟨⟨pick, rest⟩, found⟩ := Option.ne_none_iff_exists'.1 read
    have ⟨parity, known, enough⟩ := readT_length found
    have cut := refused_read refused parity known
    rw [length_drop] at enough
    omega
  · unfold Refused at accepted
    exact Tmsg.fields_iff bytesF shortF (by omega)

theorem Rmsg.unpack_iff (bytes : IsBytes b) (short : b.length < 2147483648) :
    Rmsg.unpack b = some (Rmsg.expected b) ↔ HeaderSound true Rmsg.FieldsSound b := by
  refine unpackmsg_iff (fun f refused header => ?_) (fun f bytesF shortF header accepted => ?_)
    bytes short
  · by_contra read
    have ⟨⟨pick, rest⟩, found⟩ := Option.ne_none_iff_exists'.1 read
    have ⟨parity, known, enough⟩ := readR_length found
    have cut := refused_read refused parity known
    rw [length_drop] at enough
    omega
  · unfold Refused at accepted
    exact Rmsg.fields_iff bytesF shortF header (by omega)

end Infernode.Styx
