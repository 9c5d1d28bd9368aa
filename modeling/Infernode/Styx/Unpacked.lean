import Infernode.Styx.Unpack
import Infernode.Styx.Format

/-!
Unpacking reads the format.

Owns: what the indexed reads of `unpack` find, as readers of the bytes from the index
on; and for each type of message what its case returns.
-/

namespace Infernode.Styx

open Text Lib9 Wire List Option

/-! ### Numbers -/

theorem getElem?_eq_rd (f : Bytes) (i : Nat) : f[i]? = (rd 1 (f.drop i)).map Prod.fst := by
  have head : f[i]? = (f.drop i)[0]? := by
    rw [getElem?_drop, Nat.add_zero]
  rw [head]
  cases f.drop i with
  | nil => rfl
  | cons _ _ => simp [rd]

private theorem or_low {high low k : Nat} (small : low < 2 ^ k) :
    high <<< k ||| low = low + 2 ^ k * high := by
  rw [← Nat.shiftLeft_add_eq_or_of_lt small, Nat.shiftLeft_eq]
  ring

variable {f : Bytes}

theorem g16_eq_rd (bytes : IsBytes f) (i : Nat) : g16 f i = (rd 2 (f.drop i)).map Prod.fst := by
  have tail := IsBytes.drop bytes i
  unfold g16
  have at1 : f[i + 1]? = (f.drop i)[1]? := by rw [getElem?_drop]
  have at0 : f[i]? = (f.drop i)[0]? := by rw [getElem?_drop, Nat.add_zero]
  rw [at1, at0]
  match f.drop i, tail with
  | [], _ => rfl
  | [b0], _ => rfl
  | b0 :: b1 :: rest, tail =>
    have low : b0 < 2 ^ 8 := tail b0 (by simp)
    simp [rd, or_low low]

theorem g32_eq_rd (bytes : IsBytes f) (i : Nat) : g32 f i = (rd 4 (f.drop i)).map Prod.fst := by
  have tail := IsBytes.drop bytes i
  unfold g32
  have at3 : f[i + 3]? = (f.drop i)[3]? := by rw [getElem?_drop]
  have at2 : f[i + 2]? = (f.drop i)[2]? := by rw [getElem?_drop]
  have at1 : f[i + 1]? = (f.drop i)[1]? := by rw [getElem?_drop]
  have at0 : f[i]? = (f.drop i)[0]? := by rw [getElem?_drop, Nat.add_zero]
  rw [at3, at2, at1, at0]
  match f.drop i, tail with
  | [], _ => rfl
  | [b0], _ => rfl
  | [b0, b1], _ => rfl
  | [b0, b1, b2], _ => rfl
  | b0 :: b1 :: b2 :: b3 :: rest, tail =>
    have low0 : b0 < 2 ^ 8 := tail b0 (by simp)
    have low1 : b1 < 2 ^ 8 := tail b1 (by simp)
    have low2 : b2 < 2 ^ 8 := tail b2 (by simp)
    simp [rd, or_low low0, or_low low1, or_low low2]

theorem rd_eight (r : Bytes) :
    (rd 8 r).map Prod.fst =
      (rd 4 r).bind fun (low, rest) => (rd 4 rest).map fun (high, _) => low + 2 ^ 32 * high := by
  match r with
  | [] | [_] | [_, _] | [_, _, _] => rfl
  | [_, _, _, _] | [_, _, _, _, _] | [_, _, _, _, _, _] | [_, _, _, _, _, _, _] => rfl
  | b0 :: b1 :: b2 :: b3 :: b4 :: b5 :: b6 :: b7 :: rest =>
    simp only [rd, map_some, bind_some, Option.some.injEq]
    ring

theorem g64_eq_rd (bytes : IsBytes f) (i : Nat) : g64 f i = (rd 8 (f.drop i)).map Prod.fst := by
  rw [rd_eight, g64, g32_eq_rd bytes, g32_eq_rd bytes]
  cases low : rd 4 (f.drop i) with
  | none => rfl
  | some found =>
    have ⟨b0, rest⟩ := found
    obtain ⟨rfl, _⟩ := rd_eq_some low
    have small : b0 < 2 ^ 32 := rd_lt (IsBytes.drop bytes i) low
    rw [drop_drop]
    cases high : rd 4 (f.drop (i + 4)) with
    | none => simp [high]
    | some more =>
      have ⟨_, _⟩ := more
      simp [high, or_low small]

theorem gqid_eq_rqid (bytes : IsBytes f) (i : Nat) : gqid f i = (rqid (f.drop i)).map Prod.fst := by
  have shape : gqid f i = (f[i]?).bind fun qtype => (g32 f (i + 1)).bind fun vers =>
      (g64 f (i + 5)).bind fun path => some ⟨path, vers, qtype⟩ := by
    unfold gqid g64
    cases f[i]? with
    | none => rfl
    | some _ =>
      cases g32 f (i + 1) with
      | none => rfl
      | some _ =>
        cases g32 f (i + 5) with
        | none => rfl
        | some _ =>
          rw [show i + 5 + 4 = i + 9 by omega]
          cases g32 f (i + 9) <;> rfl
  rw [shape, getElem?_eq_rd, g32_eq_rd bytes, g64_eq_rd bytes, rqid]
  cases first : rd 1 (f.drop i) with
  | none => rfl
  | some found =>
    have ⟨_, rest⟩ := found
    obtain ⟨rfl, _⟩ := rd_eq_some first
    rw [map_some, bind_some]
    simp only [drop_drop, bind_eq_bind, bind_some]
    cases second : rd 4 (f.drop (i + 1)) with
    | none => rfl
    | some found =>
      have ⟨_, _⟩ := found
      obtain ⟨rfl, _⟩ := rd_eq_some second
      simp only [drop_drop, map_some, bind_some]
      cases rd 8 (f.drop (i + 1 + 4)) <;> rfl

/-! ### Strings and records -/

variable {r rest : Bytes} {o n : Nat}

theorem rstr_drop {s : Str} (read : rstr r = some (s, rest)) :
    rest.length + 2 ≤ r.length ∧ rest = r.drop (r.length - rest.length) := by
  have ⟨⟨n, more⟩, counted, text⟩ := bind_eq_some_iff.1 read
  have ⟨⟨bytes, after⟩, taken, same⟩ := bind_eq_some_iff.1 text
  cases same
  obtain ⟨rfl, _⟩ := rd_eq_some counted
  obtain ⟨_, rfl, _⟩ := take_eq_some taken
  simp only [length_drop, drop_drop] at *
  refine ⟨by omega, ?_⟩
  congr 1
  omega

private theorem stringcount (number : g16 f o = some n) (enough : o + 2 ≤ f.length) :
    (f.getD (o + 1) 0 <<< 8 ||| f.getD o 0) = n := by
  have first : o < f.length := by omega
  have second : o + 1 < f.length := by omega
  simp only [g16, getElem?_eq_getElem first, getElem?_eq_getElem second] at number
  simp only [getD_eq_getElem?_getD, getElem?_eq_getElem first,
    getElem?_eq_getElem second, getD_some]
  exact Option.some.inj number

theorem gstring_some (bytes : IsBytes f) {s : Str} (read : rstr (f.drop o) = some (s, rest)) :
    ∃ e, gstring f (some o) = some (s, e) ∧ rest = f.drop e ∧ e + rest.length = f.length := by
  have ⟨⟨n, more⟩, counted, text⟩ := bind_eq_some_iff.1 read
  have ⟨⟨found, after⟩, taken, same⟩ := bind_eq_some_iff.1 text
  cases same
  have number := g16_eq_rd bytes o
  rw [counted, map_some] at number
  obtain ⟨rfl, _⟩ := rd_eq_some counted
  obtain ⟨rfl, rfl, _⟩ := take_eq_some taken
  simp only [length_drop, drop_drop] at *
  have count := stringcount number (by omega)
  refine ⟨o + 2 + n, ?_, rfl, by omega⟩
  rw [gstring, if_neg (by omega)]
  simp only [count]
  rw [if_neg (by omega)]
  congr 3
  rw [drop_take]
  congr 1
  omega

theorem gstring_none (bytes : IsBytes f) (read : rstr (f.drop o) = none) :
    gstring f (some o) = none := by
  rw [gstring]
  by_cases short : f.length < o + 2
  · rw [if_pos short]
  rw [if_neg short]
  have ⟨n, counted⟩ := exists_rd (k := 2) (r := f.drop o) (by rw [length_drop]; omega)
  have number := g16_eq_rd bytes o
  rw [counted, map_some] at number
  have count := stringcount number (by omega)
  simp only [count]
  by_contra found
  have fits : ¬f.length < o + 2 + n := fun past => found (by rw [if_pos past])
  have some_ : rstr (f.drop o) ≠ none := by
    unfold rstr
    rw [counted]
    simp only [bind_eq_bind, bind_some, Wire.take, length_drop]
    rw [if_pos (by omega)]
    simp
  exact some_ read

theorem rqid_eq_some {q : Qid} (read : rqid r = some (q, rest)) :
    rest = r.drop 13 ∧ 13 ≤ r.length := by
  have ⟨⟨qtype, r1⟩, first, read⟩ := bind_eq_some_iff.1 read
  have ⟨⟨vers, r2⟩, second, read⟩ := bind_eq_some_iff.1 read
  have ⟨⟨path, r3⟩, third, read⟩ := bind_eq_some_iff.1 read
  cases read
  obtain ⟨rfl, _⟩ := rd_eq_some first
  obtain ⟨rfl, _⟩ := rd_eq_some second
  obtain ⟨rfl, enough⟩ := rd_eq_some third
  rw [length_drop, length_drop] at enough
  exact ⟨by rw [drop_drop, drop_drop], by omega⟩

theorem exists_rqid (enough : 13 ≤ r.length) : ∃ q, rqid r = some (q, r.drop 13) := by
  have ⟨qtype, first⟩ := exists_rd (k := 1) (r := r) (by omega)
  have ⟨vers, second⟩ := exists_rd (k := 4) (r := r.drop 1) (by rw [length_drop]; omega)
  have ⟨path, third⟩ := exists_rd (k := 8) (r := (r.drop 1).drop 4)
    (by rw [length_drop, length_drop]; omega)
  refine ⟨⟨path, vers, qtype⟩, andThen first (andThen second (andThen third ?_))⟩
  simp only [drop_drop]
  rfl

/-- The four strings at the end of a stat record. -/
def rtexts (r : Bytes) : Option (Str × Str × Str × Str × Bytes) := do
  let (name, r) ← rstr r
  let (uid, r) ← rstr r
  let (gid, r) ← rstr r
  let (muid, r) ← rstr r
  return (name, uid, gid, muid, r)

theorem rtexts_length {name uid gid muid : Str}
    (read : rtexts r = some (name, uid, gid, muid, rest)) : rest.length + 8 ≤ r.length := by
  have ⟨⟨name, r1⟩, first, read⟩ := bind_eq_some_iff.1 read
  have ⟨⟨uid, r2⟩, second, read⟩ := bind_eq_some_iff.1 read
  have ⟨⟨gid, r3⟩, third, read⟩ := bind_eq_some_iff.1 read
  have ⟨⟨muid, r4⟩, fourth, read⟩ := bind_eq_some_iff.1 read
  cases read
  have length1 := (rstr_drop first).1
  have length2 := (rstr_drop second).1
  have length3 := (rstr_drop third).1
  have length4 := (rstr_drop fourth).1
  omega

/-- What `gstring` finds four times in a row. -/
theorem gstring_rtexts (bytes : IsBytes f) (o : Nat) :
    match rtexts (f.drop o) with
    | some (name, uid, gid, muid, rest) =>
      ∃ i j k e, gstring f (some o) = some (name, i) ∧ gstring f (some i) = some (uid, j) ∧
        gstring f (some j) = some (gid, k) ∧ gstring f (some k) = some (muid, e) ∧
        e + rest.length = f.length
    | none =>
      gstring f (((gstring f (((gstring f ((gstring f (some o)).map Prod.snd))).map
        Prod.snd)).map Prod.snd)) = none := by
  unfold rtexts
  cases first : rstr (f.drop o) with
  | none =>
    rw [gstring_none bytes first]
    rfl
  | some found =>
    have ⟨_, _⟩ := found
    obtain ⟨i, name_, rfl, _⟩ := gstring_some bytes first
    simp only [name_, map_some, bind_eq_bind, bind_some]
    cases second : rstr (f.drop i) with
    | none =>
      rw [gstring_none bytes second]
      rfl
    | some found =>
      have ⟨_, _⟩ := found
      obtain ⟨j, uid_, rfl, _⟩ := gstring_some bytes second
      simp only [uid_, map_some, bind_some]
      cases third : rstr (f.drop j) with
      | none =>
        rw [gstring_none bytes third]
        rfl
      | some found =>
        have ⟨_, _⟩ := found
        obtain ⟨k, gid_, rfl, _⟩ := gstring_some bytes third
        simp only [gid_, map_some, bind_some]
        cases fourth : rstr (f.drop k) with
        | none =>
          rw [gstring_none bytes fourth]
          rfl
        | some found =>
          have ⟨_, _⟩ := found
          have ⟨e, muid_, _, ends⟩ := gstring_some bytes fourth
          exact ⟨i, j, k, e, rfl, uid_, gid_, muid_, ends⟩

/-- The fixed part of a stat record, and what decides the rest. -/
theorem rdir_fixed (bytes : IsBytes f) (enough : STATFIXLEN ≤ f.length) :
    ∃ size dtype dev qid mode atime mtime length,
      g16 f 0 = some size ∧ g16 f 2 = some dtype ∧ g32 f 4 = some dev ∧ gqid f 8 = some qid ∧
        g32 f 21 = some mode ∧ g32 f 25 = some atime ∧ g32 f 29 = some mtime ∧
        g64 f 33 = some length ∧
        rdir f = (rtexts (f.drop 41)).bind fun (name, uid, gid, muid, rest) =>
          if f.length = size + 2 + rest.length then
            some (size + 2, ⟨name, uid, gid, muid, qid, mode, atime, mtime, length, dtype, dev⟩,
              rest)
          else none := by
  have long : 49 ≤ f.length := enough
  have at2 : ∀ i, i + 2 ≤ 49 → ∃ v, rd 2 (f.drop i) = some (v, f.drop (i + 2)) := fun i small => by
    have ⟨v, read⟩ := exists_rd (k := 2) (r := f.drop i) (by rw [length_drop]; omega)
    exact ⟨v, by rw [read, drop_drop]⟩
  have at4 : ∀ i, i + 4 ≤ 49 → ∃ v, rd 4 (f.drop i) = some (v, f.drop (i + 4)) := fun i small => by
    have ⟨v, read⟩ := exists_rd (k := 4) (r := f.drop i) (by rw [length_drop]; omega)
    exact ⟨v, by rw [read, drop_drop]⟩
  have ⟨size, sizeRead⟩ := at2 0 (by decide)
  have ⟨dtype, dtypeRead⟩ := at2 2 (by decide)
  have ⟨dev, devRead⟩ := at4 4 (by decide)
  have ⟨qid, qidRead⟩ := exists_rqid (r := f.drop 8) (by rw [length_drop]; omega)
  have ⟨mode, modeRead⟩ := at4 21 (by decide)
  have ⟨atime, atimeRead⟩ := at4 25 (by decide)
  have ⟨mtime, mtimeRead⟩ := at4 29 (by decide)
  have ⟨length, lengthRead⟩ := exists_rd (k := 8) (r := f.drop 33)
    (by rw [length_drop]; omega)
  rw [drop_drop] at qidRead lengthRead
  refine ⟨size, dtype, dev, qid, mode, atime, mtime, length, by rw [g16_eq_rd bytes, sizeRead]; rfl,
    by rw [g16_eq_rd bytes, dtypeRead]; rfl, by rw [g32_eq_rd bytes, devRead]; rfl,
    by rw [gqid_eq_rqid bytes, qidRead]; rfl, by rw [g32_eq_rd bytes, modeRead]; rfl,
    by rw [g32_eq_rd bytes, atimeRead]; rfl, by rw [g32_eq_rd bytes, mtimeRead]; rfl,
    by rw [g64_eq_rd bytes, lengthRead]; rfl, ?_⟩
  rw [drop_zero] at sizeRead
  unfold rdir
  refine andThen sizeRead (andThen dtypeRead (andThen devRead (andThen qidRead (andThen modeRead
    (andThen atimeRead (andThen mtimeRead (andThen lengthRead ?_)))))))
  unfold rtexts
  rw [show 33 + 8 = 41 from rfl]
  simp only [bind_eq_bind]
  rcases rstr (f.drop 41) with _ | ⟨name, r1⟩
  · rfl
  simp only [bind_some]
  rcases rstr r1 with _ | ⟨uid, r2⟩
  · rfl
  simp only [bind_some]
  rcases rstr r2 with _ | ⟨gid, r3⟩
  · rfl
  · simp only [bind_some]
    rcases rstr r3 with _ | ⟨muid, r4⟩ <;> rfl

theorem rdir_length {d : Dir} (read : rdir f = some (n, d, rest)) : STATFIXLEN ≤ f.length := by
  have needs : Needs (2 + (2 + (4 + (13 + (4 + (4 + (4 + (8 + (2 + (2 + (2 + (2 + 0)))))))))))) f
      (rdir f) :=
    Needs.rd fun _ _ => Needs.rd fun _ _ => Needs.rd fun _ _ => rqid_needs fun _ _ =>
      Needs.rd fun _ _ => Needs.rd fun _ _ => Needs.rd fun _ _ => Needs.rd fun _ _ =>
      rtext_needs fun _ _ => rtext_needs fun _ _ => rtext_needs fun _ _ => rtext_needs fun _ _ =>
      needs_zero
  exact needs _ read

/-- A stat record is unpacked as its reader reads it, and nothing else counts. -/
theorem unpackdir_eq (bytes : IsBytes f) :
    match rdir f with
    | some (size, d, rest) =>
      unpackdir f = some (size, d) ∧ STATFIXLEN ≤ size ∧ f.length = size + rest.length
    | none => ∃ d, unpackdir f = some (0, d) := by
  by_cases short : f.length < STATFIXLEN
  · have nothing : rdir f = none := by
      by_contra some_
      have ⟨⟨size, d, rest⟩, read⟩ := ne_none_iff_exists'.1 some_
      exact absurd (rdir_length read) (Nat.not_le.2 short)
    rw [nothing]
    exact ⟨zerodir, by rw [unpackdir, if_pos short]⟩
  obtain ⟨size, dtype, dev, qid, mode, atime, mtime, length, sizeAt, dtypeAt, devAt, qidAt,
    modeAt, atimeAt, mtimeAt, lengthAt, record⟩ := rdir_fixed bytes (Nat.not_lt.1 short)
  have texts := gstring_rtexts bytes 41
  by_cases fits : f.length < size + 2
  · have nothing : rdir f = none := by
      rw [record]
      rcases rtexts (f.drop 41) with _ | ⟨name, uid, gid, muid, rest⟩
      · rfl
      · exact if_neg (by omega)
    rw [nothing]
    refine ⟨zerodir, ?_⟩
    rw [unpackdir, if_neg short]
    exact andThen sizeAt (if_pos fits)
  · let text (s : Option (Str × Nat)) : Str := (s.map Prod.fst).getD []
    let first := gstring f (some 41)
    let second := gstring f (first.map Prod.snd)
    let third := gstring f (second.map Prod.snd)
    let fourth := gstring f (third.map Prod.snd)
    let dir : Dir := ⟨text first, text second, text third, text fourth, qid, mode, atime, mtime, length,
      dtype, dev⟩
    have code : unpackdir f =
        fourth.elim (some (0, dir)) fun end_ =>
          if end_.2 ≠ size + 2 then some (0, dir) else some (end_.2, dir) := by
      rw [unpackdir, if_neg short]
      refine andThen sizeAt ((if_neg fits).trans (andThen dtypeAt (andThen devAt (andThen qidAt
        (andThen modeAt (andThen atimeAt (andThen mtimeAt (andThen lengthAt ?_))))))))
      rcases last : fourth with _ | ⟨_, i⟩
      all_goals
        simp only [dir, fourth, third, second, first, text] at last ⊢
        rw [last]
        rfl
    rcases read : rtexts (f.drop 41) with _ | ⟨name, uid, gid, muid, rest⟩
    · rw [read] at texts record
      rw [record]
      rw [show fourth = none from texts] at code
      exact ⟨dir, code⟩
    rw [read] at texts record
    have ⟨_, _, _, e, nameAt, uidAt, gidAt, muidAt, _⟩ := texts
    simp only [dir, fourth, third, second, first, text, nameAt, uidAt, gidAt, muidAt, map_some,
      getD_some, elim_some] at code
    rw [record]
    simp only [bind_some]
    have length8 := rtexts_length read
    rw [length_drop] at length8
    unfold STATFIXLEN at short ⊢
    by_cases exact_ : f.length = size + 2 + rest.length
    · rw [if_pos exact_]
      rw [if_neg (by omega)] at code
      obtain rfl : e = size + 2 := by omega
      exact ⟨code, by omega, exact_⟩
    · rw [if_neg exact_]
      rw [if_pos (by omega)] at code
      exact ⟨_, code⟩

/-! ### T-messages -/

/-- What `unpack` returns for the fields that a reader found. -/
def Tmsg.outcome (f : Bytes) (tag : Nat) : Option (TPick × Bytes) → Option (Unpacked Tmsg)
  | none => illegal
  | some (pick, rest) => some (((f.length - rest.length : Nat) : Int), some ⟨tag, pick⟩)

section Cases

variable {f : Bytes} (bytes : IsBytes f) {tag : Nat}

variable {i v mtype : Nat}

/-- A number of the fixed part, as the reader and as the index find it. -/
theorem number_at (k : Nat) (enough : i + k ≤ f.length) :
    ∃ v, rd k (f.drop i) = some (v, f.drop (i + k)) := by
  have ⟨v, read⟩ := exists_rd (k := k) (r := f.drop i) (by rw [length_drop]; omega)
  exact ⟨v, by rw [read, drop_drop]⟩

include bytes

theorem g32_at (read : rd 4 (f.drop i) = some (v, rest)) : g32 f i = some v := by
  rw [g32_eq_rd bytes, read]
  rfl

theorem g16_at (read : rd 2 (f.drop i) = some (v, rest)) : g16 f i = some v := by
  rw [g16_eq_rd bytes, read]
  rfl

theorem g64_at (read : rd 8 (f.drop i) = some (v, rest)) : g64 f i = some v := by
  rw [g64_eq_rd bytes, read]
  rfl

omit bytes in
theorem byte_at (read : rd 1 (f.drop i) = some (v, rest)) : f[i]? = some v := by
  rw [getElem?_eq_rd, read]
  rfl

theorem gqid_at {q : Qid} (read : rqid (f.drop i) = some (q, rest)) : gqid f i = some q := by
  rw [gqid_eq_rqid bytes, read]
  rfl

variable (tag) in
/-- The fid is extracted where the type has one. -/
theorem Tmsg.fid_at (hasFid : H + 4 ≤ hdrlen mtype) (enough : hdrlen mtype ≤ f.length) :
    ∃ fid, rd 4 (f.drop H) = some (fid, f.drop 11) ∧
      ∀ result, Tmsg.unpackcase f mtype tag fid = result → Tmsg.unpackfields f mtype tag = result := by
  have ⟨fid, read⟩ := number_at (f := f) 4 (i := H) (le_trans hasFid enough)
  refine ⟨fid, read, fun result case_ => ?_⟩
  exact andThen ((if_pos hasFid).trans (g32_at bytes read)) case_

theorem Tmsg.version_eq (enough : hdrlen Tversion ≤ f.length) :
    Tmsg.unpackfields f Tversion tag = Tmsg.outcome f tag (readT Tversion (f.drop H)) := by
  obtain ⟨msize, read, select⟩ := Tmsg.fid_at bytes tag (by decide) enough
  apply select
  rcases text : rstr (f.drop 11) with _ | ⟨v, r⟩
  · have spec : readT Tversion (f.drop H) = none := andThen read (failed text)
    rw [spec]
    simp +decide only [Tmsg.unpackcase, if_true, H, gstring_none bytes text, Tmsg.outcome]
  have spec : readT Tversion (f.drop H) = some (.version msize v, r) :=
    andThen read (andThen text rfl)
  obtain ⟨e, found, _, _⟩ := gstring_some bytes text
  obtain rfl : e = f.length - r.length := by omega
  rw [spec]
  simp +decide only [Tmsg.unpackcase, if_true, H, found, Tmsg.outcome]

theorem Tmsg.auth_eq (enough : hdrlen Tauth ≤ f.length) :
    Tmsg.unpackfields f Tauth tag = Tmsg.outcome f tag (readT Tauth (f.drop H)) := by
  obtain ⟨afid, read, select⟩ := Tmsg.fid_at bytes tag (by decide) enough
  apply select
  rcases text : rstr (f.drop 11) with _ | ⟨uname, r1⟩
  · have spec : readT Tauth (f.drop H) = none := andThen read (failed text)
    rw [spec]
    simp +decide only [Tmsg.unpackcase, if_true, if_false, H, gstring_none bytes text, Tmsg.outcome]
  obtain ⟨o1, found, rfl, _⟩ := gstring_some bytes text
  rcases text2 : rstr (f.drop o1) with _ | ⟨aname, r2⟩
  · have spec : readT Tauth (f.drop H) = none := andThen read (andThen text (failed text2))
    rw [spec]
    simp +decide only [Tmsg.unpackcase, if_true, if_false, H, found, gstring_none bytes text2,
      Tmsg.outcome]
  have spec : readT Tauth (f.drop H) = some (.auth afid uname aname, r2) :=
    andThen read (andThen text (andThen text2 rfl))
  obtain ⟨o2, found2, _, _⟩ := gstring_some bytes text2
  obtain rfl : o2 = f.length - r2.length := by omega
  rw [spec]
  simp +decide only [Tmsg.unpackcase, if_true, if_false, H, found, found2, Tmsg.outcome]

theorem Tmsg.flush_eq (enough : hdrlen Tflush ≤ f.length) :
    Tmsg.unpackfields f Tflush tag = Tmsg.outcome f tag (readT Tflush (f.drop H)) := by
  have long : H + 2 ≤ f.length := enough
  have ⟨oldtag, read⟩ := number_at 2 long
  have spec : readT Tflush (f.drop H) = some (.flush oldtag, f.drop (H + 2)) := andThen read rfl
  have code : Tmsg.unpackfields f Tflush tag = some (((H + 2 : Nat) : Int), some ⟨tag, .flush oldtag⟩) :=
    andThen rfl (andThen (g16_at bytes read) rfl)
  rw [spec, code, Tmsg.outcome, length_drop]
  congr 3
  omega

theorem Tmsg.attach_eq (enough : hdrlen Tattach ≤ f.length) :
    Tmsg.unpackfields f Tattach tag = Tmsg.outcome f tag (readT Tattach (f.drop H)) := by
  have long : 19 ≤ f.length := enough
  obtain ⟨fid, read, select⟩ := Tmsg.fid_at bytes tag (by decide) enough
  obtain ⟨afid, read2⟩ := number_at (f := f) 4 (i := 11) (by omega)
  apply select
  rcases text : rstr (f.drop 15) with _ | ⟨uname, r1⟩
  · have spec : readT Tattach (f.drop H) = none := andThen read (andThen read2 (failed text))
    rw [spec]
    refine andThen (g32_at bytes read2) ?_
    simp only [H, Nat.reduceMul, Nat.reduceAdd, gstring_none bytes text, Tmsg.outcome]
  obtain ⟨o1, found, rfl, _⟩ := gstring_some bytes text
  rcases text2 : rstr (f.drop o1) with _ | ⟨aname, r2⟩
  · have spec : readT Tattach (f.drop H) = none :=
      andThen read (andThen read2 (andThen text (failed text2)))
    rw [spec]
    refine andThen (g32_at bytes read2) ?_
    simp only [H, Nat.reduceMul, Nat.reduceAdd, found, gstring_none bytes text2, Tmsg.outcome]
  have spec : readT Tattach (f.drop H) = some (.attach fid afid uname aname, r2) :=
    andThen read (andThen read2 (andThen text (andThen text2 rfl)))
  obtain ⟨o2, found2, _, _⟩ := gstring_some bytes text2
  obtain rfl : o2 = f.length - r2.length := by omega
  rw [spec]
  refine andThen (g32_at bytes read2) ?_
  simp only [H, Nat.reduceMul, Nat.reduceAdd, found, found2, Tmsg.outcome]

theorem gnames_eq (n : Nat) : ∀ {o : Nat}, o ≤ f.length →
    match rnames n (f.drop o) with
    | some (names, rest) => ∃ e, gnames f n o = some (names, e) ∧ e + rest.length = f.length
    | none => gnames f n o = none := by
  induction n with
  | zero =>
    intro o inside
    exact ⟨o, rfl, by rw [length_drop]; omega⟩
  | succ n ih =>
    intro o _
    rw [rnames, gnames]
    rcases text : rstr (f.drop o) with _ | ⟨name, r⟩
    · rw [gstring_none bytes text]
      rfl
    obtain ⟨e, found, rfl, ends⟩ := gstring_some bytes text
    have later := ih (o := e) (by omega)
    rw [found]
    simp only [bind_eq_bind, bind_some]
    rcases more : rnames n (f.drop e) with _ | ⟨names, rest⟩
    · rw [more] at later
      simp only at later
      simp [later]
    · rw [more] at later
      obtain ⟨stop, loop, ends⟩ := later
      exact ⟨stop, by rw [loop]; rfl, ends⟩

theorem Tmsg.walk_eq (enough : hdrlen Twalk ≤ f.length) :
    Tmsg.unpackfields f Twalk tag = Tmsg.outcome f tag (readT Twalk (f.drop H)) := by
  have long : 17 ≤ f.length := enough
  obtain ⟨fid, read, select⟩ := Tmsg.fid_at bytes tag (by decide) enough
  obtain ⟨newfid, read2⟩ := number_at (f := f) 4 (i := 11) (by omega)
  obtain ⟨n, read3⟩ := number_at (f := f) 2 (i := 15) (by omega)
  apply select
  by_cases many : MAXWELEM < n
  · have spec : readT Twalk (f.drop H) = none :=
      andThen read (andThen read2 (andThen read3 (if_pos many)))
    rw [spec]
    exact andThen (g32_at bytes read2) (andThen (g16_at bytes read3) (if_pos many))
  have names := gnames_eq bytes n (o := 17) long
  rcases loop : rnames n (f.drop 17) with _ | ⟨found, rest⟩
  · rw [loop] at names
    have spec : readT Twalk (f.drop H) = none :=
      andThen read (andThen read2 (andThen read3 ((if_neg many).trans (failed loop))))
    rw [spec]
    refine andThen (g32_at bytes read2) (andThen (g16_at bytes read3) ((if_neg many).trans ?_))
    simp only at names
    simp only [H, Nat.reduceMul, Nat.reduceAdd, names, Tmsg.outcome]
  rw [loop] at names
  obtain ⟨e, code, _⟩ := names
  obtain rfl : e = f.length - rest.length := by omega
  have spec : readT Twalk (f.drop H) = some (.walk fid newfid found, rest) :=
    andThen read (andThen read2 (andThen read3 ((if_neg many).trans (andThen loop rfl))))
  rw [spec]
  refine andThen (g32_at bytes read2) (andThen (g16_at bytes read3) ((if_neg many).trans ?_))
  simp only [H, Nat.reduceMul, Nat.reduceAdd, code, Tmsg.outcome]

omit bytes in
/-- A message whose fields all have fixed places. -/
theorem Tmsg.outcome_fixed {pick : TPick} (enough : n ≤ f.length) :
    Tmsg.outcome f tag (some (pick, f.drop n)) = some ((n : Int), some ⟨tag, pick⟩) := by
  rw [Tmsg.outcome, length_drop]
  congr 3
  omega

theorem Tmsg.open_eq (enough : hdrlen Topen ≤ f.length) :
    Tmsg.unpackfields f Topen tag = Tmsg.outcome f tag (readT Topen (f.drop H)) := by
  have long : 12 ≤ f.length := enough
  have ⟨fid, read, select⟩ := Tmsg.fid_at bytes tag (by decide) enough
  have ⟨mode, read2⟩ := number_at (f := f) 1 (i := 11) (by omega)
  have spec : readT Topen (f.drop H) = some (.«open» fid mode, f.drop 12) :=
    andThen read (andThen read2 rfl)
  rw [spec, Tmsg.outcome_fixed long]
  exact select _ (andThen (byte_at read2) rfl)

theorem Tmsg.create_eq (enough : hdrlen Tcreate ≤ f.length) :
    Tmsg.unpackfields f Tcreate tag = Tmsg.outcome f tag (readT Tcreate (f.drop H)) := by
  obtain ⟨fid, read, select⟩ := Tmsg.fid_at bytes tag (by decide) enough
  apply select
  rcases text : rstr (f.drop 11) with _ | ⟨name, r⟩
  · have spec : readT Tcreate (f.drop H) = none := andThen read (failed text)
    rw [spec]
    simp +decide only [Tmsg.unpackcase, if_true, if_false, H, gstring_none bytes text, Tmsg.outcome]
  obtain ⟨o, found, rfl, ends⟩ := gstring_some bytes text
  rw [length_drop] at ends
  have code : Tmsg.unpackcase f Tcreate tag fid =
      if f.length < o + 4 + 1 then illegal
      else (g32 f o).bind fun perm => (f[o + 4]?).bind fun mode =>
        some (((o + 4 + 1 : Nat) : Int), some ⟨tag, .create fid name perm mode⟩) := by
    simp +decide only [Tmsg.unpackcase, if_true, if_false, H, found]
    rfl
  rw [code]
  by_cases short : f.length < o + 4 + 1
  · have spec : readT Tcreate (f.drop H) = none := by
      refine andThen read (andThen text ?_)
      by_cases none_ : f.length < o + 4
      · exact failed (rd_eq_none (by rw [length_drop]; omega))
      · obtain ⟨perm, permRead⟩ := number_at (f := f) 4 (i := o) (by omega)
        exact andThen permRead (failed (rd_eq_none (by rw [length_drop]; omega)))
    rw [spec, if_pos short]
    rfl
  · obtain ⟨perm, permRead⟩ := number_at (f := f) 4 (i := o) (by omega)
    obtain ⟨mode, modeRead⟩ := number_at (f := f) 1 (i := o + 4) (by omega)
    have spec : readT Tcreate (f.drop H) = some (.create fid name perm mode, f.drop (o + 4 + 1)) :=
      andThen read (andThen text (andThen permRead (andThen modeRead rfl)))
    rw [spec, if_neg short, Tmsg.outcome_fixed (Nat.not_lt.1 short)]
    exact andThen (g32_at bytes permRead) (andThen (byte_at modeRead) rfl)

theorem Tmsg.read_eq (enough : hdrlen Tread ≤ f.length) :
    Tmsg.unpackfields f Tread tag = Tmsg.outcome f tag (readT Tread (f.drop H)) := by
  have long : 23 ≤ f.length := enough
  have ⟨fid, read, select⟩ := Tmsg.fid_at bytes tag (by decide) enough
  have ⟨offset, read2⟩ := number_at (f := f) 8 (i := 11) (by omega)
  have ⟨count, read3⟩ := number_at (f := f) 4 (i := 19) (by omega)
  have spec : readT Tread (f.drop H) = some (.read fid offset count, f.drop 23) :=
    andThen read (andThen read2 (andThen read3 rfl))
  rw [spec, Tmsg.outcome_fixed long]
  exact select _ (andThen (g64_at bytes read2) (andThen (g32_at bytes read3) rfl))

/-- The three messages that are a fid alone. -/
theorem Tmsg.fid_eq {pick : Nat → TPick} (hasFid : hdrlen mtype = 11)
    (enough : hdrlen mtype ≤ f.length)
    (code : ∀ fid, Tmsg.unpackcase f mtype tag fid = some (((H + 4 : Nat) : Int), some ⟨tag, pick fid⟩))
    (spec : ∀ r, readT mtype r = (rd 4 r).bind fun (fid, r) => some (pick fid, r)) :
    Tmsg.unpackfields f mtype tag = Tmsg.outcome f tag (readT mtype (f.drop H)) := by
  have ⟨fid, read, select⟩ := Tmsg.fid_at bytes tag (by rw [hasFid]; decide) enough
  have found : readT mtype (f.drop H) = some (pick fid, f.drop 11) := by
    rw [spec]
    exact andThen read rfl
  rw [found, Tmsg.outcome_fixed (hasFid ▸ enough)]
  exact select _ (code fid)

omit bytes in
theorem sint_of_small (small : n < 2147483648) : sint n = n := if_pos small

omit bytes in
theorem slice_at {count : Nat} {data : Bytes}
    (read : Wire.take count (f.drop o) = some (data, rest)) (inside : o ≤ f.length) :
    slice f o (o + count) = some data ∧ rest = f.drop (o + count) ∧ o + count ≤ f.length := by
  obtain ⟨rfl, rfl, fits⟩ := take_eq_some read
  rw [length_drop] at fits
  refine ⟨?_, by rw [drop_drop], by omega⟩
  rw [slice, if_pos (by omega)]
  have start : ((o : Int)).toNat = o := by omega
  have stop : ((o : Int) + (count : Int)).toNat = o + count := by omega
  rw [start, stop, drop_take]
  congr 2
  omega

variable (tag) in
theorem Tmsg.write_eq (enough : hdrlen Twrite ≤ f.length) (short : f.length < 2147483648) :
    ∃ count, rd 4 (f.drop 19) = some (count, f.drop 23) ∧
      (count < 2147483648 →
        Tmsg.unpackfields f Twrite tag = Tmsg.outcome f tag (readT Twrite (f.drop H))) ∧
      (2147483648 ≤ count → Tmsg.unpackfields f Twrite tag = none) := by
  have long : 23 ≤ f.length := enough
  have ⟨fid, read, select⟩ := Tmsg.fid_at bytes tag (by decide) enough
  have ⟨offset, read2⟩ := number_at (f := f) 8 (i := 11) (by omega)
  have ⟨count, read3⟩ := number_at (f := f) 4 (i := 19) (by omega)
  have small : count < 4294967296 := rd_lt (IsBytes.drop bytes 19) read3
  have code : Tmsg.unpackcase f Twrite tag fid =
      if (f.length : Int) - (23 : Nat) < sint count then illegal
      else (slice f ((23 : Nat) : Int) ((23 : Nat) + sint count)).bind fun data =>
        some ((23 : Nat) + sint count, some ⟨tag, .write fid offset data⟩) :=
    andThen (g64_at bytes read2) (andThen (g32_at bytes read3) rfl)
  refine ⟨count, read3, fun positive => select _ ?_, fun negative => select _ ?_⟩
  · rw [code, sint_of_small positive]
    rcases data : Wire.take count (f.drop 23) with _ | ⟨found, rest⟩
    · have spec : readT Twrite (f.drop H) = none :=
        andThen read (andThen read2 (andThen read3 (failed data)))
      have past : (f.length : Int) - (23 : Nat) < count := by
        by_contra fits
        rw [Wire.take, if_pos (by rw [length_drop]; omega)] at data
        cases data
      rw [spec, if_pos past]
      rfl
    · obtain ⟨sliced, rfl, fits⟩ := slice_at data long
      have spec : readT Twrite (f.drop H) = some (.write fid offset found, f.drop (23 + count)) :=
        andThen read (andThen read2 (andThen read3 (andThen data rfl)))
      rw [spec, if_neg (by omega), Tmsg.outcome_fixed fits]
      exact andThen sliced rfl
  · have value : sint count = (count : Int) - 4294967296 := if_neg (by omega)
    rw [code, value, if_neg (by omega)]
    exact failed (if_neg (by omega))

/-- The size of the stat record that a stream starts with, 0 where there is none. -/
def statfront (r : Bytes) : Nat := ((rdir r).map Prod.fst).getD 0

variable (tag) in
/-- A wstat is accepted when the record in front has the low byte of the count as its
size. -/
theorem Tmsg.wstat_eq (enough : hdrlen Twstat ≤ f.length) :
    ∃ fid n, rd 4 (f.drop H) = some (fid, f.drop 11) ∧ rd 2 (f.drop 11) = some (n, f.drop 13) ∧
      (statfront (f.drop 13) ≠ n % 256 → Tmsg.unpackfields f Twstat tag = illegal) ∧
      (statfront (f.drop 13) = n % 256 → ∃ d, Tmsg.unpackfields f Twstat tag =
        some (((13 + n % 256 : Nat) : Int), some ⟨tag, .wstat fid d⟩) ∧
        ∀ size found rest, rdir (f.drop 13) = some (size, found, rest) → d = found) := by
  have long : 13 ≤ f.length := enough
  have ⟨fid, read, select⟩ := Tmsg.fid_at bytes tag (by decide) enough
  have ⟨n, read2⟩ := number_at (f := f) 2 (i := 11) (by omega)
  have ⟨low, lowRead⟩ := number_at (f := f) 1 (i := 11) (by omega)
  have ⟨high, highRead⟩ := number_at (f := f) 1 (i := 12) (by omega)
  have lowByte : low < 256 := rd_lt (IsBytes.drop bytes 11) lowRead
  have count : n = low + 256 * high := by
    have whole := g16_at bytes read2
    rw [g16, byte_at lowRead, byte_at highRead] at whole
    have value := Option.some.inj whole
    rw [or_low (by omega : low < 2 ^ 8)] at value
    omega
  have lost : (high <<< 8) % 256 ||| low = n % 256 := by
    rw [Nat.shiftLeft_eq, Nat.mul_mod_left, Nat.zero_or]
    omega
  have record := unpackdir_eq (IsBytes.drop bytes 13)
  have code : Tmsg.unpackcase f Twstat tag fid =
      if f.length < 13 + n % 256 then illegal
      else (unpackdir (f.drop 13)).bind fun read =>
        if read.1 ≠ n % 256 then illegal
        else some (((13 + n % 256 : Nat) : Int), some ⟨tag, .wstat fid read.2⟩) := by
    refine andThen (byte_at highRead) (andThen (byte_at lowRead) ?_)
    simp only [lost]
    rfl
  refine ⟨fid, n, read, read2, fun differ => select _ ?_, fun same => ?_⟩
  · rw [code]
    split_ifs
    · rfl
    rcases found : rdir (f.drop 13) with _ | ⟨size, d, rest⟩
    · rw [found] at record
      have ⟨d, unpacked⟩ := record
      rw [statfront, found] at differ
      exact andThen unpacked (if_pos differ)
    · rw [found] at record
      rw [statfront, found] at differ
      exact andThen record.1 (if_pos differ)
  · rcases found : rdir (f.drop 13) with _ | ⟨size, d, rest⟩
    · rw [found] at record
      have ⟨d, unpacked⟩ := record
      rw [statfront, found] at same
      refine ⟨d, select _ ?_, fun _ _ _ impossible => by cases impossible⟩
      rw [code, if_neg (by simp at same; omega)]
      exact andThen unpacked (if_neg (not_not.2 same))
    rw [found] at record
    have ⟨unpacked, _, fits⟩ := record
    rw [statfront, found] at same
    have size_ : size = n % 256 := same
    rw [length_drop] at fits
    refine ⟨d, select _ ?_, fun _ _ _ which => by cases which; rfl⟩
    rw [code, if_neg (by omega)]
    exact andThen unpacked (if_neg (not_not.2 same))

/-- The type is one that `readT` knows. -/
theorem Tmsg.fields_eq (enough : hdrlen mtype ≤ f.length) (notWrite : mtype ≠ Twrite)
    (notWstat : mtype ≠ Twstat) :
    Tmsg.unpackfields f mtype tag = Tmsg.outcome f tag (readT mtype (f.drop H)) := by
  by_cases version : mtype = Tversion
  · subst version
    exact Tmsg.version_eq bytes enough
  by_cases auth : mtype = Tauth
  · subst auth
    exact Tmsg.auth_eq bytes enough
  by_cases flush : mtype = Tflush
  · subst flush
    exact Tmsg.flush_eq bytes enough
  by_cases attach : mtype = Tattach
  · subst attach
    exact Tmsg.attach_eq bytes enough
  by_cases walk : mtype = Twalk
  · subst walk
    exact Tmsg.walk_eq bytes enough
  by_cases opened : mtype = Topen
  · subst opened
    exact Tmsg.open_eq bytes enough
  by_cases create : mtype = Tcreate
  · subst create
    exact Tmsg.create_eq bytes enough
  by_cases read : mtype = Tread
  · subst read
    exact Tmsg.read_eq bytes enough
  by_cases clunk : mtype = Tclunk
  · subst clunk
    exact Tmsg.fid_eq bytes rfl enough (fun _ => rfl) (fun _ => rfl)
  by_cases remove : mtype = Tremove
  · subst remove
    exact Tmsg.fid_eq bytes rfl enough (fun _ => rfl) (fun _ => rfl)
  by_cases stat : mtype = Tstat
  · subst stat
    exact Tmsg.fid_eq bytes rfl enough (fun _ => rfl) (fun _ => rfl)
  have spec : readT mtype (f.drop H) = none := by
    simp only [readT, version, auth, flush, attach, walk, opened, create, read, notWrite, clunk,
      remove, stat, notWstat, if_false]
  have code : ∀ fid, Tmsg.unpackcase f mtype tag fid = illegal := by
    intro fid
    simp only [Tmsg.unpackcase, version, auth, flush, attach, walk, opened, create, read, notWrite,
      clunk, remove, stat, notWstat, if_false]
  rw [spec, Tmsg.unpackfields]
  split_ifs with hasFid
  · have ⟨fid, found⟩ := number_at (f := f) 4 (i := H) (by omega)
    exact andThen (g32_at bytes found) (code fid)
  · exact code 0

/-! ### R-messages -/

/-- What `unpack` returns for the fields that a reader found. -/
def Rmsg.outcome (f : Bytes) (tag : Nat) : Option (RPick × Bytes) → Option (Unpacked Rmsg)
  | none => illegal
  | some (pick, rest) => some (((f.length - rest.length : Nat) : Int), some ⟨tag, pick⟩)

omit bytes in
theorem Rmsg.outcome_fixed {pick : RPick} (enough : n ≤ f.length) :
    Rmsg.outcome f tag (some (pick, f.drop n)) = some ((n : Int), some ⟨tag, pick⟩) := by
  rw [Rmsg.outcome, length_drop]
  congr 3
  omega

omit bytes in
theorem qid_at (enough : i + 13 ≤ f.length) : ∃ q, rqid (f.drop i) = some (q, f.drop (i + 13)) := by
  have ⟨q, read⟩ := exists_rqid (r := f.drop i) (by rw [length_drop]; omega)
  exact ⟨q, by rw [read, drop_drop]⟩

theorem Rmsg.version_eq (enough : hdrlen Rversion ≤ f.length) :
    Rmsg.unpackfields f Rversion tag = Rmsg.outcome f tag (readR Rversion (f.drop H)) := by
  have long : 13 ≤ f.length := enough
  obtain ⟨msize, read⟩ := number_at (f := f) 4 (i := H) (by unfold H; omega)
  rcases text : rstr (f.drop 11) with _ | ⟨v, r⟩
  · have spec : readR Rversion (f.drop H) = none := andThen read (failed text)
    rw [spec]
    refine andThen (g32_at bytes read) ?_
    simp only [H, Nat.reduceAdd, gstring_none bytes text, Rmsg.outcome]
  have spec : readR Rversion (f.drop H) = some (.version msize v, r) :=
    andThen read (andThen text rfl)
  obtain ⟨e, found, _, _⟩ := gstring_some bytes text
  obtain rfl : e = f.length - r.length := by omega
  rw [spec]
  refine andThen (g32_at bytes read) ?_
  simp only [H, Nat.reduceAdd, found, Rmsg.outcome]

theorem Rmsg.error_eq : Rmsg.unpackfields f Rerror tag =
    Rmsg.outcome f tag (readR Rerror (f.drop H)) := by
  rcases text : rstr (f.drop H) with _ | ⟨ename, r⟩
  · have spec : readR Rerror (f.drop H) = none := failed text
    rw [spec]
    simp +decide only [Rmsg.unpackfields, if_true, if_false, gstring_none bytes text, Rmsg.outcome]
  have spec : readR Rerror (f.drop H) = some (.error ename, r) := andThen text rfl
  have ⟨e, found, _, _⟩ := gstring_some bytes text
  obtain rfl : e = f.length - r.length := by omega
  rw [spec]
  simp +decide only [Rmsg.unpackfields, if_true, if_false, found, Rmsg.outcome]

theorem Rmsg.qid_eq {pick : Qid → RPick} (enough : H + 13 ≤ f.length)
    (code : Rmsg.unpackfields f mtype tag =
      (gqid f H).bind fun q => some (((H + 13 : Nat) : Int), some ⟨tag, pick q⟩))
    (spec : ∀ r, readR mtype r = (rqid r).bind fun (q, r) => some (pick q, r)) :
    Rmsg.unpackfields f mtype tag = Rmsg.outcome f tag (readR mtype (f.drop H)) := by
  have ⟨q, read⟩ := qid_at enough
  have found : readR mtype (f.drop H) = some (pick q, f.drop (H + 13)) := by
    rw [spec]
    exact andThen read rfl
  rw [found, Rmsg.outcome_fixed enough, code]
  exact andThen (gqid_at bytes read) rfl

/-- The messages that are a qid and a number. -/
theorem Rmsg.iounit_eq {pick : Qid → Nat → RPick} (enough : H + 13 + 4 ≤ f.length)
    (code : Rmsg.unpackfields f mtype tag = (gqid f H).bind fun q => (g32 f (H + 13)).bind fun n =>
      some (((H + 13 + 4 : Nat) : Int), some ⟨tag, pick q n⟩)) (spec : ∀ r, readR mtype r =
      (rqid r).bind fun (q, r) => (rd 4 r).bind fun (n, r) => some (pick q n, r)) :
    Rmsg.unpackfields f mtype tag = Rmsg.outcome f tag (readR mtype (f.drop H)) := by
  have ⟨q, read⟩ := qid_at (f := f) (i := H) (by omega)
  have ⟨n, read2⟩ := number_at (f := f) 4 (i := H + 13) enough
  have found : readR mtype (f.drop H) = some (pick q n, f.drop (H + 13 + 4)) := by
    rw [spec]
    exact andThen read (andThen read2 rfl)
  rw [found, Rmsg.outcome_fixed enough, code]
  exact andThen (gqid_at bytes read) (andThen (g32_at bytes read2) rfl)

omit bytes in
theorem Rmsg.bare_eq {pick : RPick} (enough : H ≤ f.length)
    (code : Rmsg.unpackfields f mtype tag = some ((H : Int), some ⟨tag, pick⟩))
    (spec : ∀ r, readR mtype r = some (pick, r)) :
    Rmsg.unpackfields f mtype tag = Rmsg.outcome f tag (readR mtype (f.drop H)) := by
  rw [spec, Rmsg.outcome_fixed enough, code]

/-- Qids have a fixed size, so that their number tells whether they are all there. -/
theorem gqids_eq (n : Nat) : ∀ {o : Nat}, o ≤ f.length →
    if o + n * 13 ≤ f.length then
      ∃ qids, rqids n (f.drop o) = some (qids, f.drop (o + n * 13)) ∧ gqids f n o = some qids
    else rqids n (f.drop o) = none := by
  induction n with
  | zero =>
    intro o inside
    rw [if_pos (by omega)]
    exact ⟨[], by simp [rqids], rfl⟩
  | succ n ih =>
    intro o _
    by_cases first : o + 13 ≤ f.length
    · obtain ⟨q, read⟩ := qid_at first
      have later := ih first
      by_cases fits : o + 13 + n * 13 ≤ f.length
      · rw [if_pos fits] at later
        obtain ⟨qids, more, loop⟩ := later
        rw [if_pos (by omega)]
        refine ⟨q :: qids, ?_, andThen (gqid_at bytes read) (andThen loop rfl)⟩
        rw [show o + (n + 1) * 13 = o + 13 + n * 13 by omega]
        exact andThen read (andThen more rfl)
      · rw [if_neg fits] at later
        rw [if_neg (by omega)]
        exact andThen read (failed later)
    · rw [if_neg (by omega)]
      refine failed ?_
      by_contra some_
      obtain ⟨⟨q, rest⟩, read⟩ := ne_none_iff_exists'.1 some_
      have enough := (rqid_eq_some read).2
      rw [length_drop] at enough
      omega

theorem Rmsg.walk_eq (enough : hdrlen Rwalk ≤ f.length) :
    Rmsg.unpackfields f Rwalk tag = Rmsg.outcome f tag (readR Rwalk (f.drop H)) := by
  have long : 9 ≤ f.length := enough
  have ⟨nqid, read⟩ := number_at (f := f) 2 (i := H) (by unfold H; omega)
  have qids := gqids_eq bytes nqid (o := 9) long
  have header : H + 2 = 9 := rfl
  by_cases fits : 9 + nqid * 13 ≤ f.length
  · rw [if_pos fits] at qids
    have ⟨found, spec, loop⟩ := qids
    have whole : readR Rwalk (f.drop H) = some (.walk found, f.drop (9 + nqid * 13)) :=
      andThen read (andThen spec rfl)
    rw [whole, Rmsg.outcome_fixed fits]
    exact andThen (g16_at bytes read) ((if_neg (by omega)).trans (andThen loop rfl))
  · rw [if_neg fits] at qids
    have whole : readR Rwalk (f.drop H) = none := andThen read (failed qids)
    rw [whole]
    exact andThen (g16_at bytes read) (if_pos (by omega))

variable (tag) in
theorem Rmsg.read_eq (enough : hdrlen Rread ≤ f.length) (short : f.length < 2147483648) :
    ∃ count, rd 4 (f.drop H) = some (count, f.drop 11) ∧
      (count < 2147483637 →
        Rmsg.unpackfields f Rread tag = Rmsg.outcome f tag (readR Rread (f.drop H))) ∧
      (2147483637 ≤ count → Rmsg.unpackfields f Rread tag = none) := by
  have long : 11 ≤ f.length := enough
  have ⟨count, read⟩ := number_at (f := f) 4 (i := H) (by unfold H; omega)
  have small : count < 4294967296 := rd_lt (IsBytes.drop bytes H) read
  have code : Rmsg.unpackfields f Rread tag =
      if (f.length : Int) < sint (int32 (11 + count)) then illegal
      else (slice f ((11 : Nat) : Int) (sint (int32 (11 + count)))).bind fun data =>
        some (sint (int32 (11 + count)), some ⟨tag, .read data⟩) :=
    andThen (g32_at bytes read) rfl
  refine ⟨count, read, fun positive => ?_, fun negative => ?_⟩
  · have value : sint (int32 (11 + count)) = ((11 : Nat) : Int) + (count : Int) := by
      unfold int32
      rw [Nat.mod_eq_of_lt (by omega), sint_of_small (by omega), Nat.cast_add]
    rw [code, value]
    rcases data : Wire.take count (f.drop 11) with _ | ⟨found, rest⟩
    · have spec : readR Rread (f.drop H) = none := andThen read (failed data)
      have past : (f.length : Int) < ((11 : Nat) : Int) + count := by
        by_contra fits
        rw [Wire.take, if_pos (by rw [length_drop]; omega)] at data
        cases data
      rw [spec, if_pos past]
      rfl
    · obtain ⟨sliced, rfl, fits⟩ := slice_at data long
      have spec : readR Rread (f.drop H) = some (.read found, f.drop (11 + count)) :=
        andThen read (andThen data rfl)
      rw [spec, if_neg (by omega), Rmsg.outcome_fixed fits]
      exact andThen sliced rfl
  · have below : sint (int32 (11 + count)) < 11 := by
      unfold sint int32
      split_ifs <;> omega
    rw [code, if_neg (by omega)]
    exact failed (if_neg (by omega))

theorem Rmsg.write_eq (enough : hdrlen Rwrite ≤ f.length) :
    Rmsg.unpackfields f Rwrite tag = Rmsg.outcome f tag (readR Rwrite (f.drop H)) := by
  have long : 11 ≤ f.length := enough
  have ⟨count, read⟩ := number_at (f := f) 4 (i := H) (by unfold H; omega)
  have spec : readR Rwrite (f.drop H) = some (.write count, f.drop 11) := andThen read rfl
  rw [spec, Rmsg.outcome_fixed long]
  exact andThen (g32_at bytes read) rfl

theorem Rmsg.stat_eq (enough : hdrlen Rstat ≤ f.length) :
    Rmsg.unpackfields f Rstat tag = Rmsg.outcome f tag (readR Rstat (f.drop H)) := by
  have long : 9 ≤ f.length := enough
  have ⟨n, read⟩ := number_at (f := f) 2 (i := H) (by unfold H; omega)
  have record := unpackdir_eq (IsBytes.drop bytes 9)
  have code : Rmsg.unpackfields f Rstat tag =
      if f.length < 9 + n then illegal
      else (unpackdir (f.drop 9)).bind fun read =>
        if read.1 = 0 then illegal
        else if read.1 ≠ n then illegal
        else some (((9 + n : Nat) : Int), some ⟨tag, .stat read.2⟩) :=
    andThen (g16_at bytes read) rfl
  rw [code]
  rcases found : rdir (f.drop 9) with _ | ⟨size, d, rest⟩
  · rw [found] at record
    have ⟨d, unpacked⟩ := record
    have spec : readR Rstat (f.drop H) = none :=
      failed (show rstat (f.drop H) = none from andThen read (failed found))
    rw [spec]
    split_ifs
    · rfl
    · exact andThen unpacked rfl
  rw [found] at record
  have ⟨unpacked, atLeast, fits⟩ := record
  rw [length_drop] at fits
  unfold STATFIXLEN at atLeast
  by_cases same : size = n
  · subst same
    have spec : readR Rstat (f.drop H) = some (.stat d, rest) :=
      andThen (show rstat (f.drop H) = some (d, rest) from
        andThen read (andThen found (if_pos rfl))) rfl
    rw [spec, if_neg (by omega), Rmsg.outcome]
    refine andThen unpacked ?_
    simp only
    rw [if_neg (by omega), if_neg (by simp)]
    congr 3
    omega
  · have spec : readR Rstat (f.drop H) = none :=
      failed (show rstat (f.drop H) = none from andThen read (andThen found (if_neg same)))
    rw [spec]
    split_ifs
    · rfl
    refine andThen unpacked ?_
    simp only
    rw [if_neg (by omega), if_pos same]
    rfl

theorem Rmsg.fields_eq (header : H ≤ f.length) (enough : hdrlen mtype ≤ f.length)
    (notRead : mtype ≠ Rread) :
    Rmsg.unpackfields f mtype tag = Rmsg.outcome f tag (readR mtype (f.drop H)) := by
  by_cases version : mtype = Rversion
  · subst version
    exact Rmsg.version_eq bytes enough
  by_cases auth : mtype = Rauth
  · subst auth
    exact Rmsg.qid_eq bytes enough rfl (fun _ => rfl)
  by_cases flush : mtype = Rflush
  · subst flush
    exact Rmsg.bare_eq header rfl (fun _ => rfl)
  by_cases error : mtype = Rerror
  · subst error
    exact Rmsg.error_eq bytes
  by_cases clunk : mtype = Rclunk
  · subst clunk
    exact Rmsg.bare_eq header rfl (fun _ => rfl)
  by_cases remove : mtype = Rremove
  · subst remove
    exact Rmsg.bare_eq header rfl (fun _ => rfl)
  by_cases wstat : mtype = Rwstat
  · subst wstat
    exact Rmsg.bare_eq header rfl (fun _ => rfl)
  by_cases attach : mtype = Rattach
  · subst attach
    exact Rmsg.qid_eq bytes enough rfl (fun _ => rfl)
  by_cases walk : mtype = Rwalk
  · subst walk
    exact Rmsg.walk_eq bytes enough
  by_cases opened : mtype = Ropen
  · subst opened
    exact Rmsg.iounit_eq bytes enough rfl (fun _ => rfl)
  by_cases create : mtype = Rcreate
  · subst create
    exact Rmsg.iounit_eq bytes enough rfl (fun _ => rfl)
  by_cases write : mtype = Rwrite
  · subst write
    exact Rmsg.write_eq bytes enough
  by_cases stat : mtype = Rstat
  · subst stat
    exact Rmsg.stat_eq bytes enough
  have spec : readR mtype (f.drop H) = none := by
    simp only [readR, version, auth, flush, error, clunk, remove, wstat, attach, walk, opened,
      create, notRead, write, stat, if_false]
  rw [spec]
  simp only [Rmsg.unpackfields, version, auth, flush, error, clunk, remove, wstat, attach, walk,
    opened, create, notRead, write, stat, if_false]
  rfl

end Cases

end Infernode.Styx
