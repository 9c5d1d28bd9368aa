import Infernode.Text.Decimal
import Mathlib.Data.List.TakeWhile

/-!
Timestamps, `appl/lib/rfc3339.b`, and the seconds of a date, `tm2epoch` of `appl/lib/daytime.b`.

Owns: the two functions, with their 32-bit integers; the date and time that a text names, with its
instant in the Gregorian calendar; and that the functions give this instant, wrapped.
-/

namespace Infernode.Rfc3339

open Text List Option

/-! ### Seconds of a date -/

def SEC2DAY : Int := 60 * 60 * 24

def dysize (y : Int) : Int := if y % 4 = 0 ∧ (y % 100 ≠ 0 ∨ y % 400 = 0) then 366 else 365

def dmsize : List Int := [31, 28, 31, 30, 31, 30, 31, 31, 30, 31, 30, 31]

def ldmsize : List Int := [31, 29, 31, 30, 31, 30, 31, 31, 30, 31, 30, 31]

structure Tm where
  sec : Int
  min : Int
  hour : Int
  mday : Int
  mon : Nat
  year : Int
  tzoff : Int

/-- A loop that adds some days to `secs`, one number of days after another. -/
def accumulate (secs : Int) (days : List Int) : Int :=
  days.foldl (fun secs d => wrap (secs + d * SEC2DAY)) secs

def tm2epoch (tm : Tm) : Int :=
  let yr := tm.year + 1900
  let secs :=
    if yr < 1970 then
      accumulate 0 ((List.range (1970 - yr).toNat).map fun k : Nat => -dysize (yr + k))
    else accumulate 0 ((List.range (yr - 1970).toNat).map fun k : Nat => dysize (1970 + k))
  let dmsz := if dysize yr = 366 then ldmsize else dmsize
  let secs := accumulate secs (dmsz.take tm.mon)
  let secs := wrap (secs + (tm.mday - 1) * SEC2DAY)
  let secs := wrap (secs + tm.hour * 3600)
  let secs := wrap (secs + tm.min * 60)
  let secs := wrap (secs + tm.sec)
  wrap (secs - tm.tzoff)

/-! ### The parser -/

/-- A number of so many digits, or -1. -/
def atoi (n : Nat) (s : Str) : Int :=
  if s.length = n ∧ s.all isDigit then natOfDigits s else -1

def atoi2 : Str → Int := atoi 2

def atoi4 : Str → Int := atoi 4

def skipfraction : Str → Str
  | 46 :: tz => tz.dropWhile isDigit
  | tz => tz

def tzoff (tz : Str) : Except Str Int :=
  if tz = str "Z" ∨ tz = str "z" then .ok 0
  else
    match tz with
    | [sign, h, h', 58, m, m'] =>
      if sign = 43 ∨ sign = 45 then
        let off_h := atoi2 [h, h']
        let off_m := atoi2 [m, m']
        if off_h < 0 ∨ off_h > 23 ∨ off_m < 0 ∨ off_m > 59 then
          .error (str "rfc3339: timezone offset out of range")
        else .ok (if sign = 45 then -(off_h * 3600 + off_m * 60) else off_h * 3600 + off_m * 60)
      else .error (str "rfc3339: timezone must be Z, +HH:MM, or -HH:MM")
    | _ => .error (str "rfc3339: timezone must be Z, +HH:MM, or -HH:MM")

/-- The characters are cut into the fields where the source indexes them. -/
def parse : Str → Except Str Int
  | y :: y' :: y'' :: y''' :: c4 :: o :: o' :: c7 :: d :: d' :: c10 :: h :: h' :: c13 :: n :: n' ::
      c16 :: s :: s' :: c19 :: tz =>
    if c4 ≠ 45 ∨ c7 ≠ 45 ∨ (c10 ≠ 84 ∧ c10 ≠ 32) ∨ c13 ≠ 58 ∨ c16 ≠ 58 then
      .error (str "rfc3339: bad punctuation (expected YYYY-MM-DDTHH:MM:SS<TZ>)")
    else
      let year := atoi4 [y, y', y'', y''']
      let month := atoi2 [o, o']
      let day := atoi2 [d, d']
      let hour := atoi2 [h, h']
      let minute := atoi2 [n, n']
      let sec := atoi2 [s, s']
      if year < 0 ∨ month < 1 ∨ month > 12 ∨ day < 1 ∨ day > 31 ∨ hour < 0 ∨ hour > 23 ∨
          minute < 0 ∨ minute > 59 ∨ sec < 0 ∨ sec > 60 then
        .error (str "rfc3339: numeric field out of range")
      else
        (tzoff (skipfraction (c19 :: tz))).map fun tzoff =>
          wrap (tm2epoch ⟨sec, minute, hour, day, (month - 1).toNat, year - 1900, 0⟩ - tzoff)
  | _ => .error (str "rfc3339: timestamp too short")

/-! ### Dates and instants -/

/-- A date and time of day, some seconds east of Greenwich; a fraction of a second is its digits. -/
structure Stamp where
  year : Nat
  month : Nat
  day : Nat
  hour : Nat
  minute : Nat
  second : Nat
  fraction : Option Str
  east : Int

def daysBefore (year : Int) : Int :=
  365 * year + (year + 3) / 4 - (year + 99) / 100 + (year + 399) / 400

/-- The seconds that `tm2epoch` adds up, over all integers. -/
def Tm.instant (tm : Tm) : Int :=
  let yr := tm.year + 1900
  (daysBefore yr - daysBefore 1970 +
    ((if dysize yr = 366 then ldmsize else dmsize).take tm.mon).sum + (tm.mday - 1)) * SEC2DAY +
    tm.hour * 3600 + tm.min * 60 + tm.sec - tm.tzoff

def monthLengths (year : Nat) : List Int :=
  [31, if 4 ∣ year ∧ (¬100 ∣ year ∨ 400 ∣ year) then 29 else 28,
    31, 30, 31, 30, 31, 31, 30, 31, 30, 31]

/-- The seconds from the first of January of 1970 in UTC, without the fraction. -/
def Stamp.instant (s : Stamp) : Int :=
  (daysBefore s.year - daysBefore 1970 + ((monthLengths s.year).take (s.month - 1)).sum +
    (s.day - 1)) * 86400 + s.hour * 3600 + s.minute * 60 + s.second - s.east

def Stamp.Exists (s : Stamp) : Prop := ∃ days, (monthLengths s.year)[s.month - 1]? = some days ∧
  (s.day : Int) ≤ days

def number (ds : Str) : Option Nat := if ds.all isDigit then some (natOfDigits ds) else none

def zone : Str → Option Int
  | [90] | [122] => some 0
  | [sign, h, h', 58, m, m'] => do
    let hours ← number [h, h']
    let minutes ← number [m, m']
    if (sign = 43 ∨ sign = 45) ∧ hours ≤ 23 ∧ minutes ≤ 59 then
      some (if sign = 45 then -(hours * 3600 + minutes * 60) else hours * 3600 + minutes * 60)
    else none
  | _ => none

def fraction : Str → Option Str
  | 46 :: rest => some (rest.takeWhile isDigit)
  | _ => none

/-- The date and time that a text names. -/
def named : Str → Option Stamp
  | y :: y' :: y'' :: y''' :: c4 :: o :: o' :: c7 :: d :: d' :: c10 :: h :: h' :: c13 :: n :: n' ::
      c16 :: s :: s' :: c19 :: tz =>
    if c4 = 45 ∧ c7 = 45 ∧ (c10 = 84 ∨ c10 = 32) ∧ c13 = 58 ∧ c16 = 58 then do
      let year ← number [y, y', y'', y''']
      let month ← number [o, o']
      let day ← number [d, d']
      let hour ← number [h, h']
      let minute ← number [n, n']
      let second ← number [s, s']
      let east ← zone (skipfraction (c19 :: tz))
      if 1 ≤ month ∧ month ≤ 12 ∧ 1 ≤ day ∧ day ≤ 31 ∧ hour ≤ 23 ∧ minute ≤ 59 ∧ second ≤ 60 then
        some ⟨year, month, day, hour, minute, second, fraction (c19 :: tz), east⟩
      else none
    else none
  | _ => none

/-! ### Wrapping -/

theorem wrap_add (t u : Int) : wrap (wrap t + u) = wrap (t + u) := Int.bmod_add_bmod

theorem wrap_sub (t u : Int) : wrap (wrap t - u) = wrap (t - u) := Int.bmod_sub_bmod

theorem wrap_mul (t u : Int) : wrap (wrap t * u) = wrap (t * u) := Int.bmod_mul_bmod

theorem wrap_accumulate (days : List Int) : ∀ secs,
    wrap (accumulate secs days) = wrap (secs + days.sum * SEC2DAY) := by
  induction days with
  | nil =>
    intro secs
    rw [sum_nil, Int.zero_mul, Int.add_zero]
    rfl
  | cons _ _ ih =>
    intro _
    rw [accumulate, foldl_cons, ← accumulate, ih, wrap_add, sum_cons, Int.add_mul,
      Int.add_assoc]

theorem dysize_eq (y : Int) : dysize y = daysBefore (y + 1) - daysBefore y := by
  unfold dysize daysBefore
  split
  · omega
  · omega

theorem sum_telescope {f g : Int → Int} (difference : ∀ y, f y = g (y + 1) - g y) (y : Int)
    (n : Nat) : ((List.range n).map fun k : Nat => f (y + k)).sum = g (y + n) - g y := by
  induction n with
  | zero => simp
  | succ _ ih =>
    rw [range_succ, map_append, sum_append, ih, map_singleton,
      sum_singleton, difference, Nat.cast_succ, Int.add_assoc]
    omega

theorem months_eq (year : Nat) :
    (if dysize year = 366 then ldmsize else dmsize) = monthLengths year := by
  have leap : dysize year = 366 ↔ 4 ∣ year ∧ (¬100 ∣ year ∨ 400 ∣ year) := by
    unfold dysize
    split
    · omega
    · omega
  unfold monthLengths
  by_cases isLeap : dysize year = 366
  · rw [if_pos isLeap, if_pos (leap.1 isLeap)]
    rfl
  · rw [if_neg isLeap, if_neg (isLeap ∘ leap.2)]
    rfl

theorem tm2epoch_eq (tm : Tm) : tm2epoch tm = wrap tm.instant := by
  have years (yr : Int) : wrap (if yr < 1970 then
      accumulate 0 ((List.range (1970 - yr).toNat).map fun k : Nat => -dysize (yr + k))
      else accumulate 0 ((List.range (yr - 1970).toNat).map fun k : Nat => dysize (1970 + k))) =
      wrap ((daysBefore yr - daysBefore 1970) * SEC2DAY) := by
    split
    · have years := sum_telescope (f := fun y => -dysize y) (g := fun y => -daysBefore y)
        (fun y => by rw [dysize_eq]; omega) yr (1970 - yr).toNat
      rw [wrap_accumulate, years, Int.zero_add, show yr + (1970 - yr).toNat = 1970 by omega]
      congr 2
      omega
    · rw [wrap_accumulate, sum_telescope dysize_eq, Int.zero_add,
        show 1970 + ((yr - 1970).toNat : Int) = yr by omega]
  have sum (secs : Int) (days : List Int) (more : Int) :
      wrap (accumulate secs days + more) = wrap (wrap secs + (days.sum * SEC2DAY + more)) := by
    rw [← wrap_add, wrap_accumulate, wrap_add, wrap_add, Int.add_assoc]
  unfold tm2epoch
  simp only [wrap_add, wrap_sub]
  rw [Int.add_sub_assoc, Int.add_assoc, Int.add_assoc, Int.add_assoc, sum, years, wrap_add]
  refine congrArg wrap ?_
  unfold Tm.instant SEC2DAY
  ring

theorem tm2epoch_stamp (s : Stamp) :
    tm2epoch ⟨s.second, s.minute, s.hour, s.day, s.month - 1, s.year - 1900, 0⟩ =
      wrap (s.instant + s.east) := by
  rw [tm2epoch_eq]
  refine congrArg wrap ?_
  simp only [Tm.instant, Stamp.instant, Int.sub_add_cancel, months_eq, SEC2DAY]
  ring

/-! ### What is parsed -/

theorem atoi_cases {n : Nat} {s : Str} (length : s.length = n) :
    (atoi n s = -1 ∧ number s = none) ∨ ∃ v : Nat, atoi n s = v ∧ number s = some v := by
  unfold atoi number
  by_cases digits : s.all isDigit
  · exact Or.inr ⟨_, if_pos ⟨length, digits⟩, if_pos digits⟩
  · exact Or.inl ⟨if_neg fun both => digits both.2, if_neg digits⟩

theorem tzoff_cases (tz : Str) :
    (∃ e, tzoff tz = .error e ∧ zone tz = none) ∨ ∃ v, tzoff tz = .ok v ∧ zone tz = some v := by
  unfold tzoff
  split
  · rename_i utc
    rcases utc with is | is
    · exact Or.inr ⟨0, rfl, is ▸ rfl⟩
    · exact Or.inr ⟨0, rfl, is ▸ rfl⟩
  rename_i notUtc
  split
  · rename_i sign h h' m m'
    unfold zone
    by_cases signed : sign = 43 ∨ sign = 45
    · rw [if_pos signed]
      rcases @atoi_cases 2 [h, h'] rfl with ⟨hours, none'⟩ | ⟨hour, hours, isHour⟩
      · exact Or.inl ⟨_, if_pos (Or.inl (by rw [atoi2, hours]; decide)), by simp [none']⟩
      rcases @atoi_cases 2 [m, m'] rfl with ⟨minutes, none'⟩ | ⟨minute, minutes, isMinute⟩
      · exact Or.inl ⟨_, if_pos (Or.inr (Or.inr (Or.inl (by rw [atoi2, minutes]; decide)))),
          by simp [none']⟩
      simp only [atoi2, hours, minutes, isHour, isMinute, bind_eq_bind, bind_some]
      by_cases inRange : hour ≤ 23 ∧ minute ≤ 59
      · have fits : ¬((hour : Int) < 0 ∨ (hour : Int) > 23 ∨ (minute : Int) < 0 ∨
            (minute : Int) > 59) := by omega
        rw [if_neg fits, if_pos (And.intro signed inRange)]
        exact Or.inr ⟨_, rfl, rfl⟩
      · have off : (hour : Int) < 0 ∨ (hour : Int) > 23 ∨ (minute : Int) < 0 ∨
            (minute : Int) > 59 := by omega
        rw [if_pos off, if_neg fun both => inRange both.2]
        exact Or.inl ⟨_, rfl, rfl⟩
    · left
      rw [if_neg signed]
      refine ⟨_, rfl, ?_⟩
      simp [signed]
  · rename_i other
    refine Or.inl ⟨_, rfl, ?_⟩
    unfold zone
    split
    · exact absurd (Or.inl rfl) notUtc
    · exact absurd (Or.inr rfl) notUtc
    · exact (other _ _ _ _ _ rfl).elim
    · rfl

theorem parse_cases (text : Str) : (∃ e, parse text = .error e ∧ named text = none) ∨
    ∃ s, parse text = .ok (wrap s.instant) ∧ named text = some s := by
  unfold parse
  split
  · rename_i y y' y'' y''' c4 o o' c7 d d' c10 h h' c13 n n' c16 s s' c19 tz
    unfold named atoi2 atoi4
    by_cases punctuation : c4 = 45 ∧ c7 = 45 ∧ (c10 = 84 ∨ c10 = 32) ∧ c13 = 58 ∧ c16 = 58
    rotate_left
    · exact Or.inl ⟨_, if_pos (by omega), if_neg punctuation⟩
    dsimp only
    rw [if_neg (by omega), if_pos punctuation]
    rcases @atoi_cases 4 [y, y', y'', y'''] rfl with ⟨is, none'⟩ | ⟨year, isYear, some'⟩
    · exact Or.inl ⟨_, if_pos (by omega), by simp [none']⟩
    rcases @atoi_cases 2 [o, o'] rfl with ⟨is, none'⟩ | ⟨month, isMonth, some'⟩
    · exact Or.inl ⟨_, if_pos (by omega), by simp [none']⟩
    rcases @atoi_cases 2 [d, d'] rfl with ⟨is, none'⟩ | ⟨day, isDay, some'⟩
    · exact Or.inl ⟨_, if_pos (by omega), by simp [none']⟩
    rcases @atoi_cases 2 [h, h'] rfl with ⟨is, none'⟩ | ⟨hour, isHour, some'⟩
    · exact Or.inl ⟨_, if_pos (by omega), by simp [none']⟩
    rcases @atoi_cases 2 [n, n'] rfl with ⟨is, none'⟩ | ⟨minute, isMinute, some'⟩
    · exact Or.inl ⟨_, if_pos (by omega), by simp [none']⟩
    rcases @atoi_cases 2 [s, s'] rfl with ⟨is, none'⟩ | ⟨second, isSecond, some'⟩
    · exact Or.inl ⟨_, if_pos (by omega), by simp [none']⟩
    simp only [*, bind_eq_bind, bind_some]
    by_cases inRange : 1 ≤ month ∧ month ≤ 12 ∧ 1 ≤ day ∧ day ≤ 31 ∧ hour ≤ 23 ∧ minute ≤ 59 ∧
        second ≤ 60
    · rcases tzoff_cases (skipfraction (c19 :: tz)) with ⟨e, refused, none'⟩ | ⟨east, isEast, some'⟩
      · rw [if_neg (by omega), refused, none']
        exact Or.inl ⟨e, rfl, rfl⟩
      · have epoch := tm2epoch_stamp
          ⟨year, month, day, hour, minute, second, fraction (c19 :: tz), east⟩
        have mon : ((month : Int) - 1).toNat = month - 1 := by omega
        rw [if_neg (by omega), isEast, some', bind_some, if_pos inRange, mon]
        refine Or.inr ⟨_, congrArg Except.ok ?_, rfl⟩
        rw [epoch]
        exact (wrap_sub ..).trans (congrArg wrap (Int.add_sub_cancel ..))
    · refine Or.inl ⟨_, if_pos (by omega), ?_⟩
      cases zone (skipfraction (c19 :: tz)) with
      | none => rfl
      | some east => exact if_neg inRange
  · rename_i short
    refine Or.inl ⟨_, rfl, ?_⟩
    unfold named
    split
    · exact (short _ _ _ _ _ _ _ _ _ _ _ _ _ _ _ _ _ _ _ _ _ rfl).elim
    · rfl

/-- A fraction is read up to the first character that is no digit. -/
theorem isDigit_of_fraction {text : Str} {s : Stamp} (is : named text = some s) :
    ∀ ds ∈ s.fraction, ∀ c ∈ ds, isDigit c = true := by
  have cut (tz : Str) : ∀ ds ∈ fraction tz, ∀ c ∈ ds, isDigit c = true := by
    unfold fraction
    split
    · intro _ isIt _ member
      cases isIt
      exact mem_takeWhile_imp member
    · exact nofun
  unfold named at is
  split at is
  · simp only [bind_eq_bind, ite_none_right_eq_some, bind_eq_some_iff,
      Option.some.injEq] at is
    obtain ⟨-, _, -, _, -, _, -, _, -, _, -, _, -, _, -, -, rfl⟩ := is
    exact cut _
  · exact nomatch is

end Infernode.Rfc3339
