import Infernode.Lib.Rfc3339
import Infernode.Lib.Strings

/-!
Dates as text, `string2tm` of `appl/lib/daytime.b`.

Owns: the reader of dates in its two orders, over the time zone files.
-/

namespace Infernode.Daytime

open Text Strings
open Rfc3339 (Tm)

/-- What `readtimezone` makes of a file of time zones. -/
structure Timezone where
  stname : Str
  dlname : Str
  stdiff : Int
  dldiff : Int

def alnum (c : Nat) : Bool :=
  (decide (65 ≤ c) && decide (c ≤ 90)) || (decide (97 ≤ c) && decide (c ≤ 122)) || isDigit c

def dateword (date : Str) : Str × Str :=
  let (w, rest) := splitl (date.dropWhile (!alnum ·)) (!alnum ·)
  (rest, w)

def datenum (date : Str) : Str × Int :=
  let (num, rest) := splitl (date.dropWhile (!isDigit ·)) (!isDigit ·)
  (rest, strtoint num)

def wkday : List Str :=
  [str "Sun", str "Mon", str "Tue", str "Wed", str "Thu", str "Fri", str "Sat"]

def weekday : List Str :=
  [str "Sunday", str "Monday", str "Tuesday", str "Wednesday", str "Thursday", str "Friday",
    str "Saturday"]

def month : List Str :=
  [str "Jan", str "Feb", str "Mar", str "Apr", str "May", str "Jun", str "Jul", str "Aug",
    str "Sep", str "Oct", str "Nov", str "Dec"]

/-- The place of a word, where the source has -1 for one that is not there. -/
def strlookup (a : List Str) (s : Str) : Option Nat := a.idxOf? s

def hhmmss (date : Str) : Option (Int × Int × Int × Str) :=
  let (date, hour) := datenum date
  let (date, min) := datenum date
  let (date, sec) := datenum date
  if hour < 0 ∨ 24 ≤ hour ∨ min < 0 ∨ 60 ≤ min ∨ sec < 0 ∨ 60 ≤ sec then none
  else some (hour, min, sec, date)

/-- The offset of a zone, which has no name where there is none. -/
def tzinfo (readtimezone : Str → Timezone) (tz : Str) : Option Int :=
  let blank := fun c => c == 32 || c == 9
  let tz := ((tz.dropWhile blank).reverse.dropWhile blank).reverse
  if tz ∈ [[], str "GMT", str "UT", str "UTC", str "Z"] then some 0
  else if tz.length = 5 ∧ (tz.head? = some 43 ∨ tz.head? = some 45) then
    let h := strtoint ((tz.drop 1).take 2)
    let m := strtoint (tz.drop 3)
    if h > 23 ∨ m > 59 then none
    else some (if tz.head? = some 45 then -(h * 3600 + m * 60) else h * 3600 + m * 60)
  else
    let filename :=
      if tz ∈ [str "CST", str "CDT"] then str "CST.CDT"
      else if tz ∈ [str "EST", str "EDT"] then str "EST.EDT"
      else if tz ∈ [str "MST", str "MDT"] then str "MST.MDT"
      else if tz ∈ [str "PST", str "PDT"] then str "PST.PDT"
      else []
    let tzdata := readtimezone filename
    if tzdata.stname = tz then some tzdata.stdiff
    else if tzdata.dlname = tz then some tzdata.dldiff
    else none

def since1900 (year : Int) : Int := if year > 1900 then year - 1900 else year

/-- `Wday Mon DD HH:MM:SS [zone] YYYY`, from the day on. -/
def asctime (readtimezone : Str → Timezone) (mon : Nat) (date : Str) : Option Tm :=
  let (date, mday) := datenum date
  if mday < 1 ∨ mday > 31 then none
  else
    (hhmmss date).map fun (hour, min, sec, date) =>
      let date := date.dropWhile (· == 32)
      let zoned := date ≠ [] ∧ !(date.head?.any isDigit) ∧ 32 ∈ date
      let (zone, date) := if zoned then splitl date (· == 32) else ([], date)
      let tzoff := if zoned then (tzinfo readtimezone zone).getD 0 else 0
      ⟨sec, min, hour, mday, mon, since1900 (datenum date).2, tzoff⟩

/-- `Wday DD Mon YYYY HH:MM:SS zone`, from the day on. -/
def rfc1123 (readtimezone : Str → Timezone) (date : Str) : Option Tm := do
  let (date, mday) := datenum date
  if mday < 1 ∨ mday > 31 then none
  let (date, buf) := dateword date
  let mon ← strlookup month buf
  let (date, year) := datenum date
  let (hour, min, sec, buf) ← hhmmss date
  let tzoff ← tzinfo readtimezone buf
  some ⟨sec, min, hour, mday, mon, since1900 year, tzoff⟩

def string2tm (readtimezone : Str → Timezone) (date : Str) : Option Tm := do
  let (date, buf) := dateword date
  let _ ← (strlookup wkday buf).orElse fun _ => strlookup weekday buf
  match strlookup month (dateword date).2 with
  | some mon => asctime readtimezone mon (dateword date).1
  | none => rfc1123 readtimezone date

end Infernode.Daytime
