import Infernode.Lib.Rfc3339
import Infernode.Lib.Strings
import Mathlib.Data.List.Induction
import Mathlib.Tactic.LinearCombination

/-!
Scheduled runs of the spawn tool, `appl/veltro/tools/spawn.b`.

Owns: `parseduration`, `parserfc3339delta`, the `at` and `every` of a section and of a JSON agent, and
the run that is started; and when that is the run which the request names.

Does not own: the other fields of a request, whose errors only refuse more requests.
-/

namespace Infernode.Spawn

open Text
open Rfc3339 (Stamp named)
open List

/-! ### The tool -/

/-- The milliseconds of a unit. -/
def mult : Option Nat → Option Int
  | some 115 => some 1000
  | some 109 => some (60 * 1000)
  | some 104 => some (3600 * 1000)
  | some 100 => some (86400 * 1000)
  | _ => none

def parseduration (s : Str) : Except Str Int :=
  if s = [] then .error (str "empty duration")
  else if s.length < 2 then .error (str "duration too short (need <int><s|m|h|d>)")
  else if !s.dropLast.all isDigit then .error (str "duration must be <int><unit>")
  else
    let val := strtoint s.dropLast
    if val < 0 then .error (str "negative duration")
    else
      match mult s.getLast? with
      | some mult => .ok (wrap (val * mult))
      | none => .error (str "unknown unit (use s/m/h/d)")

def parserfc3339delta (now : Int) (s : Str) : Except Str Int :=
  (Rfc3339.parse s).bind fun target =>
    if target ≤ now then .error (str "target time is in the past")
    else .ok (wrap ((target - now) * 1000))

/-- One `at` or `every` of a request, with its text. -/
inductive Item where
  | once (text : Str)
  | every (text : Str)

/-- The texts of errors that differ between the two forms of a request. -/
structure Form where
  once : Str
  every : Str
  both : Str

structure SubSpec where
  at_ms : Int
  every_ms : Int

def schedule (form : Form) (now : Int) (spec : SubSpec) : List Item → Except Str SubSpec
  | [] => if spec.at_ms > 0 ∧ spec.every_ms > 0 then .error form.both else .ok spec
  | .once text :: rest =>
    match parserfc3339delta now text with
    | .error e => .error (form.once ++ e)
    | .ok ms => schedule form now { spec with at_ms := ms } rest
  | .every text :: rest =>
    match parseduration text with
    | .error e => .error (form.every ++ e)
    | .ok ms =>
      if ms ≤ 0 then .error (form.every ++ str "period must be positive")
      else schedule form now { spec with every_ms := ms } rest

/-- A request: the options of a section, or the two texts of a JSON agent. -/
inductive Request where
  | parsespecsection (specpart : Str)
  | buildagent (ats evs : Str)

def strip (s : Str) : Str :=
  let blank := fun c => c == 32 || c == 9 || c == 10
  ((s.dropWhile blank).reverse.dropWhile blank).reverse

def Request.form : Request → Form
  | .parsespecsection _ => ⟨str "at=: ", str "every=: ",
      str "cannot combine at= and every= in the same section"⟩
  | .buildagent _ _ => ⟨str "at: ", str "every: ",
      str "cannot combine at and every in one subagent"⟩

def Request.items : Request → List Item
  | .parsespecsection specpart => (tokens (fun c => c == 32 || c == 9) specpart).filterMap fun tv =>
      if Strings.hasprefix tv (str "at=") then some (.once (tv.drop 3))
      else if Strings.hasprefix tv (str "every=") then some (.every (tv.drop 6))
      else none
  | .buildagent ats evs =>
    (if strip ats ≠ [] then [.once (strip ats)] else []) ++
      if strip evs ≠ [] then [.every (strip evs)] else []

/-- How the child runs: at once, after a delay, or after each of many. -/
inductive Run where
  | immediately
  | after (ms : Int)
  | each (ms : Int)
  deriving DecidableEq

def exec (spec : SubSpec) : Run :=
  if spec.at_ms > 0 then .after spec.at_ms
  else if spec.every_ms > 0 then .each spec.every_ms
  else .immediately

def spawn (now : Int) (r : Request) : Except Str Run :=
  (schedule r.form now ⟨0, 0⟩ r.items).map exec

/-! ### What is asked -/

/-- The last texts of the two kinds. -/
def latest (asked : Option Str × Option Str) : List Item → Option Str × Option Str
  | [] => asked
  | .once text :: rest => latest (some text, asked.2) rest
  | .every text :: rest => latest (asked.1, some text) rest

def period (s : Str) : Option (Nat × Int) :=
  if s.length < 2 ∨ !s.dropLast.all isDigit then none
  else (mult s.getLast?).map fun unit => (natOfDigits s.dropLast, unit)

def Delay (now : Int) (s : Stamp) (ms : Int) : Prop :=
  match s.fraction with
  | none => ms = (s.instant - now) * 1000
  | some ds => ds ≠ [] ∧ ms * 10 ^ ds.length =
      ((s.instant - now) * 10 ^ ds.length + natOfDigits ds) * 1000

def Honoured (now : Int) : Option Str × Option Str → Run → Prop
  | (none, none), run => run = .immediately
  | (some text, none), run => ∃ s ms, named text = some s ∧ s.Exists ∧ Delay now s ms ∧ 0 < ms ∧
      run = .after ms
  | (none, some text), run => ∃ n unit, period text = some (n, unit) ∧ run = .each (n * unit)
  | (some _, some _), _ => False

/-! ### When it is done -/

def Item.Refused (now : Int) : Item → Prop
  | .once text => ∀ s, named text = some s → wrap s.instant ≤ now
  | .every text => ∀ n unit, period text = some (n, unit) → 2 ^ 31 ≤ n ∨ wrap (n * unit) ≤ 0

def Timely (now : Int) (text : Str) : Prop := ∃ s, named text = some s ∧ s.Exists ∧
  (∀ ds ∈ s.fraction, ds ≠ [] ∧ natOfDigits ds = 0) ∧ now < s.instant ∧
    (s.instant - now) * 1000 < 2 ^ 31

def Moderate (text : Str) : Prop := ∃ n unit, period text = some (n, unit) ∧ n * unit < 2 ^ 31

def Lost (now : Int) (text : Str) : Prop :=
  ∀ s, named text = some s → wrap ((s.instant - now) * 1000) ≤ 0

def Holds (now : Int) : Option Str × Option Str → Prop
  | (none, none) => True
  | (some text, none) => Timely now text
  | (none, some text) => Moderate text
  | (some text, some _) => ¬Lost now text

/-! ### The texts -/

theorem once_cases (now : Int) (text : Str) :
    (∃ e, parserfc3339delta now text = .error e ∧ Item.Refused now (.once text)) ∨
      ∃ s, named text = some s ∧ now < wrap s.instant ∧
        parserfc3339delta now text = .ok (wrap ((s.instant - now) * 1000)) := by
  unfold parserfc3339delta
  rcases Rfc3339.parse_cases text with ⟨e, refused, none'⟩ | ⟨s, parsed, isIt⟩
  · rw [refused]
    exact Or.inl ⟨e, rfl, fun s isIt => absurd (none'.symm.trans isIt) nofun⟩
  rw [parsed]
  rcases lt_or_ge now (wrap s.instant) with ahead | past
  · refine Or.inr ⟨s, isIt, ahead, (if_neg (Int.not_le.2 ahead)).trans (congrArg Except.ok ?_)⟩
    rw [← Rfc3339.wrap_mul, Rfc3339.wrap_sub, Rfc3339.wrap_mul]
  · refine Or.inl ⟨_, if_pos past, fun s' isIt' => ?_⟩
    rw [isIt] at isIt'
    exact Option.some.inj isIt' ▸ past

variable {ds : Str} {now : Int} {asked : Option Str × Option Str}

theorem strtoint_digits {c : Nat} (digits : ∀ d ∈ c :: ds, isDigit d = true) :
    strtoint (c :: ds) = min (natOfDigits (c :: ds) : Int) 2147483647 := by
  have first := digits c mem_cons_self
  have all : (c :: ds).takeWhile isDigit = c :: ds := takeWhile_eq_self_iff.2 digits
  have read : strtol (c :: ds) = natOfDigits (c :: ds) := by
    unfold strtol
    rw [dropWhile_cons_of_neg (by rw [not_isSpace_of_isDigit first]; exact Bool.false_ne_true),
      takeSign_digit first]
    simp only [all, Bool.false_eq_true, if_false]
  rw [strtoint, read, clamp]
  omega

theorem mult_spec {unit : Option Nat} {m : Int} (is : mult unit = some m) :
    0 ≤ m ∧ wrap (2147483647 * m) ≤ 0 := by
  unfold mult at is
  split at is
  · cases is
    decide
  · cases is
    decide
  · cases is
    decide
  · cases is
    decide
  · exact nomatch is

theorem every_cases (now : Int) (text : Str) :
    (∃ e, parseduration text = .error e ∧ Item.Refused now (.every text)) ∨
      ∃ n unit ms, period text = some (n, unit) ∧ parseduration text = .ok ms ∧ 0 ≤ unit ∧
        (n < 2 ^ 31 → ms = wrap (n * unit)) ∧ (2 ^ 31 ≤ n → ms ≤ 0) := by
  have refused (none' : period text = none) : Item.Refused now (.every text) := fun n unit isIt =>
    absurd (none'.symm.trans isIt) nofun
  unfold parseduration
  by_cases empty : text = []
  · exact Or.inl ⟨_, if_pos empty, refused (by rw [empty]; rfl)⟩
  rw [if_neg empty]
  by_cases short : text.length < 2
  · exact Or.inl ⟨_, if_pos short, refused (if_pos (Or.inl short))⟩
  rw [if_neg short]
  cases digits : text.dropLast.all isDigit with
  | false => exact Or.inl ⟨_, rfl, refused (if_pos (Or.inr (by rw [digits]; rfl)))⟩
  | true =>
    have isPeriod : period text = (mult text.getLast?).map fun unit =>
        (natOfDigits text.dropLast, unit) := if_neg (by simp [short, digits])
    have ⟨c, ds, shape⟩ : ∃ c ds, text.dropLast = c :: ds :=
      exists_cons_of_length_pos (by rw [length_dropLast]; omega)
    have val : strtoint text.dropLast = min (natOfDigits text.dropLast : Int) 2147483647 := by
      rw [shape] at digits ⊢
      exact strtoint_digits (all_eq_true.1 digits)
    simp only [Bool.not_true, Bool.false_eq_true, if_false, val]
    rw [if_neg (by omega)]
    cases unit : mult text.getLast? with
    | none => exact Or.inl ⟨_, rfl, refused (by rw [isPeriod, unit]; rfl)⟩
    | some m =>
      have ⟨positive, largest⟩ := mult_spec unit
      refine Or.inr ⟨_, m, _, by rw [isPeriod, unit]; rfl, rfl, positive, fun small => ?_,
        fun large => ?_⟩
      · rw [Int.min_eq_left (by omega)]
      · rw [Int.min_eq_right (by omega)]
        exact largest

theorem natOfDigits_lt (digits : ∀ c ∈ ds, isDigit c = true) : natOfDigits ds < 10 ^ ds.length := by
  induction ds using List.reverseRecOn with
  | nil => exact Nat.one_pos
  | append_singleton _ c ih =>
    have before := ih fun d member => digits d (mem_append_left _ member)
    have last := isDigit_bounds (digits c (mem_append_right _ mem_cons_self))
    unfold natOfDigits at before ⊢
    rw [foldl_append, foldl_cons, foldl_nil, length_append,
      length_singleton, pow_succ]
    omega

/-- What is left of the milliseconds is all of them exactly if they fit, and there is no part of a
second. -/
theorem delay_iff {now : Int} {text : Str} {s : Stamp} (isIt : named text = some s) :
    Delay now s (wrap ((s.instant - now) * 1000)) ∧ 0 < wrap ((s.instant - now) * 1000) ↔
      (∀ ds ∈ s.fraction, ds ≠ [] ∧ natOfDigits ds = 0) ∧ now < s.instant ∧
        (s.instant - now) * 1000 < 2 ^ 31 := by
  have ⟨_, upper⟩ := inWord_wrap ((s.instant - now) * 1000)
  have fits (ahead : now < s.instant) (small : (s.instant - now) * 1000 < 2 ^ 31) :
      wrap ((s.instant - now) * 1000) = (s.instant - now) * 1000 :=
    wrap_of_inWord ⟨by omega, by omega⟩
  have digits := Rfc3339.isDigit_of_fraction isIt
  unfold Delay
  cases fraction : s.fraction with
  | none =>
    refine ⟨fun ⟨same, positive⟩ => ⟨nofun, by omega, by omega⟩, fun ⟨_, ahead, small⟩ => ?_⟩
    have same := fits ahead small
    exact ⟨same, by omega⟩
  | some ds =>
    have below := natOfDigits_lt (digits ds fraction)
    have turns := Int.bmod_eq_self_sub_mul_bdiv ((s.instant - now) * 1000) 4294967296
    generalize Int.bdiv ((s.instant - now) * 1000) 4294967296 = q at turns
    have bound : (natOfDigits ds : Int) < 10 ^ ds.length := by exact_mod_cast below
    dsimp only
    generalize (10 : Int) ^ ds.length = unit at bound ⊢
    constructor
    · rintro ⟨⟨some', same⟩, positive⟩
      have rest : -(4294967296 * (q * unit)) = natOfDigits ds * 1000 := by
        rw [wrap, turns] at same
        linear_combination same
      have whole : q = 0 := by
        rcases lt_trichotomy q 0 with less | zero | more
        · have := Int.mul_le_mul_of_nonneg_right (show q ≤ -1 by omega) (show 0 ≤ unit by omega)
          omega
        · exact zero
        · have := Int.mul_le_mul_of_nonneg_right (show 1 ≤ q by omega) (show 0 ≤ unit by omega)
          omega
      rw [whole] at rest turns
      unfold wrap at positive upper
      refine ⟨fun ds' is => ?_, by omega, by omega⟩
      cases is
      exact ⟨some', by omega⟩
    · rintro ⟨plain, ahead, small⟩
      have same := fits ahead small
      have ⟨some', zero⟩ := plain ds rfl
      refine ⟨⟨some', ?_⟩, by omega⟩
      rw [same, zero]
      ring

/-! ### Requests -/

/-- The fields hold what is left of the texts, none of which is refused. -/
structure Stands (now : Int) (asked : Option Str × Option Str) (spec : SubSpec) : Prop where
  neither : asked.1 = none → spec.at_ms = 0
  nor : asked.2 = none → spec.every_ms = 0
  once : ∀ text ∈ asked.1, ∃ s, named text = some s ∧
    spec.at_ms = wrap ((s.instant - now) * 1000)
  every : ∀ text ∈ asked.2, ∃ n unit, period text = some (n, unit) ∧ 0 ≤ unit ∧
    spec.every_ms = wrap (n * unit) ∧ 0 < spec.every_ms

variable {spec : SubSpec}

theorem schedule_item (stands : Stands now asked spec) (form : Form) (i : Item) (rest : List Item) :
    (∃ e, schedule form now spec (i :: rest) = .error e ∧ i.Refused now) ∨
      ¬i.Refused now ∧ ∃ spec', Stands now (latest asked [i]) spec' ∧
        schedule form now spec (i :: rest) = schedule form now spec' rest := by
  cases i with
  | once text =>
    rcases once_cases now text with ⟨e, error, refused⟩ | ⟨s, isIt, ahead, ok⟩
    · exact Or.inl ⟨_, by rw [schedule, error], refused⟩
    · refine Or.inr ⟨fun refused => Int.not_le.2 ahead (refused s isIt),
        { spec with at_ms := wrap ((s.instant - now) * 1000) },
        ⟨nofun, stands.nor, ?_, stands.every⟩, by rw [schedule, ok]⟩
      intro text' is
      cases is
      exact ⟨s, isIt, rfl⟩
  | every text =>
    rcases every_cases now text with ⟨e, error, refused⟩ | ⟨n, unit, ms, isIt, ok, spares⟩
    · exact Or.inl ⟨_, by rw [schedule, error], refused⟩
    have ⟨nonneg, small, large⟩ := spares
    by_cases positive : ms ≤ 0
    · refine Or.inl ⟨_, by rw [schedule, ok]; exact if_pos positive, fun n' unit' isIt' => ?_⟩
      rw [isIt] at isIt'
      cases isIt'
      rcases Nat.lt_or_ge n (2 ^ 31) with fits | over'
      · exact Or.inr (small fits ▸ positive)
      · exact Or.inl over'
    · have fits : n < 2 ^ 31 := Nat.lt_of_not_ge fun over' => positive (large over')
      refine Or.inr ⟨fun refused => ?_, { spec with every_ms := ms },
        ⟨stands.neither, nofun, stands.once, ?_⟩, by rw [schedule, ok]; exact if_neg positive⟩
      · rcases refused n unit isIt with over' | lost
        · exact Nat.not_le.2 fits over'
        · exact positive (small fits ▸ lost)
      · intro _ is
        cases is
        exact ⟨n, unit, isIt, nonneg, small fits, Int.not_le.1 positive⟩

theorem schedule_run (form : Form) (items : List Item) :
    ∀ asked spec, Stands now asked spec →
      (∃ e, schedule form now spec items = .error e ∧ ∃ i ∈ items, i.Refused now) ∨
        (¬∃ i ∈ items, i.Refused now) ∧ ∃ spec', Stands now (latest asked items) spec' ∧
          schedule form now spec items = schedule form now spec' [] := by
  induction items with
  | nil => exact fun asked spec stands => Or.inr ⟨nofun, spec, stands, rfl⟩
  | cons i items ih =>
    intro asked _ stands
    have follows : latest asked (i :: items) = latest (latest asked [i]) items := by
      cases i <;> rfl
    rw [follows, exists_mem_cons_iff]
    rcases schedule_item stands form i items with ⟨e, error, refused⟩ | ⟨kept, spec', stands', same⟩
    · exact Or.inl ⟨e, error, Or.inl refused⟩
    · rw [same, or_iff_right kept]
      exact ih _ _ stands'

theorem exec_iff (stands : Stands now asked spec) (form : Form) :
    (∀ run, (schedule form now spec []).map exec = .ok run → Honoured now asked run) ↔
      Holds now asked := by
  have ok (other : ¬(spec.at_ms > 0 ∧ spec.every_ms > 0)) :
      (∀ run, (schedule form now spec []).map exec = .ok run → Honoured now asked run) ↔
        Honoured now asked (exec spec) := by
    rw [schedule, if_neg other]
    exact ⟨fun all => all _ rfl, fun honoured run is => Except.ok.inj is ▸ honoured⟩
  match asked with
  | (none, none) =>
    have zero := stands.neither rfl
    have none' := stands.nor rfl
    rw [ok (by omega)]
    refine iff_of_true ?_ trivial
    rw [Honoured, exec, if_neg (by omega), if_neg (by omega)]
  | (some text, none) =>
    have none' := stands.nor rfl
    have ⟨s, isIt, is⟩ := stands.once text rfl
    rw [ok (by omega)]
    have whole := @delay_iff now text s isIt
    rw [← is] at whole
    constructor
    · intro ⟨s', ms, isIt', dated, delay, positive, run⟩
      have same := Option.some.inj (isIt.symm.trans isIt')
      subst same
      have later : spec.at_ms = ms := by
        unfold exec at run
        split_ifs at run
        exact Run.after.inj run
      subst later
      exact ⟨s, isIt, dated, whole.1 ⟨delay, positive⟩⟩
    · intro ⟨s', isIt', dated, timely⟩
      have same := Option.some.inj (isIt.symm.trans isIt')
      subst same
      have ⟨delay, positive⟩ := whole.2 timely
      exact ⟨s, _, isIt, dated, delay, positive, if_pos positive⟩
  | (none, some text) =>
    have zero := stands.neither rfl
    have ⟨n, unit, isIt, nonneg, is, positive⟩ := stands.every text rfl
    have least : 0 ≤ n * unit := Int.mul_nonneg (Int.natCast_nonneg n) nonneg
    have runs : exec spec = .each spec.every_ms := by
      rw [exec, if_neg (by omega), if_pos positive]
    rw [ok (by omega), runs]
    constructor
    · intro ⟨n', unit', isIt', run⟩
      rw [isIt] at isIt'
      cases isIt'
      have same := Run.each.inj run
      have ⟨_, _⟩ := inWord_wrap (n * unit)
      exact ⟨n, unit, isIt, by omega⟩
    · intro ⟨n', unit', isIt', fits⟩
      rw [isIt] at isIt'
      cases isIt'
      exact ⟨n, unit, isIt, by rw [is, wrap_of_inWord ⟨by omega, by omega⟩]⟩
  | (some text, some _) =>
    have ⟨s, isIt, is⟩ := stands.once text rfl
    have ⟨_, _, _, _, _, positive⟩ := stands.every _ rfl
    have lost : Lost now text ↔ spec.at_ms ≤ 0 := by
      refine ⟨fun all => is ▸ all s isIt, fun past s' isIt' => ?_⟩
      rw [isIt] at isIt'
      cases isIt'
      exact is ▸ past
    rw [Holds, lost]
    by_cases ahead : spec.at_ms > 0
    · rw [schedule, if_pos ⟨ahead, positive⟩]
      exact iff_of_true nofun (Int.not_le.2 ahead)
    · rw [ok fun both => ahead both.1]
      exact iff_of_false id fun kept => kept (Int.not_lt.1 ahead)

theorem spawn_honours (now : Int) (r : Request) :
    (∀ run, spawn now r = .ok run → Honoured now (latest (none, none) r.items) run) ↔
      (∃ i ∈ r.items, i.Refused now) ∨ Holds now (latest (none, none) r.items) := by
  unfold spawn
  have start : Stands now (none, none) ⟨0, 0⟩ := ⟨fun _ => rfl, fun _ => rfl, nofun, nofun⟩
  rcases schedule_run r.form r.items _ _ start with ⟨e, error, refused⟩ | ⟨kept, spec, stands, same⟩
  · rw [error]
    exact iff_of_true nofun (Or.inl refused)
  · rw [same, or_iff_right kept]
    exact exec_iff stands r.form

/-- Of fifty days, in milliseconds and wrapped to 32 bits, about seven hours are left. -/
theorem spawn_wraps : ¬∀ run, spawn 0 (.parsespecsection (str "every=50d")) = .ok run →
    Honoured 0 (latest (none, none) (Request.parsespecsection (str "every=50d")).items) run := by
  have asked : latest (none, none) (Request.parsespecsection (str "every=50d")).items =
      (none, some (str "50d")) := by decide +kernel
  rw [asked]
  intro all
  have ⟨_, _, isIt, run⟩ := all (.each 25032704) (by decide +kernel)
  have read : period (str "50d") = some (50, 86400000) := by decide +kernel
  rw [read] at isIt
  cases isIt
  exact absurd run (by decide)

end Infernode.Spawn
