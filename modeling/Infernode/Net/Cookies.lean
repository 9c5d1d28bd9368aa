import Infernode.Lib.Daytime
import Infernode.Net.Url
import Mathlib.Data.List.Induction

/-!
The cookie jar of the web client, `appl/lib/webclient.b`.

Owns: `urlparts`, the matching of hosts and paths, `jarset` and `jarheader` with their 32-bit
clock, the cookies that a history of responses allows, and when the jar answers with these.

Does not own: the lock of a jar, under which its calls run one at a time, and its text form.
-/

namespace Infernode.Cookies

open Text Strings List
open Rfc3339 (Tm tm2epoch)

/-- A cookie with its expiry, a word in the jar. -/
structure Cookie (τ : Type) where
  name : Str
  value : Str
  domain : Str
  path : Str
  hostonly : Bool
  expires : τ
  secure : Bool
deriving DecidableEq

/-! ### Matching -/

def urlparts (u : Str) : Str × Str × Str :=
  let pu := Url.makeurl u
  let path := pu.pstart ++ pu.path
  (Url.schemes pu.scheme, tolower pu.host, if path = [] then [47] else path)

def isip (h : Str) : Bool := h.all fun c => isDigit c || c == 46 || c == 58

def domainmatch (host domain : Str) : Bool :=
  if host = domain then true
  else
    let n := host.length - domain.length
    decide (0 < n) && host.drop n == domain && host[n - 1]? == some 46 && !isip host

def pathmatch (rpath cpath : Str) : Bool :=
  if rpath = cpath then true
  else if cpath.length < rpath.length ∧ rpath.take cpath.length = cpath then
    cpath.getLast? == some 47 || rpath[cpath.length]? == some 47
  else false

/-- The request path up to its last slash. -/
def defaultpath (p : Str) : Str :=
  if p.head? ≠ some 47 then [47]
  else
    let dir := (p.reverse.dropWhile (· != 47)).tail.reverse
    if dir = [] then [47] else dir

def same {σ τ : Type} (o : Cookie σ) (c : Cookie τ) : Bool :=
  o.name == c.name && o.domain == c.domain && o.path == c.path

/-! ### The jar -/

def trimsp (s : Str) : Str :=
  let blank := fun c => c == 32 || c == 9
  ((s.dropWhile blank).reverse.dropWhile blank).reverse

/-- A cookie that is being set. -/
structure Setting where
  c : Cookie Int
  maxage : Int
  hasmaxage : Bool

def keyval (a : Str) : Str × Str :=
  let a := trimsp a
  if 61 ∈ a then (tolower (trimsp (Url.split a 61).1), trimsp (Url.split a 61).2)
  else (tolower a, [])

def undotted (v : Str) : Str :=
  let d := tolower v
  if d.head? = some 46 then d.tail else d

section Zones

variable (readtimezone : Str → Daytime.Timezone)

/-- One attribute, which is refused if it is the domain of another site. -/
def amend (host : Str) (now : Int) (s : Setting) (a : Str) : Option Setting :=
  let (k, v) := keyval a
  if k = str "domain" then
    let d := undotted v
    if d = [] then some s
    else if !domainmatch host d then none
    else some { s with c := { s.c with domain := d, hostonly := false } }
  else if k = str "path" then
    if v.head? = some 47 then some { s with c := { s.c with path := v } } else some s
  else if k = str "max-age" then some { s with hasmaxage := true, maxage := strtoint v }
  else if k = str "expires" then
    if !s.hasmaxage ∧ now ≠ 0 then
      match Daytime.string2tm readtimezone v with
      | some tm => some { s with c := { s.c with expires := tm2epoch tm } }
      | none => some s
    else some s
  else if k = str "secure" then some { s with c := { s.c with secure := true } }
  else some s

/-- The first reading of the clock dates the cookie and the second one keeps it. -/
def jarset (jar : List (Cookie Int)) (u sc : Str) (began ended : Int) : List (Cookie Int) :=
  let (scheme, host, path) := urlparts u
  if host = [] then jar
  else
    match tokens (· == 59) sc with
    | [] => jar
    | first :: parts =>
      let nv := trimsp first
      if 61 ∉ nv ∨ nv.head? = some 61 then jar
      else
        let c : Cookie Int := ⟨trimsp (Url.split nv 61).1, trimsp (Url.split nv 61).2, host,
          defaultpath path, true, 0, false⟩
        match parts.foldlM (amend readtimezone host began) ⟨c, -1, false⟩ with
        | none => jar
        | some s =>
          let c :=
            if s.hasmaxage then
              { s.c with expires := if s.maxage ≤ 0 then 1 else wrap (began + s.maxage) }
            else s.c
          if c.secure ∧ scheme ≠ str "https" then jar
          else
            let keep := jar.filter fun o => !same o c
            if c.expires = 0 ∨ c.expires > ended then keep ++ [c] else keep

def jarheader (jar : List (Cookie Int)) (u : Str) (t : Int) : Str × List (Cookie Int) :=
  let (scheme, host, path) := urlparts u
  if host = [] then ([], jar)
  else
    let keep := jar.filter fun c => !(c.expires != 0 && decide (c.expires ≤ t))
    let sent := keep.filter fun c =>
      !(c.hostonly && host != c.domain || !c.hostonly && !domainmatch host c.domain) &&
        pathmatch path c.path && !(c.secure && scheme != str "https")
    let r := sent.foldl (fun r c =>
      (if r = [] then r else r ++ str "; ") ++ (c.name ++ [61] ++ c.value)) []
    (r, keep)

/-- A response that sets a cookie, or a request that asks for the cookies to send. -/
inductive Event where
  | set (u sc : Str) (began ended : Int)
  | header (u : Str) (t : Int)

def step (jar : List (Cookie Int)) : Event → List (Cookie Int)
  | .set u sc began ended => jarset readtimezone jar u sc began ended
  | .header u t => (jarheader jar u t).2

def run (events : List Event) : List (Cookie Int) := events.foldl (step readtimezone) []

end Zones

/-! ### What is allowed -/

def DomainMatch (host domain : Str) : Prop := host = domain ∨
  (∃ front, host = front ++ 46 :: domain) ∧ ¬∀ c ∈ host, isDigit c ∨ c = 46 ∨ c = 58

def PathMatch (rpath cpath : Str) : Prop := rpath = cpath ∨
  (∃ rest, rpath = cpath ++ 47 :: rest) ∨ (cpath.getLast? = some 47 ∧ cpath <+: rpath)

theorem domainmatch_iff (host domain : Str) :
    domainmatch host domain = true ↔ DomainMatch host domain := by
  unfold domainmatch DomainMatch
  by_cases equal : host = domain
  · simp [equal]
  have cut : (0 < host.length - domain.length ∧ host.drop (host.length - domain.length) = domain ∧
      host[host.length - domain.length - 1]? = some 46) ↔
      ∃ front, host = front ++ 46 :: domain := by
    constructor
    · intro ⟨longer, suffix, dot⟩
      refine ⟨host.take (host.length - domain.length - 1), ?_⟩
      have split := take_append_drop (host.length - domain.length - 1) host
      rw [drop_eq_getElem_cons (by omega), Nat.sub_add_cancel longer, suffix] at split
      rw [getElem?_eq_getElem (by omega), Option.some.injEq] at dot
      rw [dot] at split
      exact split.symm
    · intro ⟨front, is⟩
      have length : host.length - domain.length = front.length + 1 := by
        rw [is, length_append, length_cons]
        omega
      rw [length, is]
      simp
  have address : (!isip host) = true ↔ ¬∀ c ∈ host, isDigit c ∨ c = 46 ∨ c = 58 := by
    simp [isip, or_assoc]
  simp only [equal, if_false, false_or, Bool.and_eq_true, decide_eq_true_eq, beq_iff_eq, address,
    ← cut, and_assoc]

theorem pathmatch_iff (rpath cpath : Str) :
    pathmatch rpath cpath = true ↔ PathMatch rpath cpath := by
  unfold pathmatch PathMatch
  by_cases equal : rpath = cpath
  · simp [equal]
  by_cases within : cpath <+: rpath
  · have ⟨rest, is⟩ := within
    cases rest with
    | nil => exact absurd (by rw [← is, append_nil]) equal
    | cons c rest =>
      subst is
      simp [or_comm]
  · have other : ¬(cpath.length < rpath.length ∧ rpath.take cpath.length = cpath) :=
      fun both => within (both.2 ▸ take_prefix ..)
    have parted : ¬∃ rest, rpath = cpath ++ 47 :: rest := fun ⟨rest, is⟩ => within ⟨_, is.symm⟩
    simp [equal, other, within, parted]

instance (host domain : Str) : Decidable (DomainMatch host domain) :=
  decidable_of_iff _ (domainmatch_iff host domain)

instance (rpath cpath : Str) : Decidable (PathMatch rpath cpath) :=
  decidable_of_iff _ (pathmatch_iff rpath cpath)

section Wishes

variable (readtimezone : Str → Daytime.Timezone)

/-- The latest attributes of each kind. -/
structure Wish where
  domain : Option Str := none
  path : Option Str := none
  maxage : Option Str := none
  expires : Option Tm := none
  secure : Bool := false

def Wish.next (w : Wish) (a : Str) : Wish :=
  let (k, v) := keyval a
  if k = str "domain" then if undotted v = [] then w else { w with domain := undotted v }
  else if k = str "path" then if v.head? = some 47 then { w with path := v } else w
  else if k = str "max-age" then { w with maxage := v }
  else if k = str "expires" then
    { w with expires := (Daytime.string2tm readtimezone v).or w.expires }
  else if k = str "secure" then { w with secure := true }
  else w

def wish (parts : List Str) : Wish := parts.foldl (Wish.next readtimezone) {}

/-- The moment of expiry over all integers. -/
def Wish.expiry (w : Wish) (began : Int) : Option Int :=
  match w.maxage with
  | some v => some (began + strtol v)
  | none => w.expires.map Tm.instant

/-- The host may set a cookie with this attribute. -/
def Allowed (host a : Str) : Prop := (keyval a).1 = str "domain" →
  undotted (keyval a).2 = [] ∨ DomainMatch host (undotted (keyval a).2)

instance (host a : Str) : Decidable (Allowed host a) := inferInstanceAs (Decidable (_ → _))

/-- What a response allows, if it may set a cookie at all. -/
def granted (u sc : Str) (began : Int) : Option (Cookie (Option Int)) :=
  let (scheme, host, path) := urlparts u
  match tokens (· == 59) sc with
  | [] => none
  | first :: parts =>
    let nv := trimsp first
    let w := wish readtimezone parts
    if host ≠ [] ∧ 61 ∈ nv ∧ nv.head? ≠ some 61 ∧ (∀ a ∈ parts, Allowed host a) ∧
        (w.secure → scheme = str "https") then
      some ⟨trimsp (Url.split nv 61).1, trimsp (Url.split nv 61).2, w.domain.getD host,
        w.path.getD (defaultpath path), w.domain.isNone, w.expiry began, w.secure⟩
    else none

def Event.granted : Event → Option (Cookie (Option Int))
  | .set u sc began _ => Cookies.granted readtimezone u sc began
  | .header _ _ => none

/-- Only the last cookie of each name, domain and path. -/
def latest : List (Cookie (Option Int)) → List (Cookie (Option Int))
  | [] => []
  | g :: later => if later.any (same g) then latest later else g :: latest later

def Unexpired (t : Int) (g : Cookie (Option Int)) : Prop := ∀ e ∈ g.expires, t < e

def Sent (u : Str) (g : Cookie (Option Int)) : Prop :=
  let (scheme, host, path) := urlparts u
  host ≠ [] ∧ (if g.hostonly then host = g.domain else DomainMatch host g.domain) ∧
    PathMatch path g.path ∧ (g.secure → scheme = str "https")

instance (t : Int) (g : Cookie (Option Int)) : Decidable (Unexpired t g) :=
  inferInstanceAs (Decidable (∀ e ∈ g.expires, t < e))

instance (u : Str) (g : Cookie (Option Int)) : Decidable (Sent u g) :=
  inferInstanceAs (Decidable (_ ∧ _))

def wanted (past : List Event) (u : Str) (t : Int) : Str :=
  (str "; ").intercalate (((latest (past.filterMap (Event.granted readtimezone))).filter
    fun g => Unexpired t g ∧ Sent u g).map fun g => g.name ++ [61] ++ g.value)

/-! ### When it is done -/

/-- The expiry is a moment that the 32-bit clock can read, and not its origin. -/
def Wish.Dated (w : Wish) (began : Int) : Prop :=
  match w.maxage with
  | some v => strtol v ≤ 0 ∨ began + strtol v < 2 ^ 31
  | none => ∀ tm ∈ w.expires, InWord tm.instant ∧ tm.instant ≠ 0

def Event.first : Event → Int
  | .set _ _ began _ => began
  | .header _ t => t

def Event.last : Event → Int
  | .set _ _ _ ended => ended
  | .header _ t => t

def Event.Fits : Event → Prop
  | .set u sc began ended => 0 < began ∧ began ≤ ended ∧
    (Cookies.granted readtimezone u sc began ≠ none →
      (wish readtimezone (tokens (· == 59) sc).tail).Dated began)
  | .header _ _ => True

def Fit (events : List Event) : Prop := (∀ e ∈ events, e.Fits readtimezone) ∧
  events.Pairwise fun e e' => e.last ≤ e'.first

/-! ### Setting -/

/-- A cookie `c` being set, after the attributes that `w` holds. -/
structure Tracks (c : Cookie Int) (s : Setting) (w : Wish) : Prop where
  name : s.c.name = c.name
  value : s.c.value = c.value
  domain : s.c.domain = w.domain.getD c.domain
  path : s.c.path = w.path.getD c.path
  hostonly : s.c.hostonly = w.domain.isNone
  secure : s.c.secure = w.secure
  hasmaxage : s.hasmaxage = w.maxage.isSome
  maxage : ∀ v ∈ w.maxage, s.maxage = strtoint v
  expires : w.maxage = none → s.c.expires = (w.expires.map tm2epoch).getD 0

variable {readtimezone}

variable {host : Str} {now began : Int}

variable {a : Str} {t : Int}

theorem amend_refuses (refused : ¬Allowed host a) (now : Int) (s : Setting) :
    amend readtimezone host now s a = none := by
  unfold Allowed at refused
  push Not at refused
  have ⟨domain, nonempty, other⟩ := refused
  unfold amend
  simp [domain, nonempty, domainmatch_iff, other]

variable {c : Cookie Int} {s : Setting} {w : Wish}

theorem amend_tracks (read : now ≠ 0) (tracks : Tracks c s w) (allowed : Allowed host a) :
    ∃ s', amend readtimezone host now s a = some s' ∧ Tracks c s' (w.next readtimezone a) := by
  unfold amend Wish.next
  dsimp only
  by_cases domain : (keyval a).1 = str "domain"
  · rw [if_pos domain, if_pos domain]
    by_cases empty : undotted (keyval a).2 = []
    · rw [if_pos empty, if_pos empty]
      exact ⟨s, rfl, tracks⟩
    · have own := (domainmatch_iff ..).2 ((allowed domain).resolve_left empty)
      rw [if_neg empty, if_neg empty, own]
      exact ⟨_, rfl, { tracks with domain := rfl, hostonly := rfl }⟩
  rw [if_neg domain, if_neg domain]
  by_cases path : (keyval a).1 = str "path"
  · rw [if_pos path, if_pos path]
    split
    · exact ⟨_, rfl, { tracks with path := rfl }⟩
    · exact ⟨s, rfl, tracks⟩
  rw [if_neg path, if_neg path]
  by_cases maxage : (keyval a).1 = str "max-age"
  · rw [if_pos maxage, if_pos maxage]
    exact ⟨_, rfl, { tracks with
      hasmaxage := rfl, maxage := fun v is => Option.some.inj is ▸ rfl, expires := nofun }⟩
  rw [if_neg maxage, if_neg maxage]
  by_cases expires : (keyval a).1 = str "expires"
  · rw [if_pos expires, if_pos expires]
    by_cases aged : w.maxage = none
    · have reads : !s.hasmaxage ∧ now ≠ 0 := by simp [tracks.hasmaxage, aged, read]
      rw [if_pos reads]
      cases Daytime.string2tm readtimezone (keyval a).2 with
      | some tm => exact ⟨_, rfl, { tracks with expires := fun _ => rfl }⟩
      | none => exact ⟨s, rfl, { tracks with expires := tracks.expires }⟩
    · have skips : ¬(!s.hasmaxage ∧ now ≠ 0) := by
        simp [tracks.hasmaxage, Option.isSome_iff_ne_none.2 aged]
      rw [if_neg skips]
      exact ⟨s, rfl, { tracks with expires := fun none' => (aged none').elim }⟩
  rw [if_neg expires, if_neg expires]
  split
  · exact ⟨_, rfl, { tracks with secure := rfl }⟩
  · exact ⟨s, rfl, tracks⟩

theorem foldlM_tracks (read : now ≠ 0) (parts : List Str) :
    ∀ {s w}, Tracks c s w → (∀ a ∈ parts, Allowed host a) →
      ∃ s', parts.foldlM (amend readtimezone host now) s = some s' ∧
        Tracks c s' (parts.foldl (Wish.next readtimezone) w) := by
  induction parts with
  | nil => exact fun tracks _ => ⟨_, rfl, tracks⟩
  | cons a parts ih =>
    intro s w tracks allowed
    have ⟨s', amended, tracks'⟩ : ∃ s', amend readtimezone host now s a = some s' ∧
        Tracks c s' (w.next readtimezone a) :=
      amend_tracks read tracks (allowed a mem_cons_self)
    rw [foldlM_cons, amended]
    exact ih tracks' fun b member => allowed b (mem_cons_of_mem a member)

theorem foldlM_refuses (parts : List Str) : ∀ {s},
    (¬∀ a ∈ parts, Allowed host a) →
      parts.foldlM (amend readtimezone host now) s = none := by
  induction parts with
  | nil => exact fun refused => (refused nofun).elim
  | cons a parts ih =>
    intro s refused
    rw [foldlM_cons]
    by_cases allowed : Allowed host a
    · cases amend readtimezone host now s a with
      | none => rfl
      | some s' => exact ih fun all => refused (forall_mem_cons.2 ⟨allowed, all⟩)
    · rw [amend_refuses allowed]
      rfl

/-- The word that stands for an expiry: 0 for none, and 1 also for what is past. -/
def Encodes (began : Int) (word : Int) : Option Int → Prop
  | none => word = 0
  | some e => word = e ∧ e ≠ 0 ∨ word = 1 ∧ e ≤ began

theorem Tracks.encodes (tracks : Tracks c s w) (read : 0 < began) (dated : w.Dated began) :
    Encodes began (if s.hasmaxage then if s.maxage ≤ 0 then 1 else wrap (began + s.maxage)
      else s.c.expires) (w.expiry began) := by
  rw [tracks.hasmaxage]
  unfold Wish.Dated at dated
  unfold Wish.expiry
  cases aged : w.maxage with
  | some v =>
    rw [aged] at dated
    have is : s.maxage = clamp (strtol v) := tracks.maxage v aged
    rw [Option.isSome_some, if_pos rfl, is]
    rcases dated with past | fits
    · rw [if_pos (by unfold clamp; omega)]
      exact Or.inr ⟨rfl, by omega⟩
    by_cases past : strtol v ≤ 0
    · rw [if_pos (by unfold clamp; omega)]
      exact Or.inr ⟨rfl, by omega⟩
    have small : clamp (strtol v) = strtol v := clamp_of_inWord ⟨by omega, by omega⟩
    rw [small, if_neg past, wrap_of_inWord ⟨by omega, by omega⟩]
    exact Or.inl ⟨rfl, by omega⟩
  | none =>
    rw [aged] at dated
    rw [Option.isSome_none, if_neg nofun, tracks.expires aged]
    cases dates : w.expires with
    | none => rfl
    | some tm =>
      have ⟨inWord, other⟩ := dated tm dates
      refine Or.inl ⟨?_, other⟩
      rw [Option.map_some, Option.getD_some, Rfc3339.tm2epoch_eq, wrap_of_inWord inWord]

theorem Tracks.dated (tracks : Tracks c s w) (word : Int) :
    (if s.hasmaxage then { s.c with expires := word } else s.c) =
      ⟨c.name, c.value, w.domain.getD c.domain, w.path.getD c.path, w.domain.isNone,
        if s.hasmaxage then word else s.c.expires, w.secure⟩ := by
  rw [← tracks.name, ← tracks.value, ← tracks.domain, ← tracks.path, ← tracks.hostonly,
    ← tracks.secure]
  split
  · rfl
  · rfl

variable (readtimezone) in
theorem jarset_eq (u sc : Str) (read : 0 < began) (jar : List (Cookie Int)) (ended : Int) :
    match granted readtimezone u sc began with
    | none => jarset readtimezone jar u sc began ended = jar
    | some g => ∃ word, ((wish readtimezone (tokens (· == 59) sc).tail).Dated began →
          Encodes began word g.expires) ∧
        jarset readtimezone jar u sc began ended = jar.filter (!same · g) ++
          if word = 0 ∨ word > ended then [{ g with expires := word }] else [] := by
  unfold granted jarset
  cases tokens (· == 59) sc with
  | nil => exact ite_self jar
  | cons first parts =>
  dsimp only
  by_cases host : (urlparts u).2.1 = []
  · rw [if_pos host, if_neg fun all => all.1 host]
  rw [if_neg host]
  by_cases named : 61 ∉ trimsp first ∨ (trimsp first).head? = some 61
  · rw [if_pos named, if_neg (by tauto)]
  rw [if_neg named]
  by_cases allowed : ∀ a ∈ parts, Allowed (urlparts u).2.1 a
  rotate_left
  · rw [foldlM_refuses parts allowed, if_neg (by tauto)]
  let c : Cookie Int := ⟨trimsp (Url.split (trimsp first) 61).1,
    trimsp (Url.split (trimsp first) 61).2, (urlparts u).2.1, defaultpath (urlparts u).2.2, true,
    0, false⟩
  have start : Tracks c ⟨c, -1, false⟩ {} :=
    ⟨rfl, rfl, rfl, rfl, rfl, rfl, rfl, nofun, fun _ => rfl⟩
  have ⟨s, folded, tracks⟩ : ∃ s, parts.foldlM (amend readtimezone (urlparts u).2.1 began)
      ⟨c, -1, false⟩ = some s ∧ Tracks c s (wish readtimezone parts) :=
    foldlM_tracks (by omega) parts start allowed
  rw [folded]
  dsimp only
  rw [tracks.dated]
  by_cases safe : (wish readtimezone parts).secure → (urlparts u).1 = str "https"
  · rw [if_pos (by tauto), if_neg fun both => both.2 (safe both.1)]
    have encodes := fun dated => tracks.encodes read dated
    generalize (if s.hasmaxage then _ else _) = word at encodes ⊢
    refine ⟨word, encodes, ?_⟩
    by_cases keeps : word = 0 ∨ word > ended
    · rw [if_pos keeps, if_pos keeps]
      rfl
    · rw [if_neg keeps, if_neg keeps, append_nil]
      rfl
  · push Not at safe
    rw [if_neg (by tauto)]
    exact if_pos safe

/-! ### Runs -/

theorem latest_append (gs : List (Cookie (Option Int))) (g : Cookie (Option Int)) :
    latest (gs ++ [g]) = (latest gs).filter (!same · g) ++ [g] := by
  induction gs with
  | nil => rfl
  | cons first later ih =>
    rw [cons_append, latest, latest, any_append, ih]
    by_cases again : later.any (same first)
    · simp [again]
    · cases replaced : same first g with
      | true => simp [again, replaced]
      | false => simp [again, replaced]

/-- The cookie in the jar that stands for one that is allowed. -/
def encode (g : Cookie (Option Int)) : Cookie Int := { g with expires := g.expires.getD 0 }

def kept (t : Int) (c : Cookie Int) : Bool := !(c.expires != 0 && decide (c.expires ≤ t))

variable (readtimezone) in
/-- The jar holds what is allowed after `past`, as far as it has not expired. -/
def Holds (past : List Event) (jar : List (Cookie Int)) : Prop :=
  ∀ t, (∀ e ∈ past, e.last ≤ t) → jar.filter (kept t) =
    ((latest (past.filterMap (Event.granted readtimezone))).filter (Unexpired t ·)).map encode

theorem Encodes.kept {ended word : Int} {g : Cookie (Option Int)} (read : 0 < began)
    (encodes : Encodes began word g.expires) (order : began ≤ ended) (later : ended ≤ t) :
    (if word = 0 ∨ word > ended then [{ g with expires := word }] else []).filter (kept t) =
      ([g].filter (Unexpired t ·)).map encode := by
  cases expiry : g.expires with
  | none =>
    rw [expiry] at encodes
    have word : word = 0 := encodes
    have live : Unexpired t g := fun e is => by simp [expiry] at is
    simp [word, live, encode, expiry, Cookies.kept]
  | some e =>
    rw [expiry] at encodes
    rcases encodes with ⟨isWord, other⟩ | ⟨isWord, past⟩
    · by_cases live : t < e
      · have unexpired : Unexpired t g := fun e' is => Option.some.inj (expiry.symm.trans is) ▸ live
        have keeps : Cookies.kept t { g with expires := word } = true := by
          simp [Cookies.kept, isWord, other, live]
        rw [if_pos (by omega), filter_singleton, filter_singleton, keeps,
          decide_eq_true unexpired]
        simp [encode, expiry, isWord]
      · have dead : ¬Unexpired t g := fun unexpired => live (unexpired e expiry)
        have drops : Cookies.kept t { g with expires := word } = false := by
          simp [Cookies.kept, isWord, other, Int.not_lt.1 live]
        rw [filter_singleton (p := (Unexpired t ·)), decide_eq_false dead]
        split
        · rw [filter_singleton, drops]
          rfl
        · rfl
    · have dead : ¬Unexpired t g := fun live => by have := live e expiry; omega
      rw [isWord, if_neg (by omega), filter_singleton, decide_eq_false dead]
      rfl

variable {past : List Event} {jar : List (Cookie Int)}

theorem Holds.filter (holds : Holds readtimezone past jar) (later : ∀ e ∈ past, e.last ≤ t)
    (p : Cookie Int → Bool) : (jar.filter p).filter (kept t) =
      ((latest (past.filterMap (Event.granted readtimezone))).filter
        fun g => decide (Unexpired t g) && p (encode g)).map encode := by
  rw [filter_comm, holds t later, filter_map, filter_filter]
  congr 2
  funext g
  exact Bool.and_comm ..

theorem holds_step {e : Event} (holds : Holds readtimezone past jar) (fits : e.Fits readtimezone)
    (order : ∀ e' ∈ past, e'.last ≤ e.first) :
    Holds readtimezone (past ++ [e]) (step readtimezone jar e) := by
  intro t later
  have ⟨before, now⟩ := forall_mem_append.1 later
  have now := now e mem_cons_self
  rw [filterMap_append]
  cases e with
  | set u sc began ended =>
    have ⟨read, order, dated⟩ := fits
    have set' := jarset_eq readtimezone u sc read jar ended
    cases allowed : granted readtimezone u sc began with
    | none =>
      rw [allowed] at set'
      rw [step, set', show [Event.set u sc began ended].filterMap (Event.granted readtimezone) = []
        by simp [Event.granted, allowed], append_nil]
      exact holds t before
    | some g =>
      rw [allowed] at set'
      have ⟨word, encodes, is⟩ := set'
      have added := (encodes (dated (by simp [allowed]))).kept read order now
      rw [step, is, show [Event.set u sc began ended].filterMap (Event.granted readtimezone) = [g]
        by simp [Event.granted, allowed], latest_append, filter_append, filter_append,
        map_append, added, holds.filter before, filter_filter]
      rfl
  | header u t' =>
    have dropped : (jar.filter (kept t')).filter (kept t) = jar.filter (kept t) := by
      rw [filter_filter]
      refine filter_congr fun c _ => ?_
      simp only [Event.last] at now
      simp only [kept, Bool.not_and, Bool.and_eq_left_iff_imp]
      simp
      omega
    have same' : (step readtimezone jar (.header u t')).filter (kept t) = jar.filter (kept t) := by
      unfold step jarheader
      dsimp only
      split
      · rfl
      · exact dropped
    rw [same', holds t before, filterMap_cons_none rfl, filterMap_nil, append_nil]

theorem holds_run (events : List Event) : Fit readtimezone events →
    Holds readtimezone events (run readtimezone events) := by
  induction events using List.reverseRecOn with
  | nil =>
    intro _ t _
    rfl
  | append_singleton past e ih =>
    intro ⟨fits, order⟩
    have ⟨before, now⟩ := forall_mem_append.1 fits
    have ⟨ordered, _, across⟩ := pairwise_append.1 order
    rw [run, foldl_append]
    exact holds_step (ih ⟨before, ordered⟩) (now e mem_cons_self)
      fun e' member => across e' member e mem_cons_self

theorem foldl_join (sep : Str) {f : Cookie Int → Str} (nonempty : ∀ c, f c ≠ [])
    (cs : List (Cookie Int)) :
    cs.foldl (fun r c => (if r = [] then r else r ++ sep) ++ f c) [] =
      sep.intercalate (cs.map f) := by
  have rest (cs : List (Cookie Int)) : ∀ r, r ≠ [] →
      cs.foldl (fun r c => (if r = [] then r else r ++ sep) ++ f c) r =
        sep.intercalate (r :: cs.map f) := by
    induction cs with
    | nil =>
      intro r _
      simp [List.intercalate]
    | cons c cs ih =>
      intro r some'
      rw [foldl_cons, if_neg some', ih _ (by simp [some'])]
      cases cs with
      | nil => simp [List.intercalate]
      | cons c' cs => simp [List.intercalate]
  cases cs with
  | nil => rfl
  | cons c cs => exact rest cs (f c) (nonempty c)

theorem header_wanted (events : List Event) (u : Str) (t : Int)
    (fit : Fit readtimezone (events ++ [.header u t])) :
    (jarheader (run readtimezone events) u t).1 = wanted readtimezone events u t := by
  have ⟨fits, order⟩ := fit
  have ⟨before, _⟩ := forall_mem_append.1 fits
  have ⟨ordered, _, across⟩ := pairwise_append.1 order
  have holds := holds_run events ⟨before, ordered⟩
  have later : ∀ e ∈ events, e.last ≤ t := fun e member => across e member _ mem_cons_self
  unfold jarheader wanted
  dsimp only
  by_cases host : (urlparts u).2.1 = []
  · rw [if_pos host]
    have unsent : ∀ g, ¬Sent u g := fun g sent => sent.1 host
    simp [unsent]
  rw [if_neg host]
  dsimp only
  rw [show (fun c : Cookie Int => !(c.expires != 0 && decide (c.expires ≤ t))) = kept t from rfl,
    filter_comm, holds.filter later]
  have sent (g : Cookie (Option Int)) : (!((encode g).hostonly && (urlparts u).2.1 !=
      (encode g).domain || !(encode g).hostonly &&
        !domainmatch (urlparts u).2.1 (encode g).domain) &&
          pathmatch (urlparts u).2.2 (encode g).path &&
          !((encode g).secure && (urlparts u).1 != str "https")) = decide (Sent u g) := by
    rw [Bool.eq_iff_iff, decide_eq_true_iff]
    dsimp only [Sent, encode]
    rw [← domainmatch_iff, ← pathmatch_iff]
    cases g.hostonly with
    | true => cases g.secure <;> simp [host, and_assoc]
    | false => cases g.secure <;> simp [host, and_assoc]
  have join := @foldl_join (str "; ") (fun c => c.name ++ [61] ++ c.value) (by simp)
    (((latest (events.filterMap (Event.granted readtimezone))).filter
      fun g => Unexpired t g ∧ Sent u g).map encode)
  simp only [sent, ← Bool.decide_and]
  rw [map_map] at join
  exact join

/-- What `readtimezone` answers where there are no files of time zones. -/
def utc (_ : Str) : Daytime.Timezone := ⟨str "GMT", [], 0, 0⟩

theorem header_fresh : (jarheader (run utc [.set (str "http://h/") (str "a=1; Max-Age=9") 5 5])
    (str "http://h/") 6).1 =
      wanted utc [.set (str "http://h/") (str "a=1; Max-Age=9") 5 5] (str "http://h/") 6 :=
  header_wanted _ _ _ ⟨forall_mem_cons.2 ⟨⟨by decide, by decide, fun _ => by
    have aged : (wish utc (tokens (· == 59) (str "a=1; Max-Age=9")).tail).maxage =
        some (str "9") := by
      decide +kernel
    unfold Wish.Dated
    rw [aged]
    decide⟩, forall_mem_cons.2 ⟨trivial, nofun⟩⟩, pairwise_pair.2 (by decide)⟩

/-- The clock and the age make a negative word. -/
theorem header_wraps : (jarheader (run utc [.set (str "http://h/")
    (str "a=1; Max-Age=400000000") 1767225600 1767225600]) (str "http://h/") 1767225600).1 = [] ∧
      wanted utc [.set (str "http://h/") (str "a=1; Max-Age=400000000") 1767225600 1767225600]
        (str "http://h/") 1767225600 = str "a=1" := by
  decide +kernel

end Wishes

end Infernode.Cookies
