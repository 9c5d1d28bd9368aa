import Infernode.Lib.Pathname

/-!
The names that `lib9/cleanname.c` cleans in place, and `cleancname` of `emu/port/chan.c`.

Owns: `cleanname`, with its cursors in one array, and `cleancname`; the normal form of a name; that
the code leaves it, is never ahead with a write of what it reads, and finds a name that is in
normal form as it should be.
-/

namespace Infernode.Cleanname

open Text Pathname List Option

/-! ### The code -/

structure Cursor where
  buf : Str
  p : Nat
  q : Nat
  dotdot : Nat

def Cursor.char (s : Cursor) (i : Nat) : Nat := s.buf.getD i 0

/-- `*q++ = c`. A write ahead of what is read, or behind the array, has no result. -/
def Cursor.put (s : Cursor) (c : Nat) : Option Cursor :=
  if s.q ≤ s.p ∧ s.q < s.buf.length then some { s with buf := s.buf.set s.q c, q := s.q + 1 }
  else none

def IsSep (c : Nat) : Prop := c = 47 ∨ c = 0

instance (c : Nat) : Decidable (IsSep c) := inferInstanceAs (Decidable (_ ∨ _))

/-- `while(--q > dotdot && *q != '/')`. -/
def back (buf : Str) (dotdot : Nat) : Nat → Nat
  | 0 => 0
  | q + 1 => if dotdot < q ∧ buf.getD q 0 ≠ 47 then back buf dotdot q else q

/-- `while((*q = *p) != '/' && *q != 0) p++, q++`. -/
def copy : Nat → Cursor → Option Cursor
  | 0, _ => none
  | fuel + 1, s =>
    (s.put (s.char s.p)).bind fun t =>
      if IsSep (s.char s.p) then some { t with q := s.q }
      else copy fuel { t with p := s.p + 1 }

def slash (first : Nat) (s : Cursor) : Option Cursor :=
  if s.q ≠ first then s.put 47 else some s

def turn (rooted : Nat) (s : Cursor) : Option Cursor :=
  if s.char s.p = 47 then some { s with p := s.p + 1 }
  else if s.char s.p = 46 ∧ IsSep (s.char (s.p + 1)) then some { s with p := s.p + 1 }
  else if s.char s.p = 46 ∧ s.char (s.p + 1) = 46 ∧ IsSep (s.char (s.p + 2)) then
    let t := { s with p := s.p + 2 }
    if s.dotdot < s.q then some { t with q := back s.buf s.dotdot s.q }
    else if rooted = 0 then
      (slash 0 t).bind fun t => (t.put 46).bind fun t => (t.put 46).bind fun t =>
        some { t with dotdot := t.q }
    else some t
  else (slash rooted s).bind fun t => copy (t.buf.length - t.p) t

def turns (rooted : Nat) : Nat → Cursor → Option Cursor
  | 0, _ => none
  | fuel + 1, s => if s.char s.p = 0 then some s else (turn rooted s).bind (turns rooted fuel)

def cleanname (name : Str) : Option Str :=
  let rooted := if name.head? = some 47 then 1 else 0
  (turns rooted (name.length + 1) ⟨name ++ [0], rooted, rooted, rooted⟩).bind fun s =>
    (if s.q = 0 then s.put 46 else some s).bind fun s => (s.put 0).map Cursor.buf

def cstring (buf : Str) : Str := buf.takeWhile (· ≠ 0)

def cleancname (s : Str) : Option Str :=
  if s.head? = some 35 then
    match s.dropWhile (· ≠ 47) with
    | [] => some s
    | p => (cleanname p).map fun buf =>
      s.takeWhile (· ≠ 47) ++
        (if cstring buf = str "/" ∧ s.getD 1 0 ≠ 47 then [] else cstring buf)
  else (cleanname s).map cstring

/-! ### The normal form -/

/-- Some elements behind a root, with a slash in front of each but the first. -/
def text (root : Str) (elems : List Str) : Str :=
  elems.foldl (fun s c => if s = root then s ++ c else s ++ 47 :: c) root

def rootOf (name : Str) : Str := if name.head? = some 47 then [47] else []

/-- What is left of the elements of a name when each `..` takes the one before it away: at the root
a `..` is dropped, and else it stays in front. -/
def elems (root : Str) (place : Nat × List Str) : List Str :=
  (if root = [] then List.replicate place.1 (str "..") else []) ++ place.2

def cleaned (name : Str) : Str := text (rootOf name) (elems (rootOf name) (leads (segments name)))

def normal (name : Str) : Str := if cleaned name = [] then str "." else cleaned name

/-- No element is empty or `.`, and `..` only leads a name without a root. -/
def Normal (t : Str) : Prop :=
  t = str "." ∨ ∃ ups names, (∀ c ∈ names, IsName c) ∧
    (t = text [47] names ∨ t = text [] (List.replicate ups (str "..") ++ names) ∧ t ≠ [])

def IsElem (c : Str) : Prop := c ≠ [] ∧ 47 ∉ c

theorem isElem_of_isName {c : Str} (isName : IsName c) : IsElem c := ⟨isName.1, isName.2.1⟩

theorem text_concat (root : Str) (elems : List Str) (c : Str) : text root (elems ++ [c]) =
    if text root elems = root then text root elems ++ c else text root elems ++ 47 :: c := by
  rw [text, foldl_concat]
  rfl

theorem length_text_lt (root : Str) (elems : List Str) {c : Str} (nonempty : c ≠ []) :
    (text root elems).length < (text root (elems ++ [c])).length := by
  have positive := length_pos_iff.2 nonempty
  rw [text_concat]
  split
  · rw [length_append]
    omega
  · rw [length_append, length_cons]
    omega

theorem length_text_append (root : Str) (front : List Str) {back : List Str}
    (proper : ∀ c ∈ back, IsElem c) :
    (text root front).length ≤ (text root (front ++ back)).length := by
  induction back using List.reverseRecOn with
  | nil => rw [append_nil]
  | append_singleton back c ih =>
    have ⟨nonempty, _⟩ := proper c (by simp)
    have shorter := ih fun d member => proper d (mem_append_left _ member)
    have longer := length_text_lt root (front ++ back) nonempty
    rw [append_assoc] at longer
    omega

theorem text_eq_root {root : Str} {elems : List Str} (proper : ∀ c ∈ elems, IsElem c) :
    text root elems = root ↔ elems = [] := by
  constructor
  · intro same
    rcases eq_nil_or_concat elems with empty | ⟨front, c, shape⟩
    · exact empty
    rw [concat_eq_append] at shape
    subst shape
    have least := length_text_append root [] (fun d member => proper d (mem_append_left [c] member))
    have longer := length_text_lt root front (proper c (by simp)).1
    rw [same] at longer
    exact absurd longer (Nat.not_lt.2 least)
  · rintro rfl
    rfl

theorem rootOf_text {root : Str} {elems : List Str} (proper : ∀ c ∈ elems, IsElem c)
    (isRoot : root = [] ∨ root = [47]) : rootOf (text root elems) = root := by
  induction elems using List.reverseRecOn with
  | nil => rcases isRoot with rfl | rfl <;> rfl
  | append_singleton front c ih =>
    have ⟨nonempty, clean⟩ := proper c (by simp)
    have before := ih fun d member => proper d (mem_append_left _ member)
    have kept : ∀ rest, text root front ≠ [] → rootOf (text root front ++ rest) = root := by
      intro rest some'
      rw [rootOf, head?_append_of_ne_nil _ some']
      exact before
    rw [text_concat]
    split
    · rename_i same
      rcases isRoot with rfl | rfl
      · rw [same, nil_append, rootOf, if_neg]
        intro first
        exact clean (mem_of_head? first)
      · exact kept c (by rw [same]; exact cons_ne_nil _ _)
    rename_i different
    apply kept
    intro empty
    rcases isRoot with rfl | rfl
    · exact different empty
    have least := length_text_append [47] [] fun d member =>
      proper d (mem_append_left [c] member)
    rw [nil_append, empty] at least
    exact absurd least (by decide)

theorem segments_elem {c : Str} (proper : IsElem c) : segments c = [c] := by
  refine tokens_eq_singleton proper.1 fun d member => ?_
  have other : d ≠ 47 := fun same => proper.2 (same ▸ member)
  simpa using other

theorem segments_text {root : Str} {elems : List Str} (proper : ∀ c ∈ elems, IsElem c)
    (isRoot : root = [] ∨ root = [47]) : segments (text root elems) = elems := by
  induction elems using List.reverseRecOn with
  | nil => rcases isRoot with rfl | rfl <;> rfl
  | append_singleton front c ih =>
    have ⟨nonempty, clean⟩ := proper c (by simp)
    have before := ih fun d member => proper d (mem_append_left _ member)
    have alone := segments_elem (proper c (by simp))
    rw [text_concat]
    split
    · rename_i same
      have empty := (text_eq_root fun d member => proper d (mem_append_left [c] member)).1 same
      rw [same, empty]
      rcases isRoot with rfl | rfl
      · exact alone
      · have split := segments_slash [] c
        rw [alone] at split
        exact split
    · rw [segments_slash, before, alone]

theorem dotdot_isElem : IsElem (str "..") := ⟨nofun, by decide⟩

theorem elems_isElem (root : Str) {place : Nat × List Str} (names : ∀ c ∈ place.2, IsName c) :
    ∀ c ∈ elems root place, IsElem c := by
  intro c member
  rcases mem_append.1 member with up | down
  · split at up
    · rw [(mem_replicate.1 up).2]
      exact dotdot_isElem
    · exact nomatch up
  · exact isElem_of_isName (names c down)

/-- What holds of the names holds of those that are left. -/
theorem lead_forall {P : Str → Prop} {comps : List Str}
    (each : ∀ c ∈ comps, c ≠ str "." → c ≠ str ".." → P c) {place : Nat × List Str}
    (names : ∀ c ∈ place.2, P c) : ∀ c ∈ (comps.foldl lead place).2, P c := by
  induction comps generalizing place with
  | nil => exact names
  | cons first comps ih =>
    apply ih fun c member => each c (mem_cons_of_mem _ member)
    unfold lead
    split
    · exact names
    split
    · split
      · exact fun c member => nomatch member
      · exact fun c member => names c (dropLast_subset _ member)
    rename_i notDot notDotdot
    intro c member
    rcases mem_append.1 member with old | new
    · exact names c old
    · rw [mem_singleton.1 new]
      exact each first mem_cons_self notDot notDotdot

theorem segments_isElem (name : Str) : ∀ c ∈ segments name, IsElem c := by
  intro _ member
  have ⟨nonempty, clean⟩ := mem_tokens member
  exact ⟨nonempty, fun slash => absurd (clean 47 slash) (by decide)⟩

theorem leads_elems (root : Str) {place : Nat × List Str} (names : ∀ c ∈ place.2, IsName c) :
    leads (elems root place) = (if root = [] then place.1 else 0, place.2) := by
  have down : ∀ (n : Nat) (front back : List Str), (∀ c ∈ back, IsName c) →
      back.foldl lead (n, front) = (n, front ++ back) := by
    intro _ front back
    induction back generalizing front with
    | nil => exact fun _ => by rw [append_nil]; rfl
    | cons c _ ih =>
      intro proper
      have ⟨_, _, notDot, notDotdot⟩ := proper c mem_cons_self
      rw [foldl_cons, lead, if_neg notDot, if_neg notDotdot,
        ih _ fun d member => proper d (mem_cons_of_mem _ member),
        append_assoc]
      rfl
  have up : ∀ k : Nat, (List.replicate k (str "..")).foldl lead (0, []) = (k, []) := by
    intro k
    induction k with
    | zero => rfl
    | succ _ ih =>
      rw [replicate_succ', foldl_concat, ih]
      rfl
  unfold leads elems
  rw [foldl_append]
  split
  · rw [up, down _ _ _ names]
    rfl
  · exact down 0 [] place.2 names

theorem normal_of_normal {t : Str} (isNormal : Normal t) : normal t = t := by
  rcases isNormal with rfl | ⟨ups, names, proper, shape⟩
  · decide
  have rooted : ∃ root, (root = [] ∨ root = [47]) ∧ t = text root (elems root (ups, names)) ∧
      t ≠ [] := by
    rcases shape with rfl | ⟨same, some'⟩
    · refine ⟨[47], Or.inr rfl, rfl, fun empty => ?_⟩
      have root := @rootOf_text [47] names (fun c member => isElem_of_isName (proper c member))
        (Or.inr rfl)
      rw [empty] at root
      exact nomatch root
    · exact ⟨[], Or.inl rfl, same, some'⟩
  have ⟨root, isRoot, same, some'⟩ := rooted
  have each := @elems_isElem root (ups, names) proper
  have again : elems root (leads (elems root (ups, names))) = elems root (ups, names) := by
    rw [leads_elems root proper]
    unfold elems
    split <;> rfl
  rw [normal, cleaned, same, rootOf_text each isRoot, segments_text each isRoot, again, ← same]
  exact if_neg some'

theorem leads_names (name : Str) : ∀ c ∈ (leads (segments name)).2, IsName c :=
  lead_forall (fun c member notDot notDotdot =>
    ⟨(segments_isElem name c member).1, (segments_isElem name c member).2, notDot, notDotdot⟩) nofun

theorem normal_isNormal (name : Str) : Normal (normal name) := by
  have proper := leads_names name
  unfold normal
  split
  · exact Or.inl rfl
  rename_i some'
  refine Or.inr ⟨(leads (segments name)).1, (leads (segments name)).2, proper, ?_⟩
  by_cases rooted : name.head? = some 47
  · have root : rootOf name = [47] := if_pos rooted
    rw [cleaned, root]
    exact Or.inl rfl
  · have root : rootOf name = [] := if_neg rooted
    rw [cleaned, root] at some' ⊢
    exact Or.inr ⟨rfl, some'⟩

/-! ### The cursors -/

section Cursors

variable {s : Cursor} {out junk rest : Str}

/-- What was written, what is over from what was read, and what is still to be read. -/
structure Holds (s : Cursor) (out junk rest : Str) : Prop where
  buf : s.buf = out ++ (junk ++ rest)
  p : s.p = out.length + junk.length
  q : s.q = out.length

theorem Holds.char (holds : Holds s out junk rest) (i : Nat) : s.char (s.p + i) = rest.getD i 0 := by
  rw [Cursor.char, holds.buf, ← append_assoc, holds.p, ← length_append,
    getD_eq_getElem?_getD, getD_eq_getElem?_getD,
    getElem?_append_right (Nat.le_add_right _ _), Nat.add_sub_cancel_left]

theorem Holds.skip {c : Nat} (holds : Holds s out junk (c :: rest)) :
    Holds { s with p := s.p + 1 } out (junk ++ [c]) rest where
  buf := by
    rw [holds.buf, append_assoc]
    rfl
  p := by
    rw [length_append]
    exact congrArg (· + 1) holds.p
  q := holds.q

theorem Holds.put {j : Nat} (holds : Holds s out (j :: junk) rest) (c : Nat) :
    ∃ t, s.put c = some t ∧ Holds t (out ++ [c]) junk rest ∧ t.p = s.p ∧ t.dotdot = s.dotdot := by
  have length : s.buf.length = out.length + (junk.length + 1 + rest.length) := by
    rw [holds.buf, length_append, length_append, length_cons]
  have p := holds.p
  have q := holds.q
  rw [length_cons] at p
  refine ⟨_, if_pos ⟨by omega, by omega⟩, ⟨?_, ?_, ?_⟩, rfl, rfl⟩
  · show s.buf.set s.q c = _
    rw [holds.buf, q, set_append_right _ _ (Nat.le_refl _), Nat.sub_self, append_assoc]
    rfl
  · show s.p = _
    rw [length_append, p, length_singleton]
    omega
  · show s.q + 1 = _
    rw [length_append, q]
    rfl

theorem Holds.copied {c : Nat} (holds : Holds s out junk (c :: rest)) :
    ∃ t left right, s.put c = some t ∧ t.p = s.p ∧ t.dotdot = s.dotdot ∧
      left.length = junk.length ∧ Holds { t with p := s.p + 1 } (out ++ [c]) left rest ∧
      right.length = junk.length ∧ Holds { t with q := s.q } out right (c :: rest) := by
  cases junk with
  | nil =>
    have buf := holds.buf
    have p := holds.p
    have q := holds.q
    rw [nil_append] at buf
    have length : s.buf.length = out.length + (rest.length + 1) := by
      rw [buf, length_append, length_cons]
    have same : s.buf.set s.q c = s.buf := by
      rw [buf, q, set_append_right _ _ (Nat.le_refl _), Nat.sub_self]
      rfl
    refine ⟨_, [], [], if_pos ⟨by rw [p, q]; exact Nat.le_refl _, by omega⟩, rfl, rfl, rfl,
      ⟨?_, ?_, ?_⟩, rfl, same.trans holds.buf, p, q⟩
    · rw [append_assoc]
      exact same.trans buf
    · rw [length_append]
      exact congrArg (· + 1) p
    · rw [length_append]
      exact congrArg (· + 1) q
  | cons j junk =>
    have ⟨t, put, later, p, dotdot⟩ := holds.put c
    have length : (c :: junk).length = (j :: junk).length := rfl
    refine ⟨t, junk ++ [c], c :: junk, put, p, dotdot, by rw [length_append]; rfl,
      p ▸ later.skip, length, ?_, ?_, holds.q⟩
    · show t.buf = _
      rw [later.buf, append_assoc]
      rfl
    · show t.p = _
      rw [p, holds.p, length]

theorem copy_elem {stop fuel : Nat} (ends : IsSep stop) {elem : Str} : ∀ {s : Cursor}
    {out junk rest : Str}, (∀ c ∈ elem, ¬ IsSep c) → elem.length < fuel →
      Holds s out junk (elem ++ stop :: rest) →
      ∃ t left, copy fuel s = some t ∧ left.length = junk.length ∧ t.dotdot = s.dotdot ∧
        Holds t (out ++ elem) left (stop :: rest) := by
  induction fuel generalizing elem with
  | zero => exact fun _ enough _ => absurd enough (Nat.not_lt_zero _)
  | succ _ ih =>
    intro s _ _ _ clean enough holds
    have char := holds.char 0
    rw [Nat.add_zero] at char
    cases elem with
    | nil =>
      have ⟨t, _, right, put, p, dotdot, _, _, length, later⟩ := holds.copied
      have here : s.char s.p = stop := char
      rw [copy, here, put, bind_some, if_pos ends, append_nil]
      exact ⟨_, right, rfl, length, dotdot, later⟩
    | cons c _ =>
      have ⟨_, _, _, put, _, dotdot, length, later, _⟩ := holds.copied
      have here : s.char s.p = c := char
      have ⟨u, left', rest_, length', dotdot', final⟩ := ih
        (fun d member => clean d (mem_cons_of_mem _ member))
        (Nat.lt_of_succ_lt_succ enough) later
      rw [copy, here, put, bind_some, if_neg (clean c mem_cons_self)]
      rw [append_assoc] at final
      exact ⟨u, left', rest_, length'.trans length, dotdot'.trans dotdot, final⟩

/-- The backward search stops where it may not go on, or at the slash in front of the element. -/
theorem back_eq {buf : Str} {dotdot stop q : Nat} (before : stop < q) (bound : dotdot ≤ stop)
    (clean : ∀ i, stop < i → i < q → buf.getD i 0 ≠ 47)
    (ends : stop = dotdot ∨ buf.getD stop 0 = 47) : back buf dotdot q = stop := by
  induction q with
  | zero => exact absurd before (Nat.not_lt_zero _)
  | succ q ih =>
    rw [back]
    rcases Nat.lt_succ_iff_lt_or_eq.1 before with less | rfl
    · rw [if_pos ⟨by omega, clean q less (Nat.lt_succ_self q)⟩]
      exact ih less fun i above below => clean i above (by omega)
    rw [if_neg]
    rintro ⟨more, other⟩
    rcases ends with same | slash
    · omega
    · exact other slash

variable {size : Nat} {root : Str} {place : Nat × List Str}

/-- Where the loop stands that has read the elements of `place`, with `rest` in front of it: unless
the name is still its root, there is room for the slash of the next element. -/
structure Stands (size : Nat) (root : Str) (s : Cursor) (place : Nat × List Str) (junk rest : Str) :
    Prop where
  names : ∀ c ∈ place.2, IsName c
  holds : Holds s (text root (elems root place)) junk (rest ++ [0])
  room : text root (elems root place) = root ∨ junk ≠ [] ∨ IsSep (rest.getD 0 0)
  dotdot : s.dotdot = (text root (elems root (place.1, []))).length
  size : s.p + rest.length = size

theorem length_text_eq {elems : List Str} (proper : ∀ c ∈ elems, IsElem c) :
    (text root elems).length = root.length ↔ text root elems = root := by
  constructor
  · intro length
    rcases eq_nil_or_concat elems with empty | ⟨front, c, shape⟩
    · rw [empty]
      rfl
    rw [concat_eq_append] at shape
    subst shape
    have least := length_text_append root [] fun d member =>
      proper d (mem_append_left [c] member)
    have longer := length_text_lt root front (proper c (by simp)).1
    rw [length] at longer
    exact absurd longer (Nat.not_lt.2 least)
  · exact congrArg List.length

theorem slash_eq {elems : List Str} (proper : ∀ c ∈ elems, IsElem c)
    (holds : Holds s (text root elems) junk rest) (room : text root elems = root ∨ junk ≠ []) :
    ∃ t front left, slash root.length s = some t ∧ Holds t front left rest ∧
      t.dotdot = s.dotdot ∧ t.p = s.p ∧ junk.length ≤ left.length + 1 ∧
      (text root elems = root → left = junk) ∧ ∀ c, text root (elems ++ [c]) = front ++ c := by
  have length := @length_text_eq root elems proper
  rw [← holds.q] at length
  by_cases bare : text root elems = root
  · refine ⟨s, text root elems, junk, if_neg (not_not.2 (length.2 bare)), holds, rfl,
      rfl, Nat.le_succ _, fun _ => rfl, fun c => ?_⟩
    rw [text_concat, if_pos bare]
  have ⟨_, left, shape⟩ := exists_cons_of_ne_nil (room.resolve_left bare)
  subst shape
  have ⟨t, put, later, p, dotdot⟩ := holds.put 47
  refine ⟨t, _, left, ?_, later, dotdot, p, Nat.le_refl _, fun same => absurd same bare, fun c => ?_⟩
  · rw [slash, if_pos (fun same => bare (length.1 same)), put]
  · rw [text_concat, if_neg bare, append_assoc]
    rfl

theorem elems_concat (root : Str) (ups : Nat) (names : List Str) (c : Str) :
    elems root (ups, names ++ [c]) = elems root (ups, names) ++ [c] := (append_assoc ..).symm

/-- An element other than `.` and `..` is written behind the others. -/
theorem turn_name {elem tail : Str} (isName : IsName elem)
    (clean : ∀ c ∈ elem, ¬ IsSep c) (ends : IsSep (tail.getD 0 0))
    (stands : Stands size root s place junk (elem ++ tail)) :
    ∃ t left, turn root.length s = some t ∧
      Stands size root t (place.1, place.2 ++ [elem]) left tail := by
  have holds := stands.holds
  have some' : 0 < elem.length := length_pos_iff.2 isName.1
  have shape : elem ++ tail ++ [0] = elem ++ tail.getD 0 0 :: (tail ++ [0]).tail := by
    cases tail <;> simp
  have ⟨first, rest, begins⟩ := exists_cons_of_ne_nil isName.1
  have notSep : ¬ IsSep first := clean first (begins ▸ mem_cons_self)
  have char (i : Nat) := holds.char i
  rw [shape] at char
  have here : s.char s.p = first := (char 0).trans (by rw [begins]; rfl)
  have room := stands.room.imp_right fun room => room.resolve_right
    (by rw [begins]; exact notSep)
  have ⟨t, _, _, slashed, later, mark, p, _, _, next⟩ :=
    slash_eq (elems_isElem root stands.names) holds room
  rw [shape] at later
  have enough : elem.length < t.buf.length - t.p := by
    rw [later.buf, later.p]
    simp only [length_append, length_cons]
    omega
  have ⟨u, right, copied, same, mark', final⟩ := copy_elem ends clean enough later
  have ends' : tail.getD 0 0 :: (tail ++ [0]).tail = tail ++ [0] := by cases tail <;> rfl
  have dot : ¬ (first = 46 ∧ IsSep (s.char (s.p + 1))) := by
    rintro ⟨isDot, sep⟩
    cases rest with
    | nil => exact isName.2.2.1 (by rw [begins, isDot]; rfl)
    | cons c _ =>
      rw [(char 1).trans (by rw [begins]; rfl : _ = c)] at sep
      exact clean c (by rw [begins]; simp) sep
  have dotdot : ¬ (first = 46 ∧ s.char (s.p + 1) = 46 ∧ IsSep (s.char (s.p + 2))) := by
    rintro ⟨isDot, again, sep⟩
    match rest with
    | [] =>
      rw [(char 1).trans (by rw [begins]; rfl : _ = tail.getD 0 0)] at again
      rw [again] at ends
      exact absurd ends (by decide)
    | [c] =>
      rw [(char 1).trans (by rw [begins]; rfl : _ = c)] at again
      exact isName.2.2.2 (by rw [begins, isDot, again]; rfl)
    | c :: d :: rest =>
      rw [(char 2).trans (by rw [begins]; rfl : _ = d)] at sep
      exact clean d (by rw [begins]; simp) sep
  refine ⟨u, right, ?_, ?_, ?_, Or.inr (Or.inr ends), mark'.trans (mark.trans stands.dotdot), ?_⟩
  · rw [turn, here, if_neg fun slash => notSep (Or.inl slash), if_neg dot, if_neg dotdot, slashed]
    exact copied
  · intro c member
    rcases mem_append.1 member with old | new
    · exact stands.names c old
    · rw [mem_singleton.1 new]
      exact isName
  · rw [elems_concat, next, ← ends']
    exact final
  have before := stands.size
  have start := later.p
  rw [← p, length_append] at before
  rw [final.p, length_append, same]
  omega

/-- What the last element adds to the text: no slash behind its first character, and one there
unless it stands at the root. -/
theorem text_last (root : Str) {front : List Str} {last : Str} (clean : 47 ∉ last) :
    ∃ more, text root (front ++ [last]) = text root front ++ more ∧
      (∀ i, 0 < i → more.getD i 0 ≠ 47) ∧ (text root front = root ∨ more.getD 0 0 = 47) := by
  have no {i : Nat} : last.getD i 0 ≠ 47 := by
    rw [getD_eq_getElem?_getD]
    cases found : last[i]? with
    | none => exact nofun
    | some c => exact fun same => clean (same ▸ mem_of_getElem? found)
  rw [text_concat]
  split
  · rename_i bare
    exact ⟨last, rfl, fun _ _ => no, Or.inl bare⟩
  refine ⟨47 :: last, rfl, fun i positive => ?_, Or.inr rfl⟩
  cases i with
  | zero => exact absurd positive (Nat.lt_irrefl 0)
  | succ i => exact no

/-- After `..` the last name is gone, or one more `..` is written if there is no root. -/
theorem turn_dotdot {tail : Str} (isRoot : root = [] ∨ root = [47]) (ends : IsSep (tail.getD 0 0))
    (stands : Stands size root s place junk (str ".." ++ tail)) :
    ∃ t left, turn root.length s = some t ∧ Stands size root t (lead place (str "..")) left tail := by
  have proper := elems_isElem root stands.names
  have holds := stands.holds
  have char (i : Nat) := holds.char i
  have first : s.char s.p = 46 := char 0
  have second : s.char (s.p + 1) = 46 := char 1
  have stops : s.char (s.p + 2) = tail.getD 0 0 := (char 2).trans (by cases tail <;> rfl)
  have passed : Holds { s with p := s.p + 2 } (text root (elems root place)) (junk ++ str "..")
      (tail ++ [0]) := by
    have twice := (@Holds.skip s _ junk (46 :: (tail ++ [0])) 46 holds).skip
    rw [append_assoc] at twice
    exact twice
  have q := holds.q
  have dotdot := stands.dotdot
  have read : s.p + 2 + tail.length = size := by
    rw [← stands.size, length_append, ← Nat.add_assoc]
    rfl
  rw [turn, first, second, stops, if_neg (by decide), if_neg (fun sep => absurd sep.2 (by decide)),
    if_pos ⟨rfl, rfl, ends⟩]
  dsimp only
  rcases eq_nil_or_concat place.2 with flat | ⟨names, last, shape⟩
  · have same : place = (place.1, []) := Prod.ext rfl flat
    have risen : lead place (str "..") = (place.1 + 1, []) := by
      rw [lead, if_neg (by decide), if_pos rfl, if_pos flat]
    rw [← same, ← q] at dotdot
    rw [risen, if_neg (by omega)]
    rcases isRoot with rfl | rfl
    · have ⟨t, _, left, slashed, later, _, p, length, all, next⟩ :=
        slash_eq proper passed (Or.inr (append_ne_nil_of_right_ne_nil _ nofun))
      have grown : elems [] (place.1 + 1, []) = elems [] place ++ [str ".."] := by
        rw [same]
        exact (append_nil _).trans (replicate_succ'.trans
          (congrArg (· ++ [str ".."]) (append_nil _).symm))
      have two : 2 ≤ left.length := by
        rw [length_append] at length
        by_cases bare : text [] (elems [] place) = []
        · rw [all bare, length_append]
          exact Nat.le_add_left _ _
        have some' := (stands.room.resolve_left bare).resolve_right
          fun sep => absurd (show IsSep 46 from sep) (by decide)
        have positive := length_pos_iff.2 some'
        have dots : (str "..").length = 2 := rfl
        omega
      match left, two with
      | c :: d :: left, _ =>
        have ⟨_, put, later, p', _⟩ := later.put 46
        have ⟨v, put', later, p'', _⟩ := later.put 46
        rw [append_assoc, singleton_append] at later
        have slashed : slash 0 { s with p := s.p + 2 } = some t := slashed
        rw [if_pos (length_nil : ([] : Str).length = 0), slashed, bind_some, put,
          bind_some, put', bind_some]
        have total : v.p = s.p + 2 := p''.trans (p'.trans p)
        refine ⟨_, left, rfl, nofun, ?_, Or.inr (Or.inr ends), ?_, ?_⟩
        · rw [grown, next]
          exact ⟨later.buf, later.p, later.q⟩
        · rw [grown, next]
          exact later.q
        · rw [← read, ← total]
    · rw [if_neg (by decide)]
      have kept : elems [47] (place.1 + 1, []) = elems [47] place := by
        rw [same]
        rfl
      refine ⟨_, junk ++ str "..", rfl, nofun, ?_, Or.inr (Or.inr ends), ?_, read⟩
      · rw [kept]
        exact passed
      · rw [kept, ← q]
        exact dotdot
  · rw [concat_eq_append] at shape
    have same : place = (place.1, names ++ [last]) := Prod.ext rfl shape
    have dropped : lead place (str "..") = (place.1, names) := by
      rw [lead, if_neg (by decide), if_pos rfl, shape,
        if_neg (concat_ne_nil _ _), dropLast_concat]
    have isName := stands.names last (by rw [shape]; simp)
    have below : ∀ c ∈ names, IsName c := fun c member =>
      stands.names c (shape ▸ mem_append_left _ member)
    have ⟨more, text_, clean, slash_⟩ := @text_last root (elems root (place.1, names)) last isName.2.1
    rw [← elems_concat, ← same] at text_
    have bound : s.dotdot ≤ (text root (elems root (place.1, names))).length := by
      rw [dotdot]
      have longer := @length_text_append root (elems root (place.1, [])) names fun c member =>
        isElem_of_isName (below c member)
      rw [elems, append_assoc] at longer
      exact longer
    have less : (text root (elems root (place.1, names))).length < s.q := by
      rw [q, same, elems_concat]
      exact length_text_lt _ _ isName.1
    have length := congrArg List.length text_
    rw [length_append, ← q] at length
    have buf (i : Nat) (inside : i < more.length) :
        s.buf.getD ((text root (elems root (place.1, names))).length + i) 0 = more.getD i 0 := by
      rw [holds.buf, text_, append_assoc, getD_eq_getElem?_getD, getD_eq_getElem?_getD,
        getElem?_append_right (Nat.le_add_right _ _), Nat.add_sub_cancel_left,
        getElem?_append_left inside]
    have backed : back s.buf s.dotdot s.q = (text root (elems root (place.1, names))).length := by
      apply back_eq less bound
      · intro i above _
        have here := buf (i - (text root (elems root (place.1, names))).length) (by omega)
        rw [Nat.add_sub_cancel' (Nat.le_of_lt above)] at here
        rw [here]
        exact clean _ (by omega)
      rcases slash_ with bare | slash_
      · left
        have none_ := (text_eq_root (@elems_isElem root (place.1, names) below)).1 bare
        have empty : elems root (place.1, []) = [] := by
          have ⟨none_, _⟩ := append_eq_nil_iff.1 none_
          rw [elems, none_]
          rfl
        rw [dotdot, bare, empty]
        rfl
      · exact Or.inr ((buf 0 (by omega)).trans slash_)
    rw [dropped, if_pos (by omega), backed]
    refine ⟨_, more ++ (junk ++ str ".."), rfl, below, ⟨?_, ?_, rfl⟩, Or.inr (Or.inr ends), dotdot,
      read⟩
    · show s.buf = _
      rw [passed.buf, text_]
      simp only [append_assoc]
    · rw [passed.p, text_]
      simp only [length_append]
      omega

/-- The first element of a text that does not start with a slash, and what is behind it. -/
theorem first_elem {c : Nat} (rest : Str) (other : c ≠ 47) :
    ∃ elem tail, c :: rest = elem ++ tail ∧ IsElem elem ∧ IsSep (tail.getD 0 0) ∧
      segments (elem ++ tail) = [elem] ++ segments tail := by
  have keep : (decide (c ≠ 47)) = true := decide_eq_true other
  rcases takeWhile_cases (fun d : Nat => decide (d ≠ 47)) (c :: rest) with
    all | ⟨elem, stop, tail, whole, all, stops⟩
  · have proper : IsElem (c :: rest) :=
      ⟨cons_ne_nil _ _, fun slash => absurd (all 47 slash) (by decide)⟩
    refine ⟨c :: rest, [], (append_nil _).symm, proper, Or.inr rfl, ?_⟩
    rw [append_nil, segments_elem proper]
    rfl
  have slash : stop = 47 := not_not.1 (of_decide_eq_false stops)
  subst slash
  have proper : IsElem elem := by
    refine ⟨?_, fun slash => absurd (all 47 slash) (by decide)⟩
    rintro rfl
    exact other (List.cons.inj whole).1
  refine ⟨elem, 47 :: tail, whole, proper, Or.inl rfl, ?_⟩
  rw [segments_slash, segments_elem proper]
  exact congrArg (elem :: ·) (segments_slash [] tail).symm

theorem turns_eq (isRoot : root = [] ∨ root = [47]) (fuel : Nat) : ∀ {s : Cursor}
    {place : Nat × List Str} {junk rest : Str}, 0 ∉ rest → rest.length < fuel →
      Stands size root s place junk rest →
      ∃ t left, turns root.length fuel s = some t ∧
        Stands size root t ((segments rest).foldl lead place) left [] := by
  induction fuel with
  | zero => exact fun _ enough _ => absurd enough (Nat.not_lt_zero _)
  | succ fuel ih =>
    intro s place junk rest noNull enough stands
    have char := stands.holds.char 0
    cases rest with
    | nil =>
      have here : s.char s.p = 0 := char
      rw [turns, if_pos here]
      exact ⟨s, junk, rfl, stands⟩
    | cons c rest =>
      have here : s.char s.p = c := char
      have notNull : c ≠ 0 := fun same => noNull (same ▸ mem_cons_self)
      rw [turns, here, if_neg notNull]
      have go {tail : Str} {comps : List Str} (shorter : tail.length < (c :: rest).length)
          (within : ∀ d ∈ tail, d ∈ c :: rest)
          (split : segments (c :: rest) = comps ++ segments tail)
          (turned : ∃ t left, turn root.length s = some t ∧
            Stands size root t (comps.foldl lead place) left tail) :
          ∃ t left, (turn root.length s).bind (turns root.length fuel) = some t ∧
            Stands size root t ((segments (c :: rest)).foldl lead place) left [] := by
        have ⟨_, _, turned, later⟩ := turned
        rw [turned, split, foldl_append]
        exact ih (fun null => noNull (within 0 null))
          (Nat.lt_of_lt_of_le shorter (Nat.le_of_lt_succ enough)) later
      by_cases slash : c = 47
      · subst slash
        refine @go rest [] (Nat.lt_succ_self _) (fun d member => mem_cons_of_mem _ member)
          (segments_slash [] rest) ⟨{ s with p := s.p + 1 }, junk ++ [47], ?_, stands.names, stands.holds.skip,
            Or.inr (Or.inl (append_ne_nil_of_right_ne_nil _ nofun)), stands.dotdot, ?_⟩
        · rw [turn, here, if_pos rfl]
        · exact (Nat.add_right_comm ..).trans stands.size
      have ⟨elem, tail, whole, clean, ends, split⟩ := first_elem rest slash
      rw [whole] at stands go noNull ⊢
      have each : ∀ d ∈ elem, ¬ IsSep d := by
        rintro d member (rfl | rfl)
        · exact clean.2 member
        · exact noNull (mem_append_left _ member)
      have shorter : tail.length < (elem ++ tail).length := by
        have positive := length_pos_iff.2 clean.1
        rw [length_append]
        omega
      refine @go tail [elem] shorter (fun d member => mem_append_right _ member) split ?_
      rw [foldl_cons, foldl_nil]
      by_cases isDot : elem = str "."
      · subst isDot
        have second := stands.holds.char 1
        have here : s.char s.p = 46 := stands.holds.char 0
        have stops : s.char (s.p + 1) = tail.getD 0 0 :=
          second.trans (by cases tail <;> rfl)
        refine ⟨_, junk ++ [46], ?_, stands.names, stands.holds.skip, Or.inr (Or.inr ends),
          stands.dotdot, (Nat.add_right_comm ..).trans stands.size⟩
        rw [turn, here, stops, if_neg (by decide), if_pos ⟨rfl, ends⟩]
      · by_cases isDotdot : elem = str ".."
        · subst isDotdot
          exact turn_dotdot isRoot ends stands
        · rw [lead, if_neg isDot, if_neg isDotdot]
          exact turn_name ⟨clean.1, clean.2, isDot, isDotdot⟩ each ends stands

end Cursors

/-! ### The result -/

/-- The code leaves the normal form in the array, and no write of it is ahead of what is read. -/
theorem cleanname_eq {name : Str} (nonempty : name ≠ []) (noNull : 0 ∉ name) :
    ∃ rest, cleanname name = some (normal name ++ 0 :: rest) ∧
      (normal name).length + rest.length = name.length := by
  have ⟨root, rest, whole, isRoot, same, split, rooted⟩ : ∃ root rest, name = root ++ rest ∧
      (root = [] ∨ root = [47]) ∧ rootOf name = root ∧ segments name = segments rest ∧
      (if name.head? = some 47 then 1 else 0) = root.length := by
    by_cases slash : name.head? = some 47
    · have ⟨rest, whole⟩ := head?_eq_some_iff.1 slash
      exact ⟨[47], rest, whole, Or.inr rfl, if_pos slash,
        (congrArg segments whole).trans (segments_slash [] rest), if_pos slash⟩
    · exact ⟨[], name, rfl, Or.inl rfl, if_neg slash, rfl, if_neg slash⟩
  have length : name.length = root.length + rest.length := by rw [whole, length_append]
  have bare : text root (elems root (0, [])) = root := by
    unfold elems
    split <;> rfl
  have ⟨_, left, run, stands⟩ := @turns_eq name.length root isRoot (name.length + 1)
    ⟨name ++ [0], root.length, root.length, root.length⟩ (0, []) [] rest
    (fun null => noNull (whole ▸ mem_append_right _ null)) (by omega)
    ⟨nofun, ⟨by rw [bare, whole, append_assoc]; rfl, by rw [bare]; rfl, by rw [bare]⟩,
      Or.inl bare, by rw [bare], length.symm⟩
  have holds := stands.holds
  have size := stands.size
  have text_ : text root (elems root ((segments rest).foldl lead (0, []))) = cleaned name := by
    rw [cleaned, same, split]
    rfl
  rw [text_] at holds
  rw [length_nil, Nat.add_zero, holds.p] at size
  have ends {u : Cursor} {out junk : Str} (holds : Holds u out junk [0])
      (size : out.length + junk.length = name.length) :
      ∃ rest, (u.put 0).map Cursor.buf = some (out ++ 0 :: rest) ∧
        out.length + rest.length = name.length := by
    have ⟨v, more, _, put, _, _, same, later, _⟩ := holds.copied
    refine ⟨more, ?_, by rw [same, size]⟩
    have buf : v.buf = _ := later.buf
    rw [put, map_some, buf, append_nil, append_assoc]
    rfl
  unfold cleanname normal
  simp only [rooted, run, bind_some, holds.q]
  by_cases empty : cleaned name = []
  · rw [empty] at holds size ⊢
    match left, size with
    | [], size => exact absurd (length_eq_zero_iff.1 size.symm) nonempty
    | j :: left, size =>
      have ⟨_, put, later, _, _⟩ := holds.put 46
      rw [if_pos length_nil, if_pos rfl, put]
      refine ends later ?_
      rw [← size]
      exact (Nat.add_comm ..).trans (Nat.zero_add _).symm
  · rw [if_neg fun zero => empty (length_eq_zero_iff.1 zero), if_neg empty]
    exact ends holds size

theorem isRoot_rootOf (name : Str) : rootOf name = [] ∨ rootOf name = [47] := by
  unfold rootOf
  split
  · exact Or.inr rfl
  · exact Or.inl rfl

theorem rootOf_normal (name : Str) : rootOf (normal name) = rootOf name := by
  have root : rootOf (cleaned name) = rootOf name :=
    rootOf_text (elems_isElem _ (leads_names name)) (isRoot_rootOf name)
  unfold normal
  split
  · rename_i empty
    rw [empty] at root
    exact root
  · exact root

theorem text_noNull {root : Str} {elems : List Str} (rootClean : 0 ∉ root)
    (each : ∀ c ∈ elems, 0 ∉ c) : 0 ∉ text root elems := by
  induction elems using List.reverseRecOn with
  | nil => exact rootClean
  | append_singleton _ last ih =>
    have before := ih fun c member => each c (mem_append_left _ member)
    have behind := each last (by simp)
    rw [text_concat]
    split <;> simp [before, behind]

theorem normal_noNull {name : Str} (noNull : 0 ∉ name) : 0 ∉ normal name := by
  have names : ∀ c ∈ (leads (segments name)).2, 0 ∉ c := lead_forall
    (fun c member _ _ null => noNull ((tokens_sublist member).subset null)) nofun
  have each : ∀ c ∈ elems (rootOf name) (leads (segments name)), 0 ∉ c := by
    intro c member
    rcases mem_append.1 member with up | down
    · split at up
      · rw [(mem_replicate.1 up).2]
        decide
      · exact nomatch up
    · exact names c down
  have root : 0 ∉ rootOf name := by
    unfold rootOf
    split <;> decide
  have clean : 0 ∉ cleaned name := text_noNull root each
  unfold normal
  split
  · decide
  · exact clean

theorem cstring_append {front : Str} (clean : 0 ∉ front) (rest : Str) :
    cstring (front ++ 0 :: rest) = front :=
  takeWhile_append_stop (fun _ member => decide_eq_true fun same => clean (same ▸ member)) rfl

theorem cleancname_device {s : Str} (noNull : 0 ∉ s) (device : s.head? = some 35) :
    ∃ behind, cleancname s = some (s.takeWhile (· ≠ 47) ++ behind) ∧
      (behind = [] ∨ behind.head? = some 47) := by
  have whole : s = s.takeWhile (· ≠ 47) ++ s.dropWhile (· ≠ 47) := takeWhile_append_dropWhile.symm
  rw [cleancname, if_pos device]
  cases found : s.dropWhile (· ≠ 47) with
  | nil =>
    rw [found, append_nil] at whole
    exact ⟨[], by rw [append_nil, ← whole], Or.inl rfl⟩
  | cons c rest =>
    rw [found] at whole
    have clean : 0 ∉ c :: rest := fun null => noNull (whole ▸ mem_append_right _ null)
    have stops := head?_dropWhile_not (fun d : Nat => decide (d ≠ 47)) s
    rw [found] at stops
    have slash : c = 47 := not_not.1 (of_decide_eq_false stops)
    subst slash
    have root := rootOf_normal (47 :: rest)
    have ⟨_, cleaned, _⟩ := cleanname_eq (cons_ne_nil 47 rest) clean
    simp only [cleaned, map_some, cstring_append (normal_noNull clean)]
    split
    · exact ⟨_, rfl, Or.inl rfl⟩
    · refine ⟨_, rfl, Or.inr ?_⟩
      by_contra other
      exact absurd ((if_neg other).symm.trans root) nofun

/-- A name is cleaned to its normal form, the only one of its elements, and no further; and the name
of a device keeps the element of the device. -/
theorem cleanname_cleans (name : Str) (nonempty : name ≠ []) (noNull : 0 ∉ name) :
    (∃ rest, cleanname name = some (normal name ++ 0 :: rest) ∧
      (normal name).length + rest.length = name.length) ∧
    Normal (normal name) ∧
    (∀ t, Normal t → rootOf t = rootOf name → elems (rootOf t) (leads (segments t)) =
      elems (rootOf name) (leads (segments name)) → t = normal name) ∧
    (∃ rest, cleanname (normal name) = some (normal name ++ 0 :: rest)) ∧
    (name.head? ≠ some 35 → cleancname name = some (normal name)) ∧
    (name.head? = some 35 → ∃ behind,
      cleancname name = some (name.takeWhile (· ≠ 47) ++ behind) ∧
        (behind = [] ∨ behind.head? = some 47)) := by
  have isNormal := normal_isNormal name
  have fixed := normal_of_normal isNormal
  have ⟨rest, cleaned_, length⟩ := cleanname_eq nonempty noNull
  refine ⟨⟨rest, cleaned_, length⟩, isNormal, fun t isNormal' root place => ?_, ?_, fun other => ?_,
    cleancname_device noNull⟩
  · rw [← normal_of_normal isNormal', normal, normal, cleaned, cleaned, place, root]
  · have some' : normal name ≠ [] := by
      intro empty
      rw [empty] at fixed
      exact absurd fixed (by decide)
    have ⟨rest, again, _⟩ := cleanname_eq some' (normal_noNull noNull)
    rw [fixed] at again
    exact ⟨rest, again⟩
  · rw [cleancname, if_neg other, cleaned_, Option.map_some, cstring_append (normal_noNull noNull)]

theorem cleanname_cleans_dots :
    ∃ rest, cleanname (str "a/./../../b//c") = some (str "../b/c" ++ 0 :: rest) :=
  have ⟨rest, cleaned, _⟩ := (cleanname_cleans (str "a/./../../b//c") nofun (by decide)).1
  ⟨rest, cleaned.trans (congrArg (fun s => some (s ++ 0 :: rest)) (by decide +kernel))⟩

/-! ### The name of a channel -/

/-- The string of `addelem`, with one slash between the name and the element. -/
def addelem (n s : Str) : Option Str :=
  if s = str "." then some n
  else
    let n := (if n ≠ [] ∧ n.getLast? ≠ some 47 ∧ s.head? ≠ some 47 then n ++ [47] else n) ++ s
    if s = str ".." then cleancname n else some n

theorem addelem_joined {names : List Str} {s : Str} (each : ∀ c ∈ names, IsElem c)
    (isElem : IsElem s) : (if text [47] names ≠ [] ∧ (text [47] names).getLast? ≠ some 47 ∧
      s.head? ≠ some 47 then text [47] names ++ [47] else text [47] names) ++ s =
        text [47] (names ++ [s]) := by
  rw [text_concat]
  by_cases bare : names = []
  · rw [bare]
    rfl
  have some' : text [47] names ≠ [47] := fun same => bare ((text_eq_root each).1 same)
  obtain ⟨front, last, rfl⟩ := (eq_nil_or_concat' names).resolve_left bare
  have ⟨nonempty, clean⟩ := each last (by simp)
  have final {front : Str} : (front ++ last).getLast? ≠ some 47 := by
    rw [getLast?_append_of_ne_nil _ nonempty]
    exact fun same => clean (mem_of_getLast? same)
  have ends : text [47] (front ++ [last]) ≠ [] ∧ (text [47] (front ++ [last])).getLast? ≠ some 47 ∧
      s.head? ≠ some 47 := by
    refine ⟨?_, ?_, fun same => isElem.2 (mem_of_mem_head? same)⟩
    · rw [text_concat]
      split <;> simp [nonempty]
    · rw [text_concat]
      split
      · exact final
      · rw [append_cons]
        exact final
  rw [if_pos ends, if_neg some', append_assoc]
  rfl

/-- At a `..` the last element takes the one before it away, and at the root it is dropped. -/
theorem cleancname_dotdot {names : List Str} (proper : ∀ c ∈ names, IsName c ∧ 0 ∉ c) :
    cleancname (text [47] (names ++ [str ".."])) = some (text [47] names.dropLast) := by
  have areNames : ∀ c ∈ names, IsName c := fun c member => (proper c member).1
  have each : ∀ c ∈ names ++ [str ".."], IsElem c := by
    intro c member
    rcases mem_append.1 member with old | new
    · exact isElem_of_isName (areNames c old)
    · rw [mem_singleton.1 new]
      exact dotdot_isElem
  have clean : 0 ∉ text [47] (names ++ [str ".."]) := by
    refine text_noNull (by decide) fun c member => ?_
    rcases mem_append.1 member with old | new
    · exact (proper c old).2
    · rw [mem_singleton.1 new]
      decide
  have root := rootOf_text each (Or.inr rfl)
  have rooted : (text [47] (names ++ [str ".."])).head? = some 47 := by
    by_contra other
    rw [rootOf, if_neg other] at root
    exact nomatch root
  have nonempty : text [47] (names ++ [str ".."]) ≠ [] := fun empty => by
    rw [empty] at rooted
    exact nomatch rooted
  have down : elems [47] (leads (names ++ [str ".."])) = names.dropLast := by
    have before : names.foldl lead (0, []) = (0, names) := @leads_elems [47] (0, names) areNames
    rw [leads, foldl_concat, before]
    unfold lead elems
    rw [if_neg (by decide), if_pos rfl, if_neg (by decide)]
    split
    · rename_i empty
      rw [show names = [] from empty]
      rfl
    · rfl
  have result : normal (text [47] (names ++ [str ".."])) = text [47] names.dropLast := by
    have is : cleaned (text [47] (names ++ [str ".."])) = text [47] names.dropLast := by
      rw [cleaned, root, segments_text each (Or.inr rfl), down]
    have some' : text [47] names.dropLast ≠ [] := by
      intro empty
      have root := @rootOf_text [47] names.dropLast
        (fun c member => isElem_of_isName (areNames c (dropLast_subset _ member))) (Or.inr rfl)
      rw [empty] at root
      exact nomatch root
    rw [normal, is, if_neg some']
  have ⟨_, cleaned_, _⟩ := cleanname_eq nonempty clean
  rw [cleancname, if_neg (by rw [rooted]; decide), cleaned_, map_some,
    cstring_append (normal_noNull clean), result]

/-- The name of a channel below the root is at every element, with `..` cleaned away at once, the
clean name of where the elements lead. -/
theorem addelems_lead {names : List Str} (proper : ∀ c ∈ names, IsName c ∧ 0 ∉ c)
    {elements : List Str} (each : ∀ c ∈ elements, IsElem c ∧ 0 ∉ c) :
    elements.foldlM addelem (text [47] names) = some (text [47] (elements.foldl follow names)) ∧
      Normal (text [47] (elements.foldl follow names)) := by
  induction elements generalizing names with
  | nil => exact ⟨rfl, Or.inr ⟨0, names, fun c member => (proper c member).1, Or.inl rfl⟩⟩
  | cons s elements ih =>
    have ⟨⟨isElem, noNull⟩, later⟩ := forall_mem_cons.1 each
    have joined := addelem_joined (fun c member => isElem_of_isName (proper c member).1) isElem
    have first : addelem (text [47] names) s = some (text [47] (follow names s)) := by
      unfold addelem follow
      split
      · rfl
      simp only [joined]
      split
      · rename_i up
        rw [up]
        exact cleancname_dotdot proper
      · rfl
    have proper' : ∀ c ∈ follow names s, IsName c ∧ 0 ∉ c := by
      unfold follow
      split
      · exact proper
      split
      · exact fun c member => proper c (dropLast_subset _ member)
      rename_i notDot notDotdot
      intro c member
      rcases mem_append.1 member with old | new
      · exact proper c old
      · rw [mem_singleton.1 new]
        exact ⟨⟨isElem.1, isElem.2, notDot, notDotdot⟩, noNull⟩
    rw [foldlM_cons, first]
    exact ih proper' later

theorem addelems_lead_up : [str "c", str "..", str ".."].foldlM addelem (text [47] [str "a"]) =
      some (text [47] ([str "c", str "..", str ".."].foldl follow [str "a"])) ∧
    Normal (text [47] ([str "c", str "..", str ".."].foldl follow [str "a"])) :=
  addelems_lead (by decide) (by unfold IsElem; decide)

end Infernode.Cleanname
