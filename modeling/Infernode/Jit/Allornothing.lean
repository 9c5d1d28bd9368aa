import Infernode.Jit.Stops

/-!
All or nothing.

Owns: what a compilation is to leave of a module and what it is to make of it, the modules that the
loader takes, and the condition under which a compilation is as it should be.
-/

namespace Infernode.Jit

open Program Runs Text List

/-! ### What should be -/

/-- The module is as it was. The pcs in the compiled code are not part of it. -/
structure Unchanged (m t : Module) : Prop where
  data : t.data = m.data
  htab : t.htab = m.htab
  links : t.links = m.links
  entry : t.entry = m.entry
  prog : t.prog = m.prog
  compiled : t.compiled = m.compiled

namespace Compilation

variable (c : Compilation)

/-- Every pc of the module has been replaced by that of the code, once. -/
structure Relocated (m t : Module) : Prop where
  words : Words c.address c.text m.data c.text t.data
  htab : List.Forall₂ (fun h h' => c.patchex h = some h') m.htab t.htab
  links : List.Forall₂ (fun pc pc' => c.linkpc pc = some pc') m.links t.links
  entry : c.entrypc m.entry = some t.entry
  saved : Saved c.address c.text m.saved t.saved
  prog : t.prog = .code c.base
  compiled : t.compiled = true

def AllOrNothing (m : Module) : Prop :=
  Ends c.compile m (fun ok t => if ok = true then c.Relocated m t else Unchanged m t)
    fun _ t => Unchanged m t

/-- The pcs of the module are those of instructions, the code is at an address above them, and the
compilation fails at a point that it has, if it does. -/
structure Valid (m : Module) : Prop where
  known : Known c.address c.text m.data
  linkable : c.Linkable m.links
  handlers : ∀ h ∈ m.htab, ∃ h', c.patchex h = some h'
  entry : ∃ pc, c.entrypc m.entry = some pc
  base : (c.text.length : Int) < c.base
  within : ∀ point, c.fails = some point → c.Has m.links.length point

/-- Where the compilation fails, it has not done anything to the module: the counts of the tables
that it has come to were marked already, in the second pass it has come to no table but tables of
no jumps, and to no links but those of the data. -/
def Early (m : Module) : Prop := ∀ point, c.fails = some point →
  (∀ instr ∈ c.text.take (c.cut m.links.length point).marked, ∀ t, instr.table = some t →
    wrap (m.data t.count) < 0) ∧
  (∀ instr ∈ c.text.take (c.cut m.links.length point).relocated, instr.table = none ∧
    ∀ d, instr = .goto d → m.data (d - 1) = 0) ∧
  ∀ pc ∈ m.links.take (c.cut m.links.length point).linked, pc = .inst (-1)

end Compilation

/-! ### Nothing done -/

section Idle

variable {c : Compilation} {m s t : Module}

theorem marks_eq_self {text : List Inst} {data : Int → Int}
    (old : ∀ instr ∈ text, ∀ t, instr.table = some t → wrap (data t.count) < 0) :
    marks text data = data := by
  funext w
  by_cases any : ∃ instr ∈ text, ∃ t, instr.table = some t ∧ t.count = w
  · rw [(marks_spec text data w).1 any]
    obtain ⟨instr, member, t, is, rfl⟩ := any
    have below := old instr member t is
    exact if_neg (by omega)
  · exact (marks_spec text data w).2 fun instr member t is same => any ⟨instr, member, t, is, same⟩

theorem run_idle {look : Int → Option Int} {text : List Inst}
    (saves : ∀ instr ∈ text, ∀ imm, instr.saves = some imm → ∃ address, look imm = some address)
    (idle : ∀ instr ∈ text, instr.table = none ∧ ∀ d, instr = .goto d → m.data (d - 1) = 0) :
    ∃ s, run (Inst.reloc look) m text = some s ∧ s.data = m.data := by
  have taken (done : List Inst) (instr : Inst) (rest : List Inst) (s : Module)
      (parts : text = done ++ instr :: rest) (same : s.data = m.data) :
      ∃ after, instr.reloc look s = some after ∧ after.data = m.data := by
    have member : instr ∈ text := by
      rw [parts]
      simp
    have here := idle instr member
    cases instr with
    | case _ => cases here.1
    | casel _ => cases here.1
    | goto d =>
      have none := here.2 d rfl
      have kept : setword m.data (d - 1) 0 = m.data := by
        funext w
        unfold setword
        split_ifs with at_
        · rw [at_, none]
        · rfl
      refine ⟨s, ?_, same⟩
      show (comgoto look d s.data).map _ = _
      unfold comgoto
      rw [same, none, kept, ← same]
      rfl
    | movpc imm =>
      have ⟨address, found⟩ := saves _ member imm rfl
      refine ⟨{ s with saved := s.saved ++ [address] }, ?_, same⟩
      show (look imm).map _ = _
      rw [found]
      rfl
    | other => exact ⟨s, rfl, same⟩
  exact @run_history _ _ _ (fun _ s => s.data = m.data) text taken m rfl

theorem withlinks_eq_self {n : Nat} (data : ∀ pc ∈ m.links.take n, pc = .inst (-1)) :
    c.withlinks m n = m := by
  have same : (m.links.take n).map c.linked = m.links.take n := by
    have each : (m.links.take n).map c.linked = (m.links.take n).map id := by
      apply map_congr_left
      intro pc member
      rw [data pc member]
      rfl
    rw [each, map_id]
  unfold Compilation.withlinks
  rw [same, take_append_drop]

theorem unchanged_of_left {cut : Cut} (left : c.Left cut m t) (data : t.data = m.data)
    (links : t.links = m.links) : Unchanged m t := by
  obtain ⟨s, reached, rfl⟩ := left
  have kept := Compilation.run_kept reached
  refine ⟨data, ?_, links, ?_, ?_, ?_⟩
  · show s.htab = m.htab
    rw [kept]
    rfl
  · show s.entry = m.entry
    rw [kept]
    rfl
  · show s.prog = m.prog
    rw [kept]
    rfl
  · show s.compiled = m.compiled
    rw [kept]
    rfl

end Idle

/-! ### Failures -/

section Failures

variable {c : Compilation} {m t : Module} {point : Point}

theorem known_take (known : Known c.address c.text m.data) (n : Nat) :
    Known c.address (c.text.take n) m.data :=
  fun instr member => known instr (mem_of_mem_take member)

theorem apart_take (apart : Apart c.text m.data) (n : Nat) : Apart (c.text.take n) m.data :=
  fun a memberA b memberB =>
    apart a (mem_of_mem_take memberA) b (mem_of_mem_take memberB)

theorem cut_parts (within : c.Has m.links.length point) :
    ∃ rest, c.text.take (c.cut m.links.length point).marked =
      c.text.take (c.cut m.links.length point).relocated ++ rest := by
  have whole (n : Nat) : ∃ rest, c.text.take c.text.length = c.text.take n ++ rest := by
    refine ⟨c.text.drop n, ?_⟩
    rw [take_length, take_append_drop]
  cases point with
  | before pass i =>
    cases pass with
    | zero => exact ⟨_, rfl⟩
    | one => exact whole i
  | behind pass i =>
    cases pass with
    | zero => exact ⟨_, rfl⟩
    | one => exact whole (i + 1)
  | macros pass =>
    cases pass with
    | zero => exact ⟨_, rfl⟩
    | one => exact whole _
  | phase i => exact whole (i + 1)
  | frame _ => exact whole _
  | types => exact whole _
  | nojit => exact ⟨_, rfl⟩
  | memory => exact ⟨_, rfl⟩
  | preamble => exact ⟨_, rfl⟩
  | code => exact ⟨_, rfl⟩

/-- Nothing has been done where the compilation fails early. -/
theorem unchanged_of_early (valid : c.Valid m) (early : c.Early m) (here : c.fails = some point) :
    ∃ t, (c.compile m = .ok false t ∨ ∃ e, c.compile m = .raised e t) ∧ Unchanged m t := by
  have ⟨old, idle, links⟩ := early point here
  have same : c.withmarks m (c.cut m.links.length point).marked = m := by
    unfold Compilation.withmarks
    rw [marks_eq_self old]
  have ⟨s, reached, data⟩ := @run_idle m c.address
    (c.text.take (c.cut m.links.length point).relocated)
    (fun instr member => (known_take valid.known _ instr member).2) idle
  have ⟨t, ends, left⟩ := Compilation.compile_stops here (valid.within point here) valid.linkable
    ⟨s, by rw [same]; exact reached⟩
  refine ⟨t, ends, unchanged_of_left left ?_ ?_⟩
  · obtain ⟨s', reached', rfl⟩ := left
    rw [same] at reached'
    cases reached.symm.trans reached'
    exact data
  obtain ⟨s', reached', rfl⟩ := left
  have sameLinks := Compilation.links_of_run reached'
  have data' : ∀ pc ∈ s'.links.take (c.cut m.links.length point).linked, pc = .inst (-1) := by
    rw [sameLinks]
    exact links
  rw [withlinks_eq_self data', sameLinks]

theorem address_above (valid : c.Valid m) {x a : Int} (found : c.address x = some a) : a ≠ x := by
  unfold Compilation.address Compilation.offset at found
  by_cases inside : 0 ≤ x ∧ x ≤ c.text.length
  · rw [if_pos inside] at found
    cases found
    have base := valid.base
    have nonneg : 0 ≤ c.patch x.toNat := Int.natCast_nonneg _
    show c.base + c.patch x.toNat ≠ x
    omega
  · rw [if_neg inside] at found
    cases found

/-- A table whose words are as they were has not been relocated. -/
theorem idle_of_words {text done : List Inst} (valid : c.Valid m)
    (words : Words c.address text m.data done m.data) : ∀ instr ∈ done, instr.table = none ∧
      ∀ d, instr = .goto d → m.data (d - 1) = 0 := by
  intro instr member
  constructor
  · cases is : instr.table with
    | none => rfl
    | some table =>
      have default : table.first +
          table.stride * ((number (m.data table.count)).toNat : Int) ∈ instr.pcs m.data := by
        cases instr with
        | case _ =>
          cases is
          exact Table.mem_pcs.2 (Or.inr rfl)
        | casel _ =>
          cases is
          exact Table.mem_pcs.2 (Or.inr rfl)
        | goto _ => cases is
        | movpc _ => cases is
        | other => cases is
      exact absurd rfl (address_above valid (words.pcs instr member _ default))
  · rintro d rfl
    exact words.gotos d member

/-- Where the tables are apart, only an early failure leaves the module. -/
theorem early_of_unchanged (valid : c.Valid m) (apart : Apart c.text m.data)
    (right : c.AllOrNothing m) : c.Early m := by
  intro point here
  have ⟨_, parts⟩ := cut_parts (valid.within point here)
  generalize isCut : c.cut m.links.length point = cut at parts
  have ⟨s, reached, relocs⟩ := @relocs_run c.address (c.text.take cut.marked) m.data
    (c.withmarks m cut.marked) (apart_take apart _) (known_take valid.known _) rfl _ _ parts
  have ⟨t, ends, left⟩ := Compilation.compile_stops here (valid.within point here) valid.linkable
    ⟨s, by rw [isCut]; exact reached⟩
  rw [isCut] at left
  have unchanged : Unchanged m t := by
    unfold Compilation.AllOrNothing Ends at right
    rcases ends with returned | ⟨e, raised⟩
    · rw [returned] at right
      exact right
    · rw [raised] at right
      exact right
  obtain ⟨_, reached', rfl⟩ := left
  cases reached.symm.trans reached'
  have data : s.data = m.data := unchanged.data
  have words := relocs.words
  rw [data] at words
  have idle := idle_of_words valid words
  refine ⟨?_, idle, ?_⟩
  · intro instr member table is
    by_contra fresh
    have count := Inst.count_of_table is
    have kept : m.data table.count = marks (c.text.take cut.marked) m.data table.count := by
      apply words.rest
      intro instr' member' word
      by_cases same : instr' = instr
      · have none := (idle instr' member').1
        rw [same, is] at none
        cases none
      · exact apart instr' (mem_of_mem_take member') instr (mem_of_mem_take member) same
          _ word (Inst.count_mem_words count m.data)
    rw [(marks_spec _ _ _).1 ⟨instr, member, table, is, rfl⟩] at kept
    exact marked_ne (by omega) kept.symm
  · have links : (c.withlinks s cut.linked).links = m.links := unchanged.links
    have same : s.links = m.links := Compilation.links_of_run reached
    intro pc member
    have ⟨i, is⟩ := mem_iff_getElem?.1 member
    rw [getElem?_take] at is
    split_ifs at is with inside
    have at_ : (c.withlinks s cut.linked).links[i]? = some (c.linked pc) := by
      unfold Compilation.withlinks
      simp only
      have within : i < ((s.links.take cut.linked).map c.linked).length := by
        rw [length_map, length_take, same]
        have length := (List.getElem?_eq_some_iff.1 is).1
        omega
      rw [getElem?_append_left within, getElem?_map, getElem?_take, if_pos inside,
        same, is]
      rfl
    rw [links, is] at at_
    have fixed := Option.some.inj at_
    have ⟨_, linked⟩ := valid.linkable pc (mem_of_getElem? is)
    unfold Compilation.linked at fixed
    rw [linked] at fixed
    cases pc with
    | code _ => cases linked
    | inst x =>
      by_cases minus : x = -1
      · rw [minus]
      have code : c.linkpc (.inst x) = (c.address x).map .code := if_neg minus
      rw [code] at linked
      obtain ⟨_, -, rfl⟩ := Option.map_eq_some_iff.1 linked
      cases fixed

end Failures

/-! ### Success -/

section Success

variable {c : Compilation} {m t : Module}

theorem mapM_all {α β : Type} {f : α → Option β} : ∀ l : List α, (∀ a ∈ l, ∃ b, f a = some b) →
    ∃ l', l.mapM f = some l' ∧ List.Forall₂ (fun a b => f a = some b) l l'
  | [], _ => ⟨[], rfl, List.Forall₂.nil⟩
  | a :: rest, all => by
    have ⟨b, here⟩ := all a (mem_cons_self ..)
    have ⟨l', later, each⟩ :=
      mapM_all rest fun a' member => all a' (mem_cons_of_mem _ member)
    refine ⟨b :: l', ?_, List.Forall₂.cons here each⟩
    rw [mapM_cons, here, later]
    rfl

theorem withlinks_all (linkable : c.Linkable m.links) :
    List.Forall₂ (fun pc pc' => c.linkpc pc = some pc') m.links
      (c.withlinks m m.links.length).links := by
  have same : (c.withlinks m m.links.length).links = m.links.map c.linked := by
    unfold Compilation.withlinks
    simp only
    rw [take_length, drop_length, append_nil]
  rw [same, forall₂_map_right_iff, forall₂_same]
  intro pc member
  have ⟨_, linked⟩ := linkable pc member
  unfold Compilation.linked
  rw [linked]
  rfl

/-- A compilation that does not fail relocates everything once. -/
theorem relocated_of_apart (valid : c.Valid m) (apart : Apart c.text m.data)
    (none : c.fails = none) : ∃ t, c.compile m = .ok true t ∧ c.Relocated m t := by
  have parts : c.text = c.text ++ [] := (append_nil _).symm
  have whole : (c.withmarks m c.text.length).data = marks c.text m.data := by
    unfold Compilation.withmarks
    rw [take_length]
  have ⟨s, reached, relocs⟩ := relocs_run apart valid.known whole parts
  have kept := Compilation.run_kept reached
  have links := Compilation.links_of_run reached
  have linkable := valid.linkable
  rw [← links] at linkable
  have ⟨htab, patched, handlers⟩ := mapM_all m.htab valid.handlers
  have ⟨entry, entered⟩ := valid.entry
  have linked := withlinks_all linkable
  have finished : c.finish (c.withlinks s m.links.length) =
      some { c.withlinks s m.links.length with
        htab := htab, entry := entry, prog := .code c.base, compiled := true } := by
    have sameHtab : (c.withlinks s m.links.length).htab = m.htab := by
      show s.htab = m.htab
      rw [kept]
      rfl
    have sameEntry : (c.withlinks s m.links.length).entry = m.entry := by
      show s.entry = m.entry
      rw [kept]
      rfl
    unfold Compilation.finish
    rw [sameHtab, sameEntry, patched, entered]
    rfl
  refine ⟨_, Compilation.compile_returns none valid.linkable reached finished, ?_⟩
  refine ⟨relocs.words, handlers, ?_, entered, relocs.saved, rfl, rfl⟩
  rw [links] at linked
  exact linked

/-- A compilation is all or nothing where it fails before it has come to anything of the module
that is to be changed, and where its tables are apart if it does not fail. Where the tables are
apart, it is in no other case. -/
theorem allOrNothing_iff (valid : c.Valid m) :
    (c.Early m ∧ (c.fails = none → Apart c.text m.data) → c.AllOrNothing m) ∧
      (Apart c.text m.data → c.AllOrNothing m → c.Early m) := by
  refine ⟨?_, early_of_unchanged valid⟩
  rintro ⟨early, apart⟩
  unfold Compilation.AllOrNothing Ends
  cases here : c.fails with
  | none =>
    have ⟨t, returned, relocated⟩ := relocated_of_apart valid (apart here) here
    rw [returned]
    exact relocated
  | some _ =>
    have ⟨_, ends, unchanged⟩ := unchanged_of_early valid early here
    rcases ends with returned | ⟨e, raised⟩
    · rw [returned]
      exact unchanged
    · rw [raised]
      exact unchanged

end Success

/-- A program of a case that has only a default. -/
def onecase (fails : Option Point) : Compilation := ⟨[.case 0], fun _ => 16, 4096, fails⟩

def onecasemodule : Module := ⟨fun _ => 0, [], [.inst 0], .inst 0, .inst 0, false, []⟩

theorem valid_onecase {fails : Option Point}
    (within : ∀ point, fails = some point → (onecase fails).Has 1 point) :
    (onecase fails).Valid onecasemodule where
  known := by
    intro _ member
    rw [mem_singleton.1 member]
    refine ⟨fun w _ => ⟨4096, rfl⟩, nofun⟩
  linkable := by
    intro _ member
    rw [mem_singleton.1 member]
    exact ⟨.code 4096, rfl⟩
  handlers := nofun
  entry := ⟨.code 4096, rfl⟩
  base := show (1 : Int) < 4096 by decide
  within := within

/-- A compilation that does not fail, and one that fails before the first instruction. -/
theorem onecase_right : (onecase none).AllOrNothing onecasemodule ∧
    (onecase (some (.before .zero 0))).AllOrNothing onecasemodule := by
  have apart (fails : Option Point) : Apart (onecase fails).text onecasemodule.data := by
    intro _ memberA _ memberB other
    rw [List.mem_singleton.1 memberA, List.mem_singleton.1 memberB] at other
    exact absurd rfl other
  constructor
  · have never (p : Point → Prop) : ∀ point, (onecase none).fails = some point → p point := nofun
    exact (allOrNothing_iff (valid_onecase (never _))).1 ⟨never _, fun _ => apart none⟩
  have within : ∀ point, some (Point.before .zero 0) = some point →
      (onecase (some (.before .zero 0))).Has 1 point := by
    rintro point ⟨⟩
    exact Nat.one_pos
  apply (allOrNothing_iff (valid_onecase within)).1
  refine ⟨?_, fun _ => apart _⟩
  rintro point ⟨⟩
  exact ⟨nofun, nofun, nofun⟩

/-- Without memory for the code the count stays marked; without memory for the code of a type the
table and the link stay relocated. -/
theorem onecase_wrong :
    (∃ t, (onecase (some .code)).compile onecasemodule = .ok false t ∧
      t.data 0 = -1 ∧ onecasemodule.data 0 = 0) ∧
    ¬ (onecase (some .code)).AllOrNothing onecasemodule ∧
    (∃ t, (onecase (some (.frame 0))).compile onecasemodule = .raised .exNomem t ∧
      t.data 1 = 4096 ∧ onecasemodule.data 1 = 0 ∧ t.links = [.code 4096]) ∧
    ¬ (onecase (some (.frame 0))).AllOrNothing onecasemodule := by
  have marked : (onecase (some .code)).compile onecasemodule =
      .ok false { onecasemodule with data := setword onecasemodule.data 0 (-1) } := rfl
  obtain ⟨t, raised, pc, link⟩ : ∃ t, (onecase (some (.frame 0))).compile onecasemodule =
      .raised .exNomem t ∧ t.data 1 = 4096 ∧ t.links = [.code 4096] := ⟨_, rfl, rfl, rfl⟩
  refine ⟨⟨_, marked, rfl, rfl⟩, ?_, ⟨t, raised, pc, rfl, link⟩, ?_⟩
  · intro right
    unfold Compilation.AllOrNothing Ends at right
    rw [marked] at right
    have same : setword onecasemodule.data 0 (-1) 0 = onecasemodule.data 0 :=
      congrFun right.data 0
    cases same
  · intro right
    unfold Compilation.AllOrNothing Ends at right
    rw [raised] at right
    have same : t.data 1 = onecasemodule.data 1 := congrFun right.data 1
    rw [pc] at same
    cases same

end Infernode.Jit
