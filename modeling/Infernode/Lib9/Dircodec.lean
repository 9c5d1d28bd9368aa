import Infernode.Lib9.Dircheck
import Infernode.Text.Decimal
import Mathlib.Algebra.Order.BigOperators.Group.List

/-!
Directory entries there and back.

Owns: that an entry that is packed is accepted and comes back, and for which entries it does; that
what is accepted is unpacked to its end; and `dirpackage` of `emu/port/sysfile.c`.
-/

namespace Infernode.Stat

open Wire Text List Option

/-! ### What is to hold -/

/-- An entry as it should come back: of the three numbers that a change may leave alone those of
32 ones are the value that says so, and a string that was nil is empty. -/
def Dir.readback (d : Dir) : Dir :=
  { d with
    mode := dontcare d.mode.toNat
    atime := dontcare d.atime.toNat
    mtime := dontcare d.mtime.toNat
    name := some (d.name.getD nullstring)
    uid := some (d.uid.getD nullstring)
    gid := some (d.gid.getD nullstring)
    muid := some (d.muid.getD nullstring) }

/-- What is packed beyond the size is accepted, consumed, and comes back. -/
def Returns (d : Dir) (buf : Bytes) : Prop :=
  ∃ n after, convD2M d buf = some (n, after) ∧
    (BIT16SZ < n → statcheckbuf (after.take n) = some n ∧
      ∀ d', ∃ w, convM2D (after.take n) d' true = some (n, d.readback, w))

/-- Only the bytes in front that are a stat of its size are accepted; these are consumed, with no
look past them, and as many are enough for the strings. -/
def Checked (b : Bytes) : Prop :=
  ∃ r, statcheckbuf b = some r ∧ ∀ n : Nat, 0 < n →
    (r = n ↔ n ≤ b.length ∧ IsStat (b.take n)) ∧
      (r = n → ∀ d strs, ∃ d' w, convM2D (b.take n) d strs = some (n, d', w) ∧ w.length ≤ n)

/-! ### When it does -/

/-- The number has 32 bits, or is the value that leaves it alone. -/
def Narrow (v : UInt64) : Prop := v.toNat < 2 ^ 32 ∨ v = ~~~0

/-- The entry is not packed, or its size fits the count in front and its numbers their fields. -/
def Packable (d : Dir) (buf : Bytes) : Prop :=
  buf.length < BIT16SZ ∨ d.total < 2 ^ 31 ∧
    (buf.length < d.total ∨ d.total - BIT16SZ < 2 ^ 16 ∧ d.qid.vers.toNat < 2 ^ 32 ∧
      Narrow d.mode ∧ Narrow d.atime ∧ Narrow d.mtime)

/-! ### Numbers -/

theorem dontcare_low (v : UInt64) : dontcare (v.toNat % 256 ^ 4) = dontcare v.toNat ↔ Narrow v := by
  have below := v.toNat_lt
  have ones : (~~~0 : UInt64).toNat = 18446744073709551615 := rfl
  unfold Narrow
  by_cases narrow : v.toNat < 2 ^ 32
  · rw [Nat.mod_eq_of_lt (show _ < 256 ^ 4 from narrow)]
    exact iff_of_true rfl (.inl narrow)
  have itself : dontcare v.toNat = v := by
    unfold dontcare
    rw [if_neg (by omega), UInt64.ofNat_toNat]
  rw [itself, or_iff_right narrow]
  unfold dontcare
  constructor
  · intro same
    split at same
    · exact same.symm
    · have number := congrArg UInt64.toNat same
      rw [UInt64.toNat_ofNat'] at number
      omega
  · rintro rfl
    rfl

theorem ofNat_low (v : UInt64) : UInt64.ofNat (v.toNat % 256 ^ 4) = v ↔ v.toNat < 2 ^ 32 := by
  have below := v.toNat_lt
  constructor
  · intro same
    have number := congrArg UInt64.toNat same
    rw [UInt64.toNat_ofNat'] at number
    omega
  · intro narrow
    rw [Nat.mod_eq_of_lt (show _ < 256 ^ 4 from narrow), UInt64.ofNat_toNat]

/-! ### Strings -/

theorem ofMemory_chars (s : CString) : CString.ofMemory s.chars = s := by
  have kept : s.chars.takeWhile (· != 0) = s.chars := by
    rw [takeWhile_eq_self_iff]
    intro _ member
    rw [bne_iff_ne]
    exact fun zero => s.noNul (zero ▸ member)
  unfold CString.ofMemory
  have ⟨_, _⟩ := s
  congr 1

/-- A string comes back, and one that was nil is empty. -/
theorem ofMemory_sv (s : Option CString) :
    CString.ofMemory ((s.map CString.chars).getD []) = s.getD nullstring := by
  cases s with
  | none => exact ofMemory_chars nullstring
  | some s => exact ofMemory_chars s

/-! ### An entry that comes back -/

variable {d : Dir}

theorem fields_eq (d : Dir) : d.fields.flatten =
    fixedOf d.type.toNat d.dev.toNat d.qid.type.toNat d.qid.vers.toNat d.qid.path.toNat d.mode.toNat
      d.atime.toNat d.mtime.toNat d.length.toUInt64.toNat := by
  unfold Dir.fields fixedOf
  simp only [flatten_cons, flatten_nil, append_nil]

theorem length_sv_lt (small : d.total - BIT16SZ < 2 ^ 16) : ∀ t ∈ d.sv, t.length < 256 ^ 2 := by
  intro t member
  have part : t.length ≤ (d.sv.map List.length).sum :=
    le_sum_of_mem (mem_map_of_mem member)
  unfold Dir.total BIT16SZ STATFIXLEN at small
  omega

theorem unpackedOf_entry (d : Dir) :
    unpackedOf d.type.toNat d.dev.toNat d.qid.type.toNat d.qid.vers.toNat d.qid.path.toNat
        d.mode.toNat d.atime.toNat d.mtime.toNat d.length.toUInt64.toNat d.sv true = d.readback ↔
      d.qid.vers.toNat < 2 ^ 32 ∧ Narrow d.mode ∧ Narrow d.atime ∧ Narrow d.mtime := by
  have type : UInt16.ofNat (d.type.toNat % 256 ^ 2) = d.type := by
    rw [Nat.mod_eq_of_lt (show _ < 256 ^ 2 from d.type.toNat_lt), UInt16.ofNat_toNat]
  have dev : UInt32.ofNat (d.dev.toNat % 256 ^ 4) = d.dev := by
    rw [Nat.mod_eq_of_lt (show _ < 256 ^ 4 from d.dev.toNat_lt), UInt32.ofNat_toNat]
  have qtype : UInt8.ofNat (d.qid.type.toNat % 256 ^ 1) = d.qid.type := by
    rw [Nat.mod_eq_of_lt (show _ < 256 ^ 1 from d.qid.type.toNat_lt), UInt8.ofNat_toNat]
  have path : UInt64.ofNat (d.qid.path.toNat % 256 ^ 8) = d.qid.path := by
    rw [Nat.mod_eq_of_lt (show _ < 256 ^ 8 from d.qid.path.toNat_lt), UInt64.ofNat_toNat]
  have length : (UInt64.ofNat (d.length.toUInt64.toNat % 256 ^ 8)).toInt64 = d.length := by
    rw [Nat.mod_eq_of_lt (show _ < 256 ^ 8 from d.length.toUInt64.toNat_lt), UInt64.ofNat_toNat]
    rfl
  have strings (i : Nat) (s : Option CString)
      (is : d.sv.getD i [] = (s.map CString.chars).getD []) :
      CString.ofMemory (d.sv.getD i []) = s.getD nullstring := by
    rw [is, ofMemory_sv]
  unfold unpackedOf Dir.readback
  simp only [if_pos, type, dev, qtype, path, length, strings 0 d.name rfl, strings 1 d.uid rfl,
    strings 2 d.gid rfl, strings 3 d.muid rfl, Dir.mk.injEq, and_true, true_and, dontcare_low]
  rw [← ofNat_low]
  refine and_congr_left fun _ => ?_
  have ⟨_, _, _⟩ := d.qid
  simp only [Qid.mk.injEq, true_and, and_true]

theorem convM2D_entry (small : d.total - BIT16SZ < 2 ^ 16) (d' : Dir) :
    convM2D d.entry d' true =
      some (d.total, unpackedOf d.type.toNat d.dev.toNat d.qid.type.toNat d.qid.vers.toNat
        d.qid.path.toNat d.mode.toNat d.atime.toNat d.mtime.toNat d.length.toUInt64.toNat d.sv true,
        written true d.sv) := by
  unfold Dir.entry
  rw [fields_eq]
  exact convM2D_wire _ _ _ _ _ _ _ _ _ _ rfl (length_sv_lt small) d' true

/-- The loop accepts strings that are there. -/
theorem checkstrings_wstrings (sv : List Bytes) (fits : ∀ t ∈ sv, t.length < 256 ^ 2) :
    checkstrings sv.length (wstrings sv) (wstrings sv).length = some true := by
  induction sv with
  | nil => rfl
  | cons s sv ih =>
    have later := ih (forall_mem_cons.1 fits).2
    rw [wstrings_cons, length_cons, length_append, length_append, length_le]
    unfold checkstrings BIT16SZ
    rw [if_neg (by omega), rd_le 2 _ (fits s (mem_cons_self ..)), bind_eq_bind,
      bind_some]
    dsimp only
    rw [if_neg (by omega), drop_left,
      show 2 + (s.length + (wstrings sv).length) - 2 - s.length = (wstrings sv).length by omega]
    exact later

/-- An entry is accepted exactly when its size fits the count in front. -/
theorem statcheckbuf_entry (d : Dir) :
    statcheckbuf d.entry = some (d.total : Int) ↔ d.total - BIT16SZ < 2 ^ 16 := by
  have least : STATFIXLEN ≤ d.total := Nat.le_add_right _ _
  have read : rd 2 d.entry =
      some ((d.total - BIT16SZ) % 256 ^ 2, d.fields.flatten ++ wstrings d.sv) := rd_le_mod 2 _ _
  unfold statcheckbuf
  unfold STATFIXLEN at least
  rw [length_entry, if_neg (by unfold BIT16SZ; omega), read, bind_eq_bind, bind_some]
  dsimp only
  constructor
  · intro accepted
    by_contra large
    split at accepted
    · cases accepted
    obtain ⟨_, -, result⟩ := bind_eq_some_iff.1 accepted
    rw [Option.some.injEq] at result
    unfold BIT16SZ at result large
    split at result
    · omega
    · omega
  · intro small
    have total : BIT16SZ + (d.total - BIT16SZ) % 256 ^ 2 = d.total := by
      rw [Nat.mod_eq_of_lt (show _ < 256 ^ 2 from small)]
      unfold BIT16SZ
      omega
    rw [total, if_neg (Nat.lt_irrefl _)]
    have strings := checkstrings_wstrings d.sv (length_sv_lt small)
    have rest : d.entry.drop 41 = wstrings d.sv := by
      unfold Dir.entry
      rw [← append_assoc]
      have front : (le 2 (d.total - BIT16SZ) ++ d.fields.flatten).length = 41 := rfl
      rw [← front]
      exact drop_left
    have lengths : d.total - 41 = (wstrings d.sv).length := by
      rw [← length_entry d, ← rest, length_drop]
    have verdict : statcheck d.entry d.total = some 0 := by
      unfold statcheck
      rw [if_neg (by unfold STATFIXLEN; omega), read, bind_eq_bind, bind_some]
      dsimp only
      rw [if_neg (by rw [total]; exact not_not_intro rfl),
        show STATFIXLEN - 4 * BIT16SZ = 41 from rfl, rest, lengths]
      show (checkstrings d.sv.length _ _).bind _ = _
      rw [strings]
      rfl
    rw [verdict]
    rfl

theorem returns_iff (d : Dir) (buf : Bytes) : Returns d buf ↔ Packable d buf := by
  have least : STATFIXLEN ≤ d.total := Nat.le_add_right _ _
  unfold Returns Packable
  by_cases tiny : buf.length < BIT16SZ
  · have none : convD2M d buf = some (0, buf) := if_pos tiny
    refine iff_of_true ⟨0, buf, none, fun more => ?_⟩ (.inl tiny)
    exact absurd more (Nat.not_lt_zero _)
  rw [or_iff_right tiny]
  have room := Nat.not_lt.1 tiny
  by_cases small : d.total < 2 ^ 31
  swap
  · refine iff_of_false ?_ fun packable => small packable.1
    rintro ⟨n, after, packed, -⟩
    rw [convD2M_none room (Nat.not_lt.1 small)] at packed
    cases packed
  rw [and_iff_right small]
  by_cases short : buf.length < d.total
  · have ⟨after, packed⟩ := convD2M_short room small short
    refine iff_of_true ⟨BIT16SZ, after, packed, fun more => ?_⟩ (.inl short)
    exact absurd more (Nat.lt_irrefl _)
  rw [or_iff_right short]
  have packed := convD2M_fits small (Nat.not_lt.1 short)
  have taken : (d.entry ++ buf.drop d.total).take d.total = d.entry := by
    rw [← length_entry d]
    exact take_left
  have more : BIT16SZ < d.total := Nat.lt_of_lt_of_le (by decide) least
  rw [← unpackedOf_entry, ← statcheckbuf_entry]
  constructor
  · rintro ⟨n, after, is, returned⟩
    rw [packed, Option.some.injEq, Prod.mk.injEq] at is
    obtain ⟨rfl, rfl⟩ := is
    have ⟨accepted, unpacked⟩ := returned more
    rw [taken] at accepted unpacked
    have ⟨_, is⟩ := unpacked d
    rw [convM2D_entry ((statcheckbuf_entry d).1 accepted), Option.some.injEq, Prod.mk.injEq,
      Prod.mk.injEq] at is
    exact ⟨accepted, is.2.1⟩
  · rintro ⟨accepted, same⟩
    refine ⟨d.total, _, packed, fun _ => ?_⟩
    rw [taken]
    refine ⟨accepted, fun d' => ⟨written true d.sv, ?_⟩⟩
    rw [convM2D_entry ((statcheckbuf_entry d).1 accepted), same]

/-! ### Bytes that are accepted -/

theorem le_front {r : Bytes} (k : Nat) (bytes : IsBytes r) (enough : k ≤ r.length) :
    ∃ v rest, r = le k v ++ rest ∧ IsBytes rest ∧ rest.length = r.length - k := by
  have ⟨v, read⟩ := exists_rd enough
  obtain ⟨same, -, rest⟩ := le_of_rd bytes read
  exact ⟨v, _, same, rest, length_drop⟩

/-- So many bytes are the numbers of an entry. -/
theorem fixedOf_of_length {fixed : Bytes} (bytes : IsBytes fixed) (length : fixed.length = 39) :
    ∃ type dev qtype vers path mode atime mtime length,
      fixed = fixedOf type dev qtype vers path mode atime mtime length := by
  obtain ⟨type, r, rfl, bytes, left⟩ := le_front 2 bytes (by omega)
  obtain ⟨dev, r, rfl, bytes, left⟩ := le_front 4 bytes (by omega)
  obtain ⟨qtype, r, rfl, bytes, left⟩ := le_front 1 bytes (by omega)
  obtain ⟨vers, r, rfl, bytes, left⟩ := le_front 4 bytes (by omega)
  obtain ⟨path, r, rfl, bytes, left⟩ := le_front 8 bytes (by omega)
  obtain ⟨mode, r, rfl, bytes, left⟩ := le_front 4 bytes (by omega)
  obtain ⟨atime, r, rfl, bytes, left⟩ := le_front 4 bytes (by omega)
  obtain ⟨mtime, r, rfl, bytes, left⟩ := le_front 4 bytes (by omega)
  obtain ⟨size, r, rfl, bytes, _⟩ := le_front 8 bytes (by omega)
  have none : r = [] := eq_nil_of_length_eq_zero (by omega)
  exact ⟨type, dev, qtype, vers, path, mode, atime, mtime, size, by rw [none, append_nil]; rfl⟩

theorem convM2D_stat {s : Bytes} (bytes : IsBytes s) (stat : IsStat s) (d : Dir) (strs : Bool) :
    ∃ d' w, convM2D s d strs = some (s.length, d', w) ∧ w.length ≤ s.length := by
  obtain ⟨fixed, sv, length, four, fits, -, is⟩ := stat
  have fixedBytes : IsBytes fixed := by
    intro b member
    apply bytes b
    rw [is]
    exact mem_append_right _ (mem_append_left _ member)
  have ⟨type, dev, qtype, vers, path, mode, atime, mtime, size, numbers⟩ :=
    fixedOf_of_length fixedBytes length
  have unpacked := convM2D_wire (s.length - BIT16SZ) type dev qtype vers path mode atime mtime size
    four fits d strs
  rw [← numbers, ← is] at unpacked
  have total : s.length = STATFIXLEN + (sv.map List.length).sum := by
    rw [is, length_append, length_append, length_le, length, length_wstrings, four]
    unfold STATFIXLEN
    omega
  refine ⟨_, _, by rw [unpacked, total], ?_⟩
  refine Nat.le_trans (length_written strs sv) ?_
  rw [total, four]
  unfold STATFIXLEN
  omega

theorem checked {b : Bytes} (bytes : IsBytes b) : Checked b := by
  have ⟨r, is, exact⟩ := statcheckbuf_iff bytes
  refine ⟨r, is, fun n positive => ⟨exact n positive, fun same d strs => ?_⟩⟩
  have ⟨inside, stat⟩ := (exact n positive).1 same
  have unpacked := convM2D_stat (bytes.take n) stat d strs
  rw [length_take_of_le inside] at unpacked
  exact unpacked

theorem isBytes_toNat (b : List UInt8) : IsBytes (b.map UInt8.toNat) := by
  intro _ member
  obtain ⟨a, -, rfl⟩ := mem_map.1 member
  exact a.toNat_lt

/-! ### The codec -/

/-- Every string of bytes is checked and unpacked as it should be, and an entry that is packed is
accepted and comes back exactly when its size and its numbers fit. -/
theorem dir_codec (d : Dir) (buf : Bytes) (b : List UInt8) :
    Returns d buf ∧ Checked (b.map UInt8.toNat) ↔ Packable d buf := by
  rw [and_iff_left (checked (isBytes_toNat b))]
  exact returns_iff d buf

/-- An entry with a name of so many characters. -/
def named (n : Nat) : Dir where
  type := 0
  dev := 0
  qid := ⟨0, 0, 0⟩
  mode := 0
  atime := 0
  mtime := 0
  length := 0
  name := some ⟨List.replicate n 97, fun zero => absurd (List.eq_of_mem_replicate zero) (by decide)⟩
  uid := none
  gid := none
  muid := none

theorem total_named (n : Nat) : (named n).total = STATFIXLEN + n := by
  unfold Dir.total Dir.sv named
  simp

/-- Its size may not fit the count in front: it is packed and not accepted. -/
theorem long_name_refused : ¬ Returns (named 65489) (List.replicate 65538 0) := by
  rw [returns_iff]
  unfold Packable
  rw [total_named, List.length_replicate]
  rintro (tiny | ⟨-, short | ⟨large, -⟩⟩)
  · exact absurd tiny (by decide)
  · exact absurd short (by decide)
  · exact absurd large (by decide)

/-! ### Reading a directory -/

/-- The first loop of `dirpackage`: how many stats, their bytes, and what is behind them. -/
def sizestats : (ts : Nat) → Bytes → Option (Nat × Nat × Bytes)
  | 0, buf => some (0, 0, buf)
  | ts + 1, buf =>
    if buf = [] then some (0, 0, [])
    else do
      let m ← statcheckbuf buf
      if m < 0 then some (0, 0, buf)
      else do
        let (n, ss, rest) ← sizestats ts (buf.drop m.toNat)
        some (n + 1, m.toNat + ss, rest)

/-- The second loop: the entries, in what the memory held, with what is written to the strings. -/
def convstats (junk : Nat → Dir) : (n : Nat) → Bytes → Option (Except Str (List (Dir × Bytes)))
  | 0, buf => some (if buf = [] then .ok [] else .error (str "bad directory entry"))
  | n + 1, buf =>
    if buf = [] then some (.ok [])
    else do
      let (size, _) ← rd 2 buf
      let m := BIT16SZ + size
      let (r, d, strs) ← convM2D (buf.take m) (junk n) true
      if r ≠ m then some (.error (str "bad directory entry"))
      else (convstats junk n (buf.drop m)).map fun ds => ds.map ((d, strs) :: ·)

/-- `room` is whether there is memory for so many entries and bytes of strings. -/
def dirpackage (junk : Nat → Dir) (room : Nat → Nat → Bool) (buf : Bytes) :
    Option (Except Str (List (Dir × Bytes))) :=
  if buf = [] then some (.ok [])
  else do
    let (n, ss, rest) ← sizestats buf.length buf
    if rest ≠ [] then some (.error (str "bad directory format"))
    else if !room n ss then some (.error (str "out of memory: kernel"))
    else convstats junk n buf

/-- The stats at the front, and what is behind them. -/
structure Cut (buf : Bytes) (stats : List Bytes) (rest : Bytes) : Prop where
  whole : buf = stats.flatten ++ rest
  each : ∀ s ∈ stats, IsStat s
  stops : ∀ s, IsStat s → ¬ s <+: rest

/-- Its strings keep to the bytes of the stat. -/
def Converted (s : Bytes) (p : Dir × Bytes) : Prop :=
  (∃ d, convM2D s d true = some (s.length, p)) ∧ p.2.length ≤ s.length

theorem statcheckbuf_ne_zero {buf : Bytes} : statcheckbuf buf ≠ some 0 := by
  unfold statcheckbuf BIT16SZ
  cases rd 2 buf with
  | none => grind
  | some p => cases checked : statcheck buf (2 + p.1) <;> simp [checked] <;> grind

theorem IsStat.ne_nil {s : Bytes} (stat : IsStat s) : s ≠ [] := by
  rintro rfl
  exact absurd stat.length (by decide)

theorem sizestats_eq (ts : Nat) : ∀ {buf : Bytes}, IsBytes buf → buf.length ≤ ts →
    ∃ stats rest, Cut buf stats rest ∧
      sizestats ts buf = some (stats.length, stats.flatten.length, rest) := by
  have nothing : Cut [] [] [] :=
    ⟨rfl, forall_mem_nil _, fun _ stat front => stat.ne_nil (prefix_nil.1 front)⟩
  induction ts with
  | zero =>
    intro buf _ short
    obtain rfl := length_eq_zero_iff.1 (Nat.le_zero.1 short)
    exact ⟨[], [], nothing, rfl⟩
  | succ ts ih =>
    intro buf bytes short
    by_cases empty : buf = []
    · rw [empty]
      exact ⟨[], [], nothing, rfl⟩
    have ⟨m, sized, accepts⟩ := checked bytes
    have nonzero : m ≠ 0 := fun zero => statcheckbuf_ne_zero (zero ▸ sized)
    rw [sizestats, if_neg empty, sized, bind_eq_bind, bind_some]
    by_cases refused : m < 0
    · rw [if_pos refused]
      refine ⟨[], buf, ⟨rfl, forall_mem_nil _, fun s stat front => ?_⟩, rfl⟩
      have same := (accepts s.length (length_pos_iff.2 stat.ne_nil)).1.2
        ⟨front.length_le, prefix_iff_eq_take.1 front ▸ stat⟩
      omega
    have ⟨inside, stat⟩ := (accepts m.toNat (by omega)).1.1 (by omega)
    have ⟨stats, rest, cut, later⟩ := ih (bytes.drop m.toNat) (by rw [length_drop]; omega)
    refine ⟨buf.take m.toNat :: stats, rest,
      ⟨?_, forall_mem_cons.2 ⟨stat, cut.each⟩, cut.stops⟩, ?_⟩
    · rw [flatten_cons, append_assoc, ← cut.whole, take_append_drop]
    · rw [if_neg refused, later, flatten_cons, length_append, length_take_of_le inside]
      rfl

theorem convstats_eq (junk : Nat → Dir) (stats : List Bytes) :
    (∀ s ∈ stats, IsStat s) → IsBytes stats.flatten →
      ∃ ds, convstats junk stats.length stats.flatten = some (.ok ds) ∧
        Forall₂ Converted stats ds := by
  induction stats with
  | nil => exact fun _ _ => ⟨[], rfl, .nil⟩
  | cons s stats ih =>
    intro each bytes
    have ⟨stat, each⟩ := forall_mem_cons.1 each
    rw [flatten_cons] at bytes ⊢
    have ⟨ds, later, converted⟩ := ih each fun b member => bytes b (mem_append_right _ member)
    have ⟨d, strs, made, short⟩ := convM2D_stat (fun b member => bytes b (mem_append_left _ member))
      stat (junk stats.length) true
    have ⟨_, _, _, _, _, small, is⟩ := stat
    have ⟨_, read⟩ : ∃ behind, rd 2 (s ++ stats.flatten) = some (s.length - BIT16SZ, behind) := by
      have front := congrArg (· ++ stats.flatten) is
      simp only [append_assoc] at front
      exact ⟨_, front ▸ rd_le 2 _ small⟩
    have whole : BIT16SZ + (s.length - BIT16SZ) = s.length :=
      Nat.add_sub_cancel' (Nat.le_trans (by decide) stat.length)
    refine ⟨(d, strs) :: ds, ?_, .cons ⟨⟨_, made⟩, short⟩ converted⟩
    rw [length_cons, convstats, if_neg (append_ne_nil_of_left_ne_nil stat.ne_nil _)]
    simp only [read, bind_eq_bind, bind_some, whole, take_left, drop_left, made]
    rw [if_neg (not_not_intro rfl), later]
    rfl

/-- A read is cut into the stats at its front. If they are all there is, each is converted, in
order and within the memory that there is for its strings; else none is. -/
theorem dirpackage_eq (junk : Nat → Dir) (room : Nat → Nat → Bool) (b : List UInt8) :
    ∃ stats rest ds, Cut (b.map UInt8.toNat) stats rest ∧ Forall₂ Converted stats ds ∧
      dirpackage junk room (b.map UInt8.toNat) = some (
        if rest ≠ [] then .error (str "bad directory format")
        else if stats ≠ [] ∧ room stats.length stats.flatten.length = false then
          .error (str "out of memory: kernel")
        else .ok ds) := by
  have bytes := isBytes_toNat b
  generalize b.map UInt8.toNat = buf at bytes ⊢
  have ⟨stats, rest, cut, sized⟩ := sizestats_eq _ bytes le_rfl
  have is := cut.whole
  have ⟨ds, made, converted⟩ := convstats_eq junk stats cut.each fun b member =>
    bytes b (is ▸ mem_append_left _ member)
  refine ⟨stats, rest, ds, cut, converted, ?_⟩
  unfold dirpackage
  by_cases empty : buf = []
  · obtain ⟨flat, rfl⟩ := append_eq_nil_iff.1 (is.symm.trans empty)
    cases converted with
    | nil => rw [if_pos empty, if_neg (not_not_intro rfl), if_neg fun h => h.1 rfl]
    | cons _ _ =>
      exact absurd (append_eq_nil_iff.1 flat).1 (forall_mem_cons.1 cut.each).1.ne_nil
  rw [if_neg empty, sized, bind_eq_bind, bind_some]
  by_cases more : rest ≠ []
  · simp only [if_pos more]
  obtain rfl := not_not.1 more
  rw [append_nil] at is
  have some' : stats ≠ [] := by
    rintro rfl
    exact empty is
  simp only [if_neg more]
  cases room stats.length stats.flatten.length with
  | false => simp [some']
  | true => simp [is, made]

end Infernode.Stat
