import Infernode.Lib9.ConvD2M

/-!
The bytes of a directory entry.

Owns: the bytes that an entry is packed into, that `convD2M` writes them where it writes an entry,
and when it does.
-/

namespace Infernode.Stat

open Wire List Option

/-! ### The bytes -/

/-- The strings of an entry, each behind its length. -/
def wstrings (sv : List Bytes) : Bytes := sv.flatMap fun s => le 2 s.length ++ s

def Dir.total (d : Dir) : Nat := STATFIXLEN + (d.sv.map List.length).sum

def Dir.entry (d : Dir) : Bytes := le 2 (d.total - BIT16SZ) ++ (d.fields.flatten ++ wstrings d.sv)

theorem length_wstrings (sv : List Bytes) :
    (wstrings sv).length = 2 * sv.length + (sv.map List.length).sum := by
  induction sv with
  | nil => rfl
  | cons s rest ih =>
    have here : wstrings (s :: rest) = (le 2 s.length ++ s) ++ wstrings rest := by
      unfold wstrings
      rw [flatMap_cons]
    rw [here, length_append, length_append, length_le, ih,
      length_cons, map_cons, sum_cons]
    omega

theorem length_fields (d : Dir) : d.fields.flatten.length = 39 := rfl

theorem length_entry (d : Dir) : d.entry.length = d.total := by
  unfold Dir.entry
  rw [length_append, length_append, length_le, length_fields, length_wstrings]
  unfold Dir.total STATFIXLEN
  show 2 + (39 + (2 * 4 + _)) = _
  omega

/-! ### Lengths -/

theorem int_eq {n : Nat} (small : n < 2 ^ 31) : int n = some n := if_pos small

theorem int_none {n : Nat} (large : 2 ^ 31 ≤ n) : int n = none := if_neg (by omega)

theorem sumlen_from (sv : List Bytes) : ∀ ns, ns < 2 ^ 31 →
    sv.foldlM (fun ns s => do int (ns + (← int s.length))) ns =
      int (ns + (sv.map List.length).sum) := by
  induction sv with
  | nil =>
    intro ns small
    rw [map_nil, sum_nil, Nat.add_zero, int_eq small]
    rfl
  | cons s _ ih =>
    intro ns _
    rw [foldlM_cons, map_cons, sum_cons]
    by_cases one : s.length < 2 ^ 31
    · rw [int_eq one]
      show (int (ns + s.length)).bind _ = _
      by_cases more : ns + s.length < 2 ^ 31
      · rw [int_eq more, bind_some, ih _ more, Nat.add_assoc]
      · rw [int_none (by omega), int_none (by omega)]
        rfl
    · rw [int_none (by omega), int_none (by omega)]
      rfl

theorem sumlen_eq (sv : List Bytes) : sumlen sv = int (sv.map List.length).sum := by
  have summed := sumlen_from sv 0 (by decide)
  rw [Nat.zero_add] at summed
  exact summed

/-! ### Writing -/

/-- Bytes are written behind those that are written. -/
theorem put_next {done rest bytes : Bytes} (fits : bytes.length ≤ rest.length) :
    put (done ++ rest) done.length bytes = some (done ++ bytes ++ rest.drop bytes.length) := by
  unfold put
  rw [if_pos (by rw [length_append]; omega), take_left, drop_append,
    drop_eq_nil_of_le (Nat.le_add_right _ _), nil_append, Nat.add_sub_cancel_left]

theorem pbits_eq (fields : List Bytes) : ∀ done rest : Bytes,
    fields.flatten.length ≤ rest.length →
      pbits fields (done ++ rest, done.length) =
        some (done ++ fields.flatten ++ rest.drop fields.flatten.length,
          (done ++ fields.flatten).length) := by
  induction fields with
  | nil =>
    intro done rest _
    unfold pbits
    rw [foldlM_nil, flatten_nil, append_nil, length_nil, drop_zero]
    rfl
  | cons bytes _ ih =>
    intro done rest fits
    rw [flatten_cons, length_append] at fits
    have later := ih (done ++ bytes) (rest.drop bytes.length)
      (by rw [length_drop]; omega)
    unfold pbits at later ⊢
    rw [foldlM_cons]
    dsimp only
    rw [put_next (by omega), map_some, bind_eq_bind, bind_some,
      ← length_append, later]
    simp only [flatten_cons, drop_drop, length_append, append_assoc]

theorem pstrings_eq (sv : List Bytes) : ∀ done rest : Bytes, (wstrings sv).length ≤ rest.length →
    pstrings (done ++ rest).length sv (done ++ rest) done.length =
      some (done ++ wstrings sv ++ rest.drop (wstrings sv).length,
        some (done ++ wstrings sv).length) := by
  induction sv with
  | nil =>
    intro done rest _
    unfold pstrings wstrings
    rw [flatMap_nil, append_nil, length_nil, drop_zero]
  | cons s sv ih =>
    intro done rest fits
    have here : wstrings (s :: sv) = le 2 s.length ++ s ++ wstrings sv := by
      unfold wstrings
      rw [flatMap_cons]
    rw [here, length_append, length_append, length_le] at fits
    have total : (done ++ rest).length = done.length + rest.length := length_append
    unfold pstrings
    rw [if_neg (by rw [total]; unfold BIT16SZ; omega), put_next (by rw [length_le]; omega),
      bind_eq_bind, bind_some]
    have second := @put_next (done ++ le 2 s.length) (rest.drop 2) s
      (by rw [length_drop]; omega)
    rw [length_append, length_le] at second
    rw [length_le, show done.length + BIT16SZ = done.length + 2 from rfl, second,
      bind_some, drop_drop]
    have later := ih (done ++ le 2 s.length ++ s) (rest.drop (2 + s.length))
      (by rw [length_drop]; omega)
    have same : (done ++ le 2 s.length ++ s ++ rest.drop (2 + s.length)).length =
        (done ++ rest).length := by
      rw [length_append, length_append, length_append, length_append,
        length_le, length_drop]
      omega
    rw [same] at later
    have place : (done ++ le 2 s.length ++ s).length = done.length + 2 + s.length := by
      rw [length_append, length_append, length_le]
    rw [place] at later
    rw [later, here]
    simp only [drop_drop, length_append, length_le, append_assoc, Nat.add_assoc]

/-! ### Packing -/

variable {d : Dir} {buf : Bytes}

theorem convD2M_none (room : BIT16SZ ≤ buf.length) (large : 2 ^ 31 ≤ d.total) :
    convD2M d buf = none := by
  unfold convD2M
  rw [if_neg (Nat.not_lt.2 room), sumlen_eq]
  by_cases sum : (d.sv.map List.length).sum < 2 ^ 31
  · rw [int_eq sum, bind_eq_bind, bind_some]
    rw [show STATFIXLEN + (d.sv.map List.length).sum = d.total from rfl, int_none large]
    rfl
  · rw [int_none (by omega)]
    rfl

theorem convD2M_sized (room : BIT16SZ ≤ buf.length) (small : d.total < 2 ^ 31) :
    convD2M d buf = (do
      let (after, p) ← pbits [le 2 (d.total - BIT16SZ)] (buf, 0)
      if buf.length < d.total then some (BIT16SZ, after)
      else do
        let (after, p) ← pbits d.fields (after, p)
        match ← pstrings buf.length d.sv after p with
        | (after, none) => some (0, after)
        | (after, some p) => if d.total ≠ p then some (0, after) else some (p, after)) := by
  have sum : (d.sv.map List.length).sum < 2 ^ 31 := by
    unfold Dir.total at small
    omega
  have total : STATFIXLEN + (d.sv.map List.length).sum = d.total := rfl
  unfold convD2M
  simp only [if_neg (Nat.not_lt.2 room), sumlen_eq, int_eq sum, bind_eq_bind,
    bind_some, total, int_eq small]
  all_goals rfl

/-- Only the size is written where the entry does not fit. -/
theorem convD2M_short (room : BIT16SZ ≤ buf.length) (small : d.total < 2 ^ 31)
    (short : buf.length < d.total) : ∃ after, convD2M d buf = some (BIT16SZ, after) := by
  rw [convD2M_sized room small]
  have written := pbits_eq [le 2 (d.total - BIT16SZ)] [] buf
    (by rw [flatten_singleton, length_le]; exact room)
  rw [nil_append, length_nil] at written
  rw [written, bind_eq_bind, bind_some]
  dsimp only
  rw [if_pos short]
  exact ⟨_, rfl⟩

theorem convD2M_fits (small : d.total < 2 ^ 31) (fits : d.total ≤ buf.length) :
    convD2M d buf = some (d.total, d.entry ++ buf.drop d.total) := by
  have least : STATFIXLEN ≤ d.total := Nat.le_add_right _ _
  have room : BIT16SZ ≤ buf.length := Nat.le_trans (by decide) (Nat.le_trans least fits)
  have sizes := length_entry d
  unfold Dir.entry at sizes
  rw [length_append, length_append, length_le] at sizes
  have first := pbits_eq [le 2 (d.total - BIT16SZ)] [] buf
    (by rw [flatten_singleton, length_le]; exact room)
  rw [nil_append, length_nil, flatten_singleton, nil_append] at first
  have second := pbits_eq d.fields (le 2 (d.total - BIT16SZ))
    (buf.drop (le 2 (d.total - BIT16SZ)).length)
    (by rw [length_drop, length_le]; omega)
  have third := pstrings_eq d.sv (le 2 (d.total - BIT16SZ) ++ d.fields.flatten)
    ((buf.drop (le 2 (d.total - BIT16SZ)).length).drop d.fields.flatten.length)
    (by rw [length_drop, length_drop, length_le]; omega)
  have same : (le 2 (d.total - BIT16SZ) ++ d.fields.flatten ++
      (buf.drop (le 2 (d.total - BIT16SZ)).length).drop d.fields.flatten.length).length =
        buf.length := by
    rw [length_append, length_append, length_drop, length_drop, length_le]
    omega
  rw [same] at third
  have whole : le 2 (d.total - BIT16SZ) ++ d.fields.flatten ++ wstrings d.sv = d.entry :=
    append_assoc _ _ _
  rw [whole, length_entry] at third
  rw [convD2M_sized room small, first, bind_eq_bind, bind_some]
  dsimp only
  rw [if_neg (Nat.not_lt.2 fits), second, bind_some]
  dsimp only
  rw [third, bind_eq_bind, bind_some]
  dsimp only
  rw [if_neg (not_not_intro rfl), drop_drop, drop_drop, length_le, sizes]

end Infernode.Stat
