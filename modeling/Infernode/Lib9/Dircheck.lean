import Infernode.Lib9.Dirpack

/-!
Directory entries that are checked and unpacked.

Owns: what it is for bytes to be a stat of its size, that `statcheckbuf` accepts those and no other
bytes, that `convM2D` consumes what is accepted and stays within it, and what it makes of a packed
entry.
-/

namespace Infernode.Stat

open Wire Option List

/-! ### Bytes that are a stat -/

/-- A size, so many bytes, and four strings that end where the size says. -/
def IsStat (s : Bytes) : Prop :=
  ∃ fixed sv, fixed.length = 39 ∧ sv.length = 4 ∧ (∀ t ∈ sv, t.length < 256 ^ 2) ∧
    s.length - BIT16SZ < 256 ^ 2 ∧ s = le 2 (s.length - BIT16SZ) ++ (fixed ++ wstrings sv)

theorem wstrings_cons (s : Bytes) (sv : List Bytes) :
    wstrings (s :: sv) = le 2 s.length ++ (s ++ wstrings sv) := by
  unfold wstrings
  rw [flatMap_cons, append_assoc]

theorem IsStat.length {s : Bytes} (stat : IsStat s) : STATFIXLEN ≤ s.length := by
  obtain ⟨_, _, fixedLength, count, -, -, is⟩ := stat
  rw [is, length_append, length_append, length_le, length_wstrings, fixedLength, count]
  unfold STATFIXLEN
  omega

theorem le_injective {k v w : Nat} (small : v < 256 ^ k) (small' : w < 256 ^ k)
    (same : le k v = le k w) : v = w := by
  have first := rd_le k [] small
  rw [same, rd_le k [] small'] at first
  cases first
  rfl

/-! ### The loop of the check -/

/-- The loop accepts what is made of so many strings and nothing else. -/
theorem checkstrings_iff (i : Nat) : ∀ {buf : Bytes} {remain : Nat}, IsBytes buf →
    remain ≤ buf.length → ∃ good, checkstrings i buf remain = some good ∧
      (good = true ↔ ∃ sv : List Bytes, sv.length = i ∧ (∀ t ∈ sv, t.length < 256 ^ 2) ∧
        buf.take remain = wstrings sv) := by
  induction i with
  | zero =>
    intro buf remain _ inside
    refine ⟨_, rfl, ?_⟩
    rw [decide_eq_true_iff]
    constructor
    · rintro rfl
      exact ⟨[], rfl, fun t member => absurd member not_mem_nil, take_zero⟩
    rintro ⟨sv, count, -, is⟩
    rw [eq_nil_of_length_eq_zero count] at is
    have lengths := congrArg List.length is
    rw [length_take_of_le inside] at lengths
    exact lengths
  | succ i ih =>
    intro buf remain bytes inside
    have shortest {sv : List Bytes} (count : sv.length = i + 1)
        (is : buf.take remain = wstrings sv) : 2 * (i + 1) ≤ remain := by
      have lengths := congrArg List.length is
      rw [length_take_of_le inside, length_wstrings, count] at lengths
      omega
    unfold checkstrings
    by_cases short : remain < BIT16SZ
    · rw [if_pos short]
      refine ⟨false, rfl, iff_of_false Bool.false_ne_true ?_⟩
      rintro ⟨sv, count, -, is⟩
      have long := shortest count is
      unfold BIT16SZ at short
      omega
    rw [if_neg short]
    unfold BIT16SZ at short ⊢
    have ⟨n, read⟩ := exists_rd (show 2 ≤ buf.length by omega)
    have ⟨same, small, bytesRest⟩ := le_of_rd bytes read
    generalize restIs : buf.drop 2 = rest at read same bytesRest
    have lengths : buf.length = 2 + rest.length := rd_length read
    rw [read, bind_eq_bind, bind_some]
    dsimp only
    have front : buf.take remain = le 2 n ++ rest.take (remain - 2) := by
      rw [same, List.take_append, length_le, take_of_length_le (by rw [length_le]; omega)]
    have counted {s : Bytes} {sv : List Bytes} (fits : s.length < 256 ^ 2)
        (is : buf.take remain = wstrings (s :: sv)) :
        n = s.length ∧ rest.take (remain - 2) = s ++ wstrings sv := by
      rw [front, wstrings_cons] at is
      have ⟨number, after⟩ := append_inj is (by rw [length_le, length_le])
      exact ⟨le_injective small fits number, after⟩
    by_cases beyond : remain - 2 < n
    · rw [if_pos beyond]
      refine ⟨false, rfl, iff_of_false Bool.false_ne_true ?_⟩
      rintro ⟨sv, count, fits, is⟩
      cases sv with
      | nil => cases count
      | cons s _ =>
        have ⟨number, after⟩ := counted (fits s (mem_cons_self ..)) is
        have sizes := congrArg List.length after
        rw [length_take_of_le (by omega), length_append] at sizes
        omega
    rw [if_neg beyond]
    have split : rest.take (remain - 2) =
        rest.take n ++ (rest.drop n).take (remain - 2 - n) := by
      conv_lhs => rw [show remain - 2 = n + (remain - 2 - n) by omega, take_add]
    have taken : (rest.take n).length = n := length_take_of_le (by omega)
    have ⟨good, checked, meaning⟩ := @ih (rest.drop n) (remain - 2 - n)
      (fun b member => bytesRest b (mem_of_mem_drop member))
      (by rw [length_drop]; omega)
    refine ⟨good, checked, meaning.trans ?_⟩
    constructor
    · rintro ⟨sv, count, fits, is⟩
      refine ⟨rest.take n :: sv, by rw [length_cons, count], ?_, ?_⟩
      · intro t member
        rcases mem_cons.1 member with here | later
        · rw [here, taken]
          exact small
        · exact fits t later
      · rw [front, split, is, wstrings_cons, taken]
    rintro ⟨sv, count, fits, is⟩
    cases sv with
    | nil => cases count
    | cons s sv =>
      have ⟨number, after⟩ := counted (fits s (mem_cons_self ..)) is
      refine ⟨sv, Nat.succ.inj count,
        (forall_mem_cons.1 fits).2, ?_⟩
      rw [split] at after
      exact (append_inj after (by rw [taken, number])).2

/-! ### The check -/

theorem isStat_take {b : Bytes} {size n : Nat} (small : size < 256 ^ 2) (total : n = 2 + size)
    (inside : n ≤ b.length) (least : STATFIXLEN ≤ n) (front : b = le 2 size ++ b.drop 2) :
    IsStat (b.take n) ↔ ∃ sv : List Bytes, sv.length = 4 ∧ (∀ t ∈ sv, t.length < 256 ^ 2) ∧
      (b.drop 41).take (n - 41) = wstrings sv := by
  unfold STATFIXLEN at least
  have length : (b.take n).length = n := length_take_of_le inside
  have whole : b.take n = le 2 size ++ (((b.drop 2).take 39) ++ (b.drop 41).take (n - 41)) := by
    conv_lhs => rw [front]
    rw [List.take_append, length_le, take_of_length_le (by rw [length_le]; omega)]
    congr 1
    rw [show n - 2 = 39 + (n - 41) by omega, take_add, drop_drop]
  have fixed : ((b.drop 2).take 39).length = 39 :=
    length_take_of_le (by rw [length_drop]; omega)
  have number : n - BIT16SZ = size := by
    unfold BIT16SZ
    omega
  unfold IsStat
  rw [length, number]
  constructor
  · rintro ⟨others, sv, count, four, fits, -, is⟩
    rw [whole] at is
    have after := (append_inj is rfl).2
    exact ⟨sv, four, fits, (append_inj after (fixed.trans count.symm)).2⟩
  · rintro ⟨sv, four, fits, is⟩
    exact ⟨_, sv, fixed, four, fits, small, by rw [whole, is]⟩

/-- `statcheckbuf` accepts the bytes in front that are a stat of its size, and no others. -/
theorem statcheckbuf_iff {b : Bytes} (bytes : IsBytes b) : ∃ r, statcheckbuf b = some r ∧
    ∀ n : Nat, 0 < n → (r = n ↔ n ≤ b.length ∧ IsStat (b.take n)) := by
  have refused {n : Nat} (positive : 0 < n) : ¬ (-1 : Int) = n := by omega
  unfold statcheckbuf
  by_cases short : b.length < BIT16SZ
  · rw [if_pos short]
    refine ⟨-1, rfl, fun n positive => iff_of_false (refused positive) ?_⟩
    rintro ⟨inside, stat⟩
    have least := stat.length
    rw [length_take_of_le inside] at least
    unfold BIT16SZ at short
    unfold STATFIXLEN at least
    omega
  rw [if_neg short]
  unfold BIT16SZ at short
  have ⟨size, read⟩ := exists_rd (show 2 ≤ b.length by omega)
  obtain ⟨front, small, -⟩ := le_of_rd bytes read
  rw [read, bind_eq_bind, bind_some]
  dsimp only
  have sized {n : Nat} (inside : n ≤ b.length) (stat : IsStat (b.take n)) : n = 2 + size := by
    have least := stat.length
    obtain ⟨_, _, -, -, -, fits, is⟩ := stat
    rw [length_take_of_le inside] at fits is least
    unfold STATFIXLEN at least
    have head : (b.take n).take 2 = le 2 size := by
      rw [take_take, Nat.min_eq_left (by omega), front,
        take_append_of_le_length (by rw [length_le]), take_of_length_le (by rw [length_le])]
    rw [is, take_append_of_le_length (by rw [length_le]),
      take_of_length_le (by rw [length_le])] at head
    have number := le_injective fits small head
    unfold BIT16SZ at number
    omega
  unfold BIT16SZ
  by_cases beyond : b.length < 2 + size
  · rw [if_pos beyond]
    refine ⟨-1, rfl, fun n positive => iff_of_false (refused positive) ?_⟩
    rintro ⟨inside, stat⟩
    have same := sized inside stat
    omega
  rw [if_neg beyond]
  by_cases little : 2 + size < STATFIXLEN
  · have verdict : statcheck b (2 + size) = some (-1) := if_pos little
    rw [verdict]
    refine ⟨-1, rfl, fun n positive => iff_of_false (refused positive) ?_⟩
    rintro ⟨inside, stat⟩
    have same := sized inside stat
    have least := stat.length
    rw [length_take_of_le inside] at least
    omega
  have ⟨good, checked, meaning⟩ := @checkstrings_iff 4 (b.drop 41) (2 + size - 41)
    (bytes.drop 41) (by rw [length_drop]; unfold STATFIXLEN at little; omega)
  have verdict : statcheck b (2 + size) = some (if good then 0 else -1) := by
    unfold statcheck
    rw [if_neg little, read, bind_eq_bind, bind_some]
    dsimp only
    rw [if_neg (show ¬ 2 + size ≠ BIT16SZ + size from not_not_intro rfl),
      show STATFIXLEN - 4 * BIT16SZ = 41 from rfl, checked]
    rfl
  rw [verdict]
  have stat := isStat_take small rfl (Nat.not_lt.1 beyond) (Nat.not_lt.1 little) front
  rw [← meaning] at stat
  cases good with
  | true =>
    refine ⟨((2 + size : Nat) : Int), rfl, fun n positive => ?_⟩
    constructor
    · intro _
      have here : n = 2 + size := by omega
      rw [here]
      exact ⟨Nat.not_lt.1 beyond, stat.2 rfl⟩
    · rintro ⟨inside, is⟩
      rw [sized inside is]
  | false =>
    refine ⟨-1, rfl, fun n positive => iff_of_false (refused positive) ?_⟩
    rintro ⟨inside, is⟩
    rw [sized inside is] at is
    exact Bool.false_ne_true (stat.1 is)

/-! ### Unpacking -/

def written (strs : Bool) (sv : List Bytes) : Bytes :=
  sv.flatMap fun s => if strs then s ++ [0] else []

theorem length_written (strs : Bool) (sv : List Bytes) :
    (written strs sv).length ≤ sv.length + (sv.map List.length).sum := by
  induction sv with
  | nil => exact Nat.le_refl 0
  | cons s _ ih =>
    have here : (if strs then s ++ [0] else []).length ≤ s.length + 1 := by
      split
      · rw [length_append, length_singleton]
      · exact Nat.zero_le _
    unfold written at ih ⊢
    rw [flatMap_cons, length_append, length_cons, map_cons, sum_cons]
    omega

theorem gstrings_wstrings (strs : Bool) (sv : List Bytes) (fits : ∀ t ∈ sv, t.length < 256 ^ 2) :
    gstrings strs sv.length (wstrings sv) = some (written strs sv, some (sv, [])) := by
  induction sv with
  | nil => rfl
  | cons s _ ih =>
    have later := ih (forall_mem_cons.1 fits).2
    rw [wstrings_cons, length_cons]
    unfold gstrings
    rw [if_neg (by rw [length_append, length_le]; unfold BIT16SZ; omega),
      rd_le 2 _ (fits s (mem_cons_self ..)), bind_eq_bind, bind_some]
    dsimp only
    rw [if_neg (by rw [length_append]; omega), Wire.take_append, bind_eq_bind,
      bind_some]
    dsimp only
    rw [later]
    rfl

def fixedOf (type dev qtype vers path mode atime mtime length : Nat) : Bytes :=
  le 2 type ++ (le 4 dev ++ (le 1 qtype ++ (le 4 vers ++ (le 8 path ++ (le 4 mode ++ (le 4 atime ++
    (le 4 mtime ++ le 8 length)))))))

def unpackedOf (type dev qtype vers path mode atime mtime length : Nat) (sv : List Bytes)
    (strs : Bool) : Dir :=
  let string (i : Nat) : Option CString :=
    some (if strs then CString.ofMemory (sv.getD i []) else nullstring)
  { type := UInt16.ofNat (type % 256 ^ 2)
    dev := UInt32.ofNat (dev % 256 ^ 4)
    qid := ⟨UInt64.ofNat (path % 256 ^ 8), UInt64.ofNat (vers % 256 ^ 4),
      UInt8.ofNat (qtype % 256 ^ 1)⟩
    mode := dontcare (mode % 256 ^ 4)
    atime := dontcare (atime % 256 ^ 4)
    mtime := dontcare (mtime % 256 ^ 4)
    length := (UInt64.ofNat (length % 256 ^ 8)).toInt64
    name := string 0
    uid := string 1
    gid := string 2
    muid := string 3 }

theorem convM2D_wire (size type dev qtype vers path mode atime mtime length : Nat)
    {sv : List Bytes} (four : sv.length = 4) (fits : ∀ t ∈ sv, t.length < 256 ^ 2) (d : Dir)
    (strs : Bool) :
    convM2D (le 2 size ++ (fixedOf type dev qtype vers path mode atime mtime length ++
        wstrings sv)) d strs =
      some (STATFIXLEN + (sv.map List.length).sum,
        unpackedOf type dev qtype vers path mode atime mtime length sv strs, written strs sv) := by
  have total : (le 2 size ++ (fixedOf type dev qtype vers path mode atime mtime length ++
      wstrings sv)).length = STATFIXLEN + (sv.map List.length).sum := by
    unfold fixedOf STATFIXLEN
    simp only [length_append, length_le, length_wstrings, four]
    omega
  have strings := gstrings_wstrings strs sv fits
  rw [four] at strings
  unfold convM2D
  rw [if_neg (by rw [total]; exact Nat.not_lt.2 (Nat.le_add_right _ _)), total]
  unfold fixedOf
  simp only [append_assoc]
  refine andThen (rd_le_mod 2 size _) ?_
  refine andThen (rd_le_mod 2 type _) ?_
  refine andThen (rd_le_mod 4 dev _) ?_
  refine andThen (rd_le_mod 1 qtype _) ?_
  refine andThen (rd_le_mod 4 vers _) ?_
  refine andThen (rd_le_mod 8 path _) ?_
  refine andThen (rd_le_mod 4 mode _) ?_
  refine andThen (rd_le_mod 4 atime _) ?_
  refine andThen (rd_le_mod 4 mtime _) ?_
  refine andThen (rd_le_mod 8 length _) ?_
  exact andThen strings rfl

end Infernode.Stat
