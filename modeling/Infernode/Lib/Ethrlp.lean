import Infernode.Codec.Rlp
import Infernode.Lib.Ethtx

/-!
The encodings of `appl/lib/ethcrypto.b` are canonical.

Owns: the values that calls of the four encoding functions build; that what they write is the
one encoding of the value, read back by the grammar with minimal lengths and numbers without
leading zeros; that the text a transaction signs determines the transaction; and the number
that says which key and which chain a signature is for.
-/

namespace Infernode.Ethcrypto

open Bigendian
open Text (InWord)
open List

/-! ### Numbers -/

/-- How many bytes a number needs; a `big` has eight. -/
def nbytes : Nat → Int → Nat
  | 0, _ => 0
  | width + 1, tmp => if 0 < tmp then nbytes width (tmp / 256) + 1 else 0

def lowbytes : Nat → Int → Bytes
  | 0, _ => []
  | n + 1, v => lowbytes n (v / 256) ++ [UInt8.ofNat (v % 256).toNat]

def bigtobytes (v : Int) : Bytes := if v = 0 then [] else lowbytes (nbytes 8 v) v

variable {v : Int} {tx : EthTx}

theorem value_lowbytes (n : Nat) (nonnegative : 0 ≤ v) (small : v < 256 ^ n) :
    (value (lowbytes n v) : Int) = v := by
  induction n generalizing v with
  | zero =>
    have zero : v = 0 := by omega
    rw [zero]
    rfl
  | succ _ ih =>
    have digit := Int.emod_nonneg v (show (256 : Int) ≠ 0 by decide)
    have below := Int.emod_lt_of_pos v (show (0 : Int) < 256 by decide)
    have byte : (UInt8.ofNat (v % 256).toNat).toNat = (v % 256).toNat := by
      rw [UInt8.toNat_ofNat']
      omega
    have rest := ih (v := v / 256) (by omega) (by rw [pow_succ] at small; omega)
    unfold lowbytes
    rw [value_concat, byte]
    push_cast
    rw [rest]
    omega

theorem lt_nbytes (width : Nat) (nonnegative : 0 ≤ v) (small : v < 256 ^ width) :
    v < 256 ^ nbytes width v := by
  induction width generalizing v with
  | zero => exact small
  | succ _ ih =>
    unfold nbytes
    by_cases positive : 0 < v
    · have rest := ih (v := v / 256) (by omega)
        (by rw [pow_succ] at small; omega)
      rw [if_pos positive, pow_succ]
      omega
    · rw [if_neg positive, pow_zero]
      omega

theorem minimal_lowbytes (width : Nat) (nonnegative : 0 ≤ v) (small : v < 256 ^ width) :
    Minimal (lowbytes (nbytes width v) v) := by
  induction width generalizing v with
  | zero => exact nofun
  | succ width ih =>
    unfold nbytes
    by_cases positive : 0 < v
    · have rest := ih (v := v / 256) (by omega)
        (by rw [pow_succ] at small; omega)
      rw [if_pos positive]
      unfold lowbytes
      by_cases top : v / 256 = 0
      · have empty : lowbytes (nbytes width (v / 256)) (v / 256) = [] := by
          rw [top]
          cases width <;> rfl
        have byte : (UInt8.ofNat (v % 256).toNat).toNat = (v % 256).toNat := by
          rw [UInt8.toNat_ofNat']
          omega
        rw [empty, nil_append]
        intro leading
        rw [head?_cons, Option.some.injEq] at leading
        rw [leading] at byte
        have zero : (v % 256).toNat = 0 := byte.symm
        omega
      · have digits := lt_nbytes width (v := v / 256) (by omega)
          (by rw [pow_succ] at small; omega)
        cases front : lowbytes (nbytes width (v / 256)) (v / 256) with
        | nil =>
          have written := value_lowbytes _ (show 0 ≤ v / 256 by omega) digits
          rw [front, value_nil] at written
          omega
        | cons _ _ =>
          rw [front] at rest
          exact rest
    · rw [if_neg positive]
      exact nofun

/-- The bytes of a `big` that is not negative are the shortest string of its number. -/
theorem bigtobytes_eq (nonnegative : 0 ≤ v) (big : v < 2 ^ 63) : bigtobytes v = ofNat v.toNat := by
  have small : v < 256 ^ 8 := by norm_num at big ⊢; omega
  have written := value_lowbytes _ nonnegative (lt_nbytes 8 nonnegative small)
  have number : v.toNat = value (lowbytes (nbytes 8 v) v) := by omega
  unfold bigtobytes
  by_cases zero : v = 0
  · rw [if_pos zero, zero]
    rfl
  · rw [if_neg zero, number, ofNat_value (minimal_lowbytes 8 nonnegative small)]

theorem rlpencode_uint_eq (nonnegative : 0 ≤ v) (big : v < 2 ^ 63) :
    rlpencode_uint v = if v = 0 then [0x80] else rlpencode_bytes (bigtobytes v) := by
  rw [bigtobytes_eq nonnegative big]
  rfl

/-! ### Strings and lists -/

variable {n : Nat} {items : List Bytes} {kr : Keyring} {privkey raw : Bytes}

/-- The length bytes are the shortest string of the length. -/
theorem encodelen_eq (positive : 0 < n) (int : n < 2 ^ 31) : encodelen n = ofNat n := by
  have written : value (encodelen n) = n := by
    unfold encodelen
    split_ifs <;> simp only [value_cons, value_nil, UInt8.toNat_ofNat', length_cons,
      length_nil] <;> omega
  have leading : Minimal (encodelen n) := by
    have nonzero : ∀ m, 0 < m → m < 256 → UInt8.ofNat m ≠ 0 := by
      intro _ _ _ zero
      have same := congrArg UInt8.toNat zero
      rw [UInt8.toNat_ofNat', UInt8.toNat_zero] at same
      omega
    intro zero
    unfold encodelen at zero
    split_ifs at zero <;> rw [head?_cons, Option.some.injEq] at zero
    · exact nonzero _ positive (by omega) zero
    · exact nonzero _ (by omega) (by omega) zero
    · exact nonzero _ (by omega) (by omega) zero
    · exact nonzero _ (by omega) (by omega) zero
  rw [← ofNat_value leading, written]

/-- One byte of the length, or the bytes of `encodelen` behind their number. -/
theorem frame_eq (low : Nat) {payload : Bytes} (int : payload.length < 2 ^ 31) :
    Rlp.frame low payload =
      if payload.length ≤ 55 then UInt8.ofNat (low + payload.length) :: payload
      else UInt8.ofNat (low + 55 + (encodelen payload.length).length) ::
        encodelen payload.length ++ payload := by
  unfold Rlp.frame Rlp.lengthCode Rlp.lengthBytes
  by_cases short : payload.length ≤ 55
  · rw [if_pos short, if_pos short, if_pos short]
    rfl
  · rw [if_neg short, if_neg short, if_neg short, encodelen_eq (by omega) int, Nat.add_assoc]
    rfl

theorem single_iff (s : Bytes) : (s.length = 1 ∧ s.all (· ≤ 0x7f) = true) ↔ Rlp.Single s := by
  constructor
  · rintro ⟨one, small⟩
    obtain ⟨byte, rfl⟩ := length_eq_one_iff.1 one
    have below : byte ≤ 0x7f := by simpa using small
    exact ⟨byte, rfl, Nat.lt_succ_of_le (UInt8.le_iff_toNat_le.1 below)⟩
  · rintro ⟨byte, rfl, below⟩
    have small : byte ≤ 0x7f := UInt8.le_iff_toNat_le.2 (Nat.le_of_lt_succ below)
    exact ⟨rfl, by simpa using small⟩

theorem rlpencode_bytes_eq {s : Bytes} (int : s.length < 2 ^ 31) :
    rlpencode_bytes s = Rlp.encode (.string s) := by
  show rlpencode_bytes s = if Rlp.Single s then s else Rlp.frame 0x80 s
  rw [frame_eq 0x80 int]
  unfold rlpencode_bytes
  by_cases single : Rlp.Single s
  · rw [if_pos single, if_pos ((single_iff s).2 single)]
  · rw [if_neg single, if_neg (fun both => single ((single_iff s).1 both))]

theorem rlpencode_list_eq (int : items.flatten.length < 2 ^ 31) :
    rlpencode_list items = Rlp.frame 0xc0 items.flatten := by
  rw [frame_eq 0xc0 int]
  rfl

/-! ### The values that calls build -/

/-- What the four functions are called with, from the leaves up. -/
inductive Value
  | bytes (s : Bytes)
  | uint (v : Int)
  | bigbe (b : Bytes)
  | list (items : List Value)

mutual

def Value.encoded : Value → Bytes
  | .bytes s => rlpencode_bytes s
  | .uint v => rlpencode_uint v
  | .bigbe b => rlpencode_bigbe b
  | .list items => rlpencode_list (encodedAll items)

def encodedAll : List Value → List Bytes
  | [] => []
  | x :: xs => x.encoded :: encodedAll xs

end

def number (n : Nat) : Rlp.Item := .string (ofNat n)

mutual

def Value.item : Value → Rlp.Item
  | .bytes s => .string s
  | .uint v => number v.toNat
  | .bigbe b => number (value b)
  | .list items => .list (itemAll items)

def itemAll : List Value → List Rlp.Item
  | [] => []
  | x :: xs => x.item :: itemAll xs

end

mutual

/-- Strings and lists below 2^31 bytes, and numbers that are a `big`. -/
def Value.Sized : Value → Prop
  | .bytes s => s.length < 2 ^ 31
  | .uint v => 0 ≤ v ∧ v < 2 ^ 63
  | .bigbe b => b.length < 2 ^ 31
  | .list items => (encodedAll items).flatten.length < 2 ^ 31 ∧ SizedAll items

def SizedAll : List Value → Prop
  | [] => True
  | x :: xs => x.Sized ∧ SizedAll xs

end

theorem rlpencode_bytes_nil : rlpencode_bytes [] = [0x80] := by decide

theorem ofNat_value_minimal (b : Bytes) : ofNat (value b) = minimal b := by
  rw [← value_minimal b, ofNat_value (minimal_minimal b)]

theorem length_minimal_le (b : Bytes) : (minimal b).length ≤ b.length :=
  (List.dropWhile_suffix _).length_le

theorem rlpencode_uint_string (v : Int) :
    rlpencode_uint v = rlpencode_bytes (ofNat v.toNat) := by
  unfold rlpencode_uint
  split
  · rename_i zero
    rw [zero, ← rlpencode_bytes_nil]
    rfl
  · rfl

theorem rlpencode_bigbe_string (b : Bytes) :
    rlpencode_bigbe b = rlpencode_bytes (ofNat (value b)) := by
  unfold rlpencode_bigbe
  rw [ofNat_value_minimal]
  split
  · rename_i empty
    rw [empty, rlpencode_bytes_nil]
  · rfl

mutual

theorem Value.encoded_eq : ∀ x : Value, x.Sized → x.encoded = Rlp.encode x.item
  | .bytes s, sized => rlpencode_bytes_eq sized
  | .uint v, sized => by
    have width : (ofNat v.toNat).length ≤ 8 :=
      Rlp.length_ofNat_le (by have bound := sized.2; norm_num at bound ⊢; omega)
    show rlpencode_uint v = _
    rw [rlpencode_uint_string v, rlpencode_bytes_eq (by omega)]
    rfl
  | .bigbe b, sized => by
    have below : b.length < 2 ^ 31 := sized
    have width := length_minimal_le b
    show rlpencode_bigbe b = _
    rw [rlpencode_bigbe_string, rlpencode_bytes_eq (by rw [ofNat_value_minimal]; omega)]
    rfl
  | .list items, sized => by
    show rlpencode_list (encodedAll items) = _
    rw [rlpencode_list_eq sized.1, encodedAll_eq items sized.2]
    rfl

theorem encodedAll_eq : ∀ items : List Value, SizedAll items →
    (encodedAll items).flatten = Rlp.encodeAll (itemAll items)
  | [], _ => rfl
  | x :: xs, sized => by
    show x.encoded ++ (encodedAll xs).flatten = _
    rw [x.encoded_eq sized.1, encodedAll_eq xs sized.2]
    rfl

end

mutual

theorem Value.fits : ∀ x : Value, x.Sized → Rlp.Fits x.item
  | .bytes s, sized => by
    have below : s.length < 2 ^ 31 := sized
    show s.length < 256 ^ 8
    norm_num at below ⊢
    omega
  | .uint v, sized => by
    have width : (ofNat v.toNat).length ≤ 8 :=
      Rlp.length_ofNat_le (by have bound := sized.2; norm_num at bound ⊢; omega)
    show (ofNat v.toNat).length < 256 ^ 8
    norm_num
    omega
  | .bigbe b, sized => by
    have below : b.length < 2 ^ 31 := sized
    have width := length_minimal_le b
    show (ofNat (value b)).length < 256 ^ 8
    rw [ofNat_value_minimal]
    norm_num at below ⊢
    omega
  | .list items, sized => by
    have below := sized.1
    rw [encodedAll_eq items sized.2] at below
    exact ⟨by norm_num at below ⊢; omega, fitsAll items sized.2⟩

theorem fitsAll : ∀ items : List Value, SizedAll items → Rlp.FitsAll (itemAll items)
  | [], _ => trivial
  | x :: xs, sized => ⟨x.fits sized.1, fitsAll xs sized.2⟩

end

/-- What the calls write is read back as the value that was meant. -/
theorem Value.decode_encoded (x : Value) (sized : x.Sized) :
    Rlp.decode x.encoded = some x.item := by
  rw [x.encoded_eq sized]
  exact Rlp.decode_encode (x.fits sized)

/-! ### Transactions -/

def EthTx.values (tx : EthTx) : List Value :=
  [.uint tx.nonce, .uint tx.gasprice, .uint tx.gaslimit, .bytes tx.dst,
    .bigbe (minimal tx.value), .bytes tx.data]

def EthTx.unsigned (tx : EthTx) : Bytes :=
  rlpencode_list (tx.fields ++ [rlpencode_uint tx.chainid, rlpencode_uint 0, rlpencode_uint 0])

def EthTx.unsignedValue (tx : EthTx) : Value :=
  .list (tx.values ++ [.uint tx.chainid, .uint 0, .uint 0])

/-- The recovery id of a signature with its chain, in 64 bits. -/
def chainv (recid : UInt8) (chainid : Int) : Int :=
  Int.bmod (Int.bmod ((recid.toNat : Int) + Int.bmod (chainid * 2) (2 ^ 64)) (2 ^ 64) + 35)
    (2 ^ 64)

/-- The fields have the types of `EthTx`: three a `big`, the chain an `int`. -/
structure EthTx.Typed (tx : EthTx) : Prop where
  nonce : tx.nonce < 2 ^ 63
  gasprice : tx.gasprice < 2 ^ 63
  gaslimit : tx.gaslimit < 2 ^ 63
  chainid : InWord tx.chainid

/-- What `signtx` takes. -/
structure EthTx.Accepted (tx : EthTx) : Prop where
  nonce : 0 ≤ tx.nonce
  gasprice : 0 ≤ tx.gasprice
  gaslimit : 0 < tx.gaslimit
  dst : tx.dst.length = 0 ∨ tx.dst.length = 20
  value : (minimal tx.value).length ≤ 32
  chainid : 0 < tx.chainid

/-- The same payment on the same chain: the value is a number, however it is written. -/
structure EthTx.Same (tx other : EthTx) : Prop where
  nonce : tx.nonce = other.nonce
  gasprice : tx.gasprice = other.gasprice
  gaslimit : tx.gaslimit = other.gaslimit
  dst : tx.dst = other.dst
  value : Bigendian.value tx.value = Bigendian.value other.value
  data : tx.data = other.data
  chainid : tx.chainid = other.chainid

theorem signtx_eq_some (signed : signtx kr tx privkey = some raw) :
    tx.Accepted ∧ ∃ sig, kr.secp256k1_sign privkey (kr.keccak256 tx.unsigned) = some sig ∧
      sig.length = 65 ∧ raw = rlpencode_list (tx.fields ++
        [rlpencode_uint ((sig.getD 64 0).toNat + tx.chainid * 2 + 35),
          rlpencode_bigbe (sig.take 32), rlpencode_bigbe ((sig.drop 32).take 32)]) := by
  unfold signtx at signed
  split_ifs at signed with key chain counts partialAddress wide
  cases signature : kr.secp256k1_sign privkey (kr.keccak256 tx.unsigned) with
  | none =>
    unfold EthTx.unsigned at signature
    simp only [signature] at signed
    cases signed
  | some sig =>
    have unfolded := signature
    unfold EthTx.unsigned at unfolded
    simp only [unfolded] at signed
    split_ifs at signed with short
    have accepted : tx.Accepted :=
      ⟨by omega, by omega, by omega, by omega, by omega, by omega⟩
    exact ⟨accepted, sig, rfl, not_not.1 short, (Option.some.inj signed).symm⟩

theorem encoded_unsignedValue (tx : EthTx) : tx.unsignedValue.encoded = tx.unsigned := rfl

theorem length_list_le (int : (rlpencode_list items).length < 2 ^ 31) :
    items.flatten.length < 2 ^ 31 := by
  unfold rlpencode_list at int
  simp only at int
  split_ifs at int <;>
    · simp only [length_cons, cons_append, length_append] at int
      omega

/-- A string is not longer than its encoding. -/
theorem length_le_rlpencode_bytes (s : Bytes) : s.length ≤ (rlpencode_bytes s).length := by
  unfold rlpencode_bytes
  split_ifs
  · exact Nat.le_refl _
  · rw [length_cons]
    omega
  · rw [length_append]
    omega

/-- An accepted transaction with any numbers behind its fields, if the whole is an array. -/
theorem sized_fields (accepted : tx.Accepted) (typed : tx.Typed) {tail : List Value}
    (tailSized : SizedAll tail)
    (int : (rlpencode_list (tx.fields ++ encodedAll tail)).length < 2 ^ 31) :
    (Value.list (tx.values ++ tail)).Sized := by
  have payload := length_list_le int
  have data : tx.data.length < 2 ^ 31 := by
    have inside := length_le_rlpencode_bytes tx.data
    have whole : (tx.fields ++ encodedAll tail).flatten.length =
        (tx.fields.take 5).flatten.length + (rlpencode_bytes tx.data).length +
          (encodedAll tail).flatten.length := by
      simp [EthTx.fields]
      omega
    omega
  have dst : tx.dst.length < 2 ^ 31 := by
    have cases := accepted.dst
    omega
  have value : (minimal tx.value).length < 2 ^ 31 := by
    have bound := accepted.value
    omega
  exact ⟨payload, ⟨accepted.nonce, typed.nonce⟩, ⟨accepted.gasprice, typed.gasprice⟩,
    ⟨accepted.gaslimit.le, typed.gaslimit⟩, dst, value, data, tailSized⟩

theorem sized_chainid (accepted : tx.Accepted) (typed : tx.Typed) :
    (Value.uint tx.chainid).Sized := by
  have bound := typed.chainid
  have positive := accepted.chainid
  unfold InWord at bound
  exact ⟨positive.le, by omega⟩

theorem sized_unsigned (accepted : tx.Accepted) (typed : tx.Typed)
    (int : tx.unsigned.length < 2 ^ 31) : tx.unsignedValue.Sized := by
  have zero : (Value.uint 0).Sized := ⟨le_refl 0, by norm_num⟩
  have tail : SizedAll [.uint tx.chainid, .uint 0, .uint 0] :=
    ⟨sized_chainid accepted typed, zero, zero, trivial⟩
  exact sized_fields accepted typed tail int

theorem number_inj {m : Nat} (same : number n = number m) : n = m := by
  have strings := congrArg value (Rlp.Item.string.inj same)
  rwa [value_ofNat, value_ofNat] at strings

/-- The signed text determines the transaction. -/
theorem same_of_unsigned {other : EthTx} (accepted : tx.Accepted) (otherAccepted : other.Accepted)
    (typed : tx.Typed) (otherTyped : other.Typed) (int : tx.unsigned.length < 2 ^ 31)
    (equal : tx.unsigned = other.unsigned) : tx.Same other := by
  have read := tx.unsignedValue.decode_encoded (sized_unsigned accepted typed int)
  have otherRead := other.unsignedValue.decode_encoded
    (sized_unsigned otherAccepted otherTyped (equal ▸ int))
  rw [encoded_unsignedValue, equal, ← encoded_unsignedValue, otherRead, Option.some.injEq]
    at read
  simp only [EthTx.unsignedValue, EthTx.values, Value.item, itemAll, cons_append,
    nil_append, Rlp.Item.list.injEq, List.cons.injEq, Rlp.Item.string.injEq] at read
  have ⟨nonce, gasprice, gaslimit, dst, amount, data, chainid, _⟩ := read
  have nonceSame := number_inj nonce
  have gaspriceSame := number_inj gasprice
  have gaslimitSame := number_inj gaslimit
  have chainidSame := number_inj chainid
  have amountSame := number_inj amount
  rw [value_minimal, value_minimal] at amountSame
  have left := accepted
  have right := otherAccepted
  exact ⟨by have := left.nonce; have := right.nonce; omega,
    by have := left.gasprice; have := right.gasprice; omega,
    by have := left.gaslimit; have := right.gaslimit; omega, dst.symm, amountSame.symm,
    data.symm, by have := left.chainid; have := right.chainid; omega⟩

theorem chainv_eq (recid : UInt8) {chainid : Int} (int : InWord chainid) :
    chainv recid chainid = recid.toNat + 2 * chainid + 35 := by
  have byte := recid.toNat_lt
  unfold InWord at int
  unfold chainv
  norm_num at byte ⊢
  rw [Int.bmod_eq_of_le (by omega) (by omega)]
  omega

theorem signtx_signed (signed : signtx kr tx privkey = some raw) (typed : tx.Typed) :
    ∃ sig, kr.secp256k1_sign privkey (kr.keccak256 tx.unsigned) = some sig ∧
      sig.length = 65 ∧
      raw = (Value.list (tx.values ++ [.uint (chainv (sig.getD 64 0) tx.chainid),
        .bigbe (sig.take 32), .bigbe ((sig.drop 32).take 32)])).encoded := by
  have ⟨_, sig, signature, width, written⟩ := signtx_eq_some signed
  refine ⟨sig, signature, width, ?_⟩
  have number : ((sig.getD 64 0).toNat : Int) + tx.chainid * 2 + 35 =
      chainv (sig.getD 64 0) tx.chainid := by
    rw [chainv_eq _ typed.chainid]
    omega
  rw [written, number]
  rfl

theorem decode_signed {sig : Bytes} (accepted : tx.Accepted) (typed : tx.Typed)
    (width : sig.length = 65)
    (int : (Value.list (tx.values ++ [.uint (chainv (sig.getD 64 0) tx.chainid),
      .bigbe (sig.take 32), .bigbe ((sig.drop 32).take 32)])).encoded.length < 2 ^ 31) :
    Rlp.decode (Value.list (tx.values ++ [.uint (chainv (sig.getD 64 0) tx.chainid),
        .bigbe (sig.take 32), .bigbe ((sig.drop 32).take 32)])).encoded =
      some (.list (itemAll tx.values ++
        [number ((sig.getD 64 0).toNat + 2 * tx.chainid + 35).toNat,
          number (value (sig.take 32)), number (value ((sig.drop 32).take 32))])) := by
  have byte := (sig.getD 64 0).toNat_lt
  have positive := accepted.chainid
  have word := typed.chainid
  have left : (sig.take 32).length < 2 ^ 31 := by rw [length_take]; omega
  have right : ((sig.drop 32).take 32).length < 2 ^ 31 := by rw [length_take]; omega
  have chain : (Value.uint (chainv (sig.getD 64 0) tx.chainid)).Sized := by
    unfold InWord at word
    have small : chainv (sig.getD 64 0) tx.chainid < 2 ^ 63 := by
      rw [chainv_eq _ typed.chainid]
      norm_num at byte ⊢
      omega
    have nonnegative : 0 ≤ chainv (sig.getD 64 0) tx.chainid := by
      rw [chainv_eq _ typed.chainid]
      omega
    exact ⟨nonnegative, small⟩
  have tail : SizedAll [.uint (chainv (sig.getD 64 0) tx.chainid), .bigbe (sig.take 32),
      .bigbe ((sig.drop 32).take 32)] := ⟨chain, left, right, trivial⟩
  have sized := sized_fields accepted typed tail int
  rw [Value.decode_encoded _ sized, ← chainv_eq _ typed.chainid]
  rfl

/-- Everything the four functions write is the one encoding of its value, and what is signed
is one transaction on one chain. -/
theorem encodings_canonical :
    (∀ x : Value, x.Sized → Rlp.decode x.encoded = some x.item) ∧
    (∀ n, Minimal (ofNat n) ∧ value (ofNat n) = n) ∧
    (∀ bytes rest, (Rlp.decode bytes).isSome → (Rlp.decode (bytes ++ rest)).isSome →
      rest = []) ∧
    (∀ (kr kr' : Keyring) (tx other : EthTx) (privkey privkey' raw raw' : Bytes),
      signtx kr tx privkey = some raw → signtx kr' other privkey' = some raw' →
      tx.Typed → other.Typed → tx.unsigned.length < 2 ^ 31 →
      tx.unsigned = other.unsigned → tx.Same other) ∧
    (∀ (kr : Keyring) (tx : EthTx) (privkey raw : Bytes),
      signtx kr tx privkey = some raw → tx.Typed → raw.length < 2 ^ 31 →
      ∃ sig, kr.secp256k1_sign privkey (kr.keccak256 tx.unsigned) = some sig ∧
        sig.length = 65 ∧
        chainv (sig.getD 64 0) tx.chainid = (sig.getD 64 0).toNat + 2 * tx.chainid + 35 ∧
        raw = rlpencode_list (tx.fields ++ [rlpencode_uint (chainv (sig.getD 64 0) tx.chainid),
          rlpencode_bigbe (sig.take 32), rlpencode_bigbe ((sig.drop 32).take 32)]) ∧
        Rlp.decode raw = some (.list (itemAll tx.values ++
          [number ((sig.getD 64 0).toNat + 2 * tx.chainid + 35).toNat,
            number (value (sig.take 32)), number (value ((sig.drop 32).take 32))]))) := by
  refine ⟨Value.decode_encoded, fun n => ⟨minimal_ofNat n, value_ofNat n⟩, ?_, ?_, ?_⟩
  · intro _ _ front whole
    have ⟨_, leftRead⟩ := Option.isSome_iff_exists.1 front
    have ⟨_, rightRead⟩ := Option.isSome_iff_exists.1 whole
    exact Rlp.decode_append leftRead rightRead
  · intro kr _ tx _ privkey _ raw _ signed otherSigned typed otherTyped int equal
    exact same_of_unsigned (signtx_eq_some signed).1 (signtx_eq_some otherSigned).1 typed
      otherTyped int equal
  intro _ _ _ _ signed typed int
  have accepted := (signtx_eq_some signed).1
  have ⟨sig, signature, width, written⟩ := signtx_signed signed typed
  rw [written] at int
  refine ⟨sig, signature, width, chainv_eq _ typed.chainid, written, ?_⟩
  rw [written]
  exact decode_signed accepted typed width int

/-- A key ring with one hash and one signature. -/
def plainring : Keyring where
  keccak256 _ := List.replicate 32 7
  length_keccak256 _ := List.length_replicate
  secp256k1_sign _ _ := some (List.replicate 65 1)
  ed25519_sign _ _ := none

/-- A transfer of 1000 wei, the amount with a zero in front. -/
def transfer : EthTx where
  nonce := 0
  gasprice := 1000000000
  gaslimit := 21000
  dst := List.replicate 20 17
  value := [0, 3, 232]
  data := []
  chainid := 2147483647

theorem encodings_canonical_transfer :
    Rlp.decode (rlpencode_list [rlpencode_bytes [99, 97, 116], rlpencode_uint 1024]) =
      some (.list [.string [99, 97, 116], number 1024]) ∧
    transfer.Same { transfer with value := [3, 232] } ∧
    chainv 1 2147483647 = 4294967330 := by
  have accepted : ∀ tx : EthTx, tx = transfer ∨ tx = { transfer with value := [3, 232] } →
      ∃ raw, signtx plainring tx (List.replicate 32 9) = some raw ∧ raw.length < 2 ^ 31 ∧
        tx.unsigned = transfer.unsigned ∧ tx.unsigned.length < 2 ^ 31 ∧ tx.Typed := by
    rintro tx (rfl | rfl)
    · exact ⟨_, rfl, by decide +kernel, rfl, by decide +kernel,
        ⟨by decide, by decide, by decide, by decide⟩⟩
    · exact ⟨_, rfl, by decide +kernel, by decide +kernel, by decide +kernel,
        ⟨by decide, by decide, by decide, by decide⟩⟩
  have ⟨raw, signed, length, _, int, typed⟩ := accepted transfer (Or.inl rfl)
  have ⟨raw', signed', _, same, _, typed'⟩ := accepted _ (Or.inr rfl)
  refine ⟨encodings_canonical.1 (.list [.bytes [99, 97, 116], .uint 1024]) ?_,
    encodings_canonical.2.2.2.1 plainring plainring _ _ _ _ raw raw' signed signed' typed typed'
      int same.symm, ?_⟩
  · exact ⟨by decide +kernel, show 3 < 2 ^ 31 by decide, ⟨by decide, by decide⟩, trivial⟩
  have ⟨_, signature, _, sum, _⟩ :=
    encodings_canonical.2.2.2.2 plainring transfer _ raw signed typed length
  cases signature
  exact sum

end Infernode.Ethcrypto
