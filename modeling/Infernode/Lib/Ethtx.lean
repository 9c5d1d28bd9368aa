import Infernode.Lib.Ethcrypto

/-!
The signed transactions of `appl/lib/ethcrypto.b`.

Owns: the RLP encoding of byte strings, numbers and lists, and `signtx`.
-/

namespace Infernode.Ethcrypto

open Bigendian

/-- What the code uses of the `Keyring` module. -/
structure Keyring where
  keccak256 : Bytes → Bytes
  length_keccak256 : ∀ message, (keccak256 message).length = 32
  secp256k1_sign : Bytes → Bytes → Option Bytes
  ed25519_sign : Bytes → Bytes → Option Bytes

structure EthTx where
  nonce : Int
  gasprice : Int
  gaslimit : Int
  dst : Bytes
  value : Bytes
  data : Bytes
  chainid : Int
deriving DecidableEq, Repr

def encodelen (n : Nat) : Bytes :=
  if n < 256 then [UInt8.ofNat n]
  else if n < 65536 then [UInt8.ofNat (n / 256), UInt8.ofNat n]
  else if n < 16777216 then [UInt8.ofNat (n / 65536), UInt8.ofNat (n / 256), UInt8.ofNat n]
  else [UInt8.ofNat (n / 16777216), UInt8.ofNat (n / 65536), UInt8.ofNat (n / 256), UInt8.ofNat n]

def rlpencode_bytes (s : Bytes) : Bytes :=
  if s.length = 1 ∧ s.all (· ≤ 0x7f) then s
  else if s.length ≤ 55 then UInt8.ofNat (0x80 + s.length) :: s
  else UInt8.ofNat (0xb7 + (encodelen s.length).length) :: encodelen s.length ++ s

def rlpencode_list (items : List Bytes) : Bytes :=
  let payload := items.flatten
  if payload.length ≤ 55 then UInt8.ofNat (0xc0 + payload.length) :: payload
  else UInt8.ofNat (0xf7 + (encodelen payload.length).length) ::
    encodelen payload.length ++ payload

/-- The number is not negative where this is used. -/
def rlpencode_uint (v : Int) : Bytes := if v = 0 then [0x80] else rlpencode_bytes (ofNat v.toNat)

def rlpencode_bigbe (b : Bytes) : Bytes :=
  if minimal b = [] then [0x80] else rlpencode_bytes (minimal b)

/-- The fields before the signature or the chain. -/
def EthTx.fields (tx : EthTx) : List Bytes :=
  [rlpencode_uint tx.nonce, rlpencode_uint tx.gasprice, rlpencode_uint tx.gaslimit,
    rlpencode_bytes tx.dst, rlpencode_bigbe (minimal tx.value), rlpencode_bytes tx.data]

def signtx (kr : Keyring) (tx : EthTx) (privkey : Bytes) : Option Bytes :=
  if privkey.length ≠ 32 then none
  else if tx.chainid ≤ 0 then none
  else if tx.nonce < 0 ∨ tx.gasprice < 0 ∨ tx.gaslimit ≤ 0 then none
  else if tx.dst.length ≠ 0 ∧ tx.dst.length ≠ 20 then none
  else if 32 < (minimal tx.value).length then none
  else
    let unsigned := rlpencode_list
      (tx.fields ++ [rlpencode_uint tx.chainid, rlpencode_uint 0, rlpencode_uint 0])
    match kr.secp256k1_sign privkey (kr.keccak256 unsigned) with
    | none => none
    | some sig =>
      if sig.length ≠ 65 then none
      else
        let v : Int := (sig.getD 64 0).toNat + tx.chainid * 2 + 35
        some (rlpencode_list (tx.fields ++
          [rlpencode_uint v, rlpencode_bigbe (sig.take 32),
            rlpencode_bigbe ((sig.drop 32).take 32)]))

end Infernode.Ethcrypto
