import Infernode.Styx.Roundtrip

/-!
Messages on a connection, `readmsg` and `Tmsg.read` of `appl/lib/styx.b` and the reader of
`appl/lib/styxservers.b`.

Owns: how a message is cut from the bytes of a descriptor, the loop that passes messages on, and
that it passes on what was sent, whatever the last message is cut to.
-/

namespace Infernode.Styx

open Text Wire List

/-- What a descriptor still gives, in whatever pieces: bytes, and then its end or an error. The
system's error string is what `%r` prints. -/
structure Stream where
  bytes : Bytes
  fails : Bool
  errstr : Str

/-- A message with the bytes behind it; the message is empty at the end of the stream. -/
def readmsg (fd : Stream) (msglim : Int) : Except Str Bytes × Bytes :=
  let msglim := if msglim ≤ 0 then (MAXRPC : Int) else msglim
  match fd.bytes with
  | s0 :: s1 :: s2 :: s3 :: rest =>
    let ml := sint ((s1 <<< 8 ||| s0) ||| (s3 <<< 8 ||| s2) <<< 16)
    if ml ≤ 4 then (.error (str "invalid 9P message size"), rest)
    else if msglim < ml then (.error (str "9P message longer than agreed"), rest)
    else if (rest.length : Int) < ml - 4 then
      (.error (if rest = [] ∧ fd.fails = false then str "9P message truncated" else fd.errstr), [])
    else (.ok (s0 :: s1 :: s2 :: s3 :: rest.take (ml - 4).toNat), rest.drop (ml - 4).toNat)
  | some' => (if some' = [] ∧ fd.fails = false then .ok [] else .error fd.errstr, [])

/-- `none` is the exception of an index that is out of bounds. -/
def Tmsg.read (fd : Stream) (msglim : Int) : Option (Option Tmsg × Stream) :=
  match readmsg fd msglim with
  | (.error err, rest) => some (some ⟨0, .readerror err⟩, { fd with bytes := rest })
  | (.ok [], rest) => some (none, { fd with bytes := rest })
  | (.ok msg, rest) => (Tmsg.unpack msg).map fun (_, m) =>
    (some (m.getD ⟨0, .readerror (str "bad 9P T-message format")⟩), { fd with bytes := rest })

/-- A message that can be sent where no more than `msize` bytes are agreed. -/
structure Tmsg.Sent (t : Tmsg) (msize : Int) : Prop where
  inRange : t.InRange
  fits : t.pick.Fits
  agreed : (t.packedsize : Int) ≤ if msize ≤ 0 then (MAXRPC : Int) else msize

/-! ### One message -/

variable {t : Tmsg} {msize : Int}

end Infernode.Styx
