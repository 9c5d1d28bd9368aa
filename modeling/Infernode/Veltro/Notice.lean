import Infernode.Veltro.Msg9p

/-!
The notifications of `appl/veltro/msg9p.b`.

Owns: the verdict on a message, and the text that a notification becomes.
-/

namespace Infernode.Msg9p

open Text Strings

def FUNREAD : Nat := 1
def FFLAGGED : Nat := 2
def FURGENT : Nat := 4

/-- The fields of a `Message` that a notification is made of. -/
structure Message where
  id : Str
  sender : Str
  recipient : Str
  subject : Str
  body : Str
  timestamp : Str
  flags : Int
  headers : Str
deriving DecidableEq, Repr

structure Notification where
  kind : Str
  msg : Option Message
  detail : Str
deriving DecidableEq, Repr

/-! ### The verdict -/

/-- `flags & f`, for a power of two. -/
def isset (flags : Int) (f : Nat) : Bool := flags / f % 2 == 1

def hassub (hay needle : Str) : Bool :=
  !(needle.isEmpty || decide (hay.length < needle.length)) &&
    (List.range (hay.length - needle.length + 1)).any fun i =>
      (hay.drop i).take needle.length == needle

def isbulk (m : Message) : Bool :=
  let h := tolower m.headers
  if hassub h (str "list-unsubscribe") || hassub h (str "precedence: bulk") ||
      hassub h (str "precedence:bulk") || hassub h (str "auto-submitted") then true
  else
    let s := tolower m.sender
    hassub s (str "no-reply") || hassub s (str "noreply") || hassub s (str "donotreply") ||
      hassub s (str "newsletter") || hassub s (str "notifications@") ||
      hassub s (str "mailer-daemon")

def triageverdict (m : Message) : Str :=
  if isset m.flags FURGENT then str "preempt"
  else if isbulk m then str "ignore"
  else if isset m.flags FFLAGGED then str "wake"
  else if isset m.flags FUNREAD && m.sender != [] then str "wake"
  else str "context"

/-! ### The text -/

def clean (c : Nat) : Nat := if c < 32 ∨ c = 0x7F then 32 else c

def cleanfield (s : Str) : Str := s.map clean

def previewfield (s : Str) (max : Nat) : Str :=
  (s.take max).map clean ++ if max < s.length then str "..." else []

/-- A line that is left out when the field is empty. -/
def fieldline (name field value : Str) : Str :=
  if field = [] then [] else name ++ value ++ [10]

def formatnotification (srcname : Str) (n : Notification) : Str :=
  if n.kind = str "error" then
    str "[Message error — " ++ cleanfield srcname ++ str "]\nDetail: " ++ cleanfield n.detail
  else
    match n.msg with
    | none =>
      str "[Message " ++ cleanfield n.kind ++ str " — " ++ cleanfield srcname ++ str "]"
    | some m =>
      str "[Message notification — " ++ cleanfield srcname ++ str "]\n" ++
        (str "Triage: " ++ triageverdict m ++ str "\n") ++
        fieldline (str "From: ") m.sender (cleanfield m.sender) ++
        fieldline (str "To: ") m.recipient (cleanfield m.recipient) ++
        fieldline (str "Subject: ") m.subject (cleanfield m.subject) ++
        fieldline (str "Date: ") m.timestamp (cleanfield m.timestamp) ++
        fieldline (str "Preview: ") m.body (previewfield m.body 200) ++
        (str "Message ID: " ++ cleanfield m.id ++ str "\n") ++
        str "---\n" ++
        (str "Handle this per your message policy. Draft via /mnt/msg/draft, " ++
          str "flag via /mnt/msg/flag; the full body (when needed) is in the depth mount.")

/-! ### The reply to a read -/

def IOHDRSZ : Nat := 24
def MAXFDATA : Nat := 8192
def MAXRPC : Nat := IOHDRSZ + MAXFDATA

/-- A notification that a read of `notify` is answered with: the read was parked when it came, or
it was in the queue when the read came. -/
structure Arrival where
  parked : Bool
  text : Str
deriving DecidableEq, Repr

/-- The data of the reply, unless it is an error. A parked read is answered with the whole text,
and a reply that is longer than a message does not fit. -/
def rread (count offset : Nat) (arrival : Arrival) : Option (List Nat) :=
  let data := Lib9.cvtca arrival.text
  if arrival.parked then if MAXRPC < 11 + data.length then none else some data
  else some ((data.drop offset).take count)

end Infernode.Msg9p
