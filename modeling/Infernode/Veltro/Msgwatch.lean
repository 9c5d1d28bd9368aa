import Infernode.Veltro.Notice

/-!
`appl/veltro/msgwatch.b`.

Owns: the read of a notification, what is extracted from it, and what is asked of `msg9p` for it,
in the relaying and in the headless mode.
-/

namespace Infernode.Msgwatch

open Text Strings Msg9p

/-! ### The read -/

/-- `mntrdwr` of `emu/port/devmnt.c` for a read of `n` bytes: there are further requests while each
brings all that it asks for. A read that is not answered has not returned. -/
def mntrdwr : List Arrival → Nat → Nat → Option (List Nat)
  | [], _, _ => none
  | arrival :: later, n, off =>
    let nreq := min n MAXFDATA
    match rread nreq off arrival with
    | none => none
    | some reply =>
      let data := reply.take nreq
      if data.length ≠ nreq ∨ n = data.length then some data
      else (mntrdwr later (n - data.length) (off + data.length)).map (data ++ ·)

/-- The text of the bytes that were read, unless it is `nil`. -/
def textof (data : List Nat) : Option Str :=
  let s := Lib9.c2string data
  let s := if s.getLast? = some 10 then s.dropLast else s
  if s = [] then none else some s

def blockread (arrivals : List Arrival) : Option Str := (mntrdwr arrivals 65536 0).bind textof

/-! ### Extraction -/

/-- The value of the first line with the prefix. -/
def nfield (notif pre : Str) : Str :=
  match (notif.splitOn 10).find? fun line => hasprefix line pre with
  | some line => line.drop pre.length
  | none => []

def strindex (hay needle : Str) : Option Nat :=
  if needle.isEmpty || decide (hay.length < needle.length) then none
  else (List.range (hay.length - needle.length + 1)).find? fun i =>
    (hay.drop i).take needle.length == needle

def nsource (notif : Str) : Str :=
  match strindex notif (str "— ") with
  | none => []
  | some p =>
    let rest := notif.drop (p + 2)
    match strindex rest (str "]") with
    | none => []
    | some e => rest.take e

def safesrcname (s : Str) : Bool := Msg9p.safesrcname s

def safetoken (s : Str) : Bool := s != [] && s.all fun c => !(decide (c ≤ 32) || c == 0x7F)

def firstline (s : Str) : Str := s.takeWhile (· != 10)

def lastpart (id : Str) : Str := (id.reverse.takeWhile (· != 47)).reverse

def extractmsgid (notification : Str) : Option Str :=
  match (notification.splitOn 10).find? fun line => hasprefix line (str "Message ID: ") with
  | some line =>
    let id := line.drop (str "Message ID: ").length
    let tok := if id.contains 47 then lastpart id else id
    if safetoken tok then some tok else none
  | none => none

def extractsource (notification : Str) : Option Str :=
  let line := firstline notification
  match line.dropWhile (· != 0x2014) with
  | [] => none
  | _ :: rest =>
    let src := (rest.dropWhile (· == 32)).takeWhile (· != 93)
    if src != [] && safesrcname src then some src else none

/-! ### What is asked of msg9p -/

/-- A write to `ctl` or to `draft`. -/
inductive Ask where
  | ctl (cmd : Str)
  | draft (data : Str)
deriving DecidableEq, Repr

def flagseen (src id : Str) : Ask := .ctl (str "flag " ++ src ++ str " " ++ id ++ str " seen")

def markseen (src id : Str) : Option Ask :=
  if safesrcname src = false ∨ safetoken id = false then none else some (flagseen src id)

/-- The verdict that a notification is routed on, its source and what is asked for it. -/
structure Route where
  verdict : Str
  src : Str
  ask : Option Ask

/-- A round of `luciferloop`. -/
def relayed (notification : Str) : Route :=
  let verdict := nfield notification (str "Triage: ")
  let verdict := if verdict = [] then str "wake" else verdict
  let src := nsource notification
  let id := nfield notification (str "Message ID: ")
  ⟨verdict, src, if verdict = str "ignore" then markseen src id else none⟩

/-- The white space that `agentlib->strip` takes off. -/
def isWhite (c : Nat) : Bool := c == 32 || c == 9 || c == 10

def strip (s : Str) : Str := ((s.dropWhile isWhite).reverse.dropWhile isWhite).reverse

/-- What follows the first line, unless it is `nil`. -/
def extractdraft (response : Str) : Option Str :=
  match response.dropWhile (· != 10) with
  | [] => none
  | _ :: rest => if strip rest = [] then none else some (strip rest)

def handleclassification (response notification : Str) : Option Ask :=
  let lline := tolower (firstline response)
  let src := extractsource notification
  let msgid := extractmsgid notification
  if hasprefix lline (str "ignore") then
    match src, msgid with
    | some src, some msgid => some (flagseen src msgid)
    | _, _ => none
  else if hasprefix lline (str "decline") then
    match src, msgid with
    | some src, some msgid =>
      (extractdraft response).map fun draft => .draft (src ++ 10 :: (msgid ++ 10 :: draft))
    | _, _ => none
  else none

/-- A round of `headlessloop`. A source's error is not classified. -/
def headless (response notification : Str) : Option Ask :=
  if hasprefix notification (str "[Message error") then none
  else if response = [] then none
  else handleclassification response notification

end Infernode.Msgwatch
