import Infernode.Text.Tokens
import Infernode.Text.Lines
import Infernode.Text.Decimal

/-!
The second-factor slots of `appl/lib/twofaslot.b`.

Owns: the text of a slot file and `readslot`, `listslots`, `frontload`, `unlock`, `writeslots`,
`enroll`, `addkey`, `removeslots` and `disable`, with every failure of a step as an answer of the
world; that a slot file is read back as it was written; and what a part of one can open.

Does not own: the cipher, the key derivations and the security key, which are parameters; the
coding of a file in bytes, which are taken for its characters; a slot name that is no file name.
-/

namespace Infernode.Twofaslot

open Text List

abbrev Bytes := List UInt8

/-! ### Hexadecimal -/

def hexc (v : Nat) : Nat := if v < 10 then v + 48 else v - 10 + 97

def tohex (a : Bytes) : Str := a.flatMap fun b => [hexc (b.toNat / 16), hexc (b.toNat % 16)]

def hexv (c : Nat) : Option Nat :=
  if 48 ≤ c ∧ c ≤ 57 then some (c - 48)
  else if 97 ≤ c ∧ c ≤ 102 then some (c - 97 + 10)
  else if 65 ≤ c ∧ c ≤ 70 then some (c - 65 + 10)
  else none

def hexbytes : Str → Option Bytes
  | [] => some []
  | [_] => none
  | hi :: lo :: s =>
    match hexv hi, hexv lo with
    | some hi, some lo => (hexbytes s).map fun a => UInt8.ofNat (16 * hi + lo) :: a
    | _, _ => none

def fromhex (s : Str) : Option Bytes := if s = [] then none else hexbytes s

/-! ### Slot files -/

structure Slot where
  kind : Str
  cred : Str
  salt : Str
  wrap : Option Bytes
deriving DecidableEq

def wordsep (c : Nat) : Bool := c == 32 || c == 9

def setfield (s : Slot) (line : Str) : Slot :=
  match tokens wordsep line with
  | [] => s
  | f :: rest =>
    if f = str "kind" then { s with kind := rest.headD [] }
    else if f = str "cred" then { s with cred := rest.headD [] }
    else if f = str "salt" then { s with salt := rest.headD [] }
    else if f = str "wrap" then { s with wrap := fromhex (rest.headD []) }
    else s

def parseslot (text : Str) : Slot := (tokens (· == 10) text).foldl setfield ⟨[], [], [], none⟩

def readslot (content : Str) : Option Slot :=
  if content = [] then none else some (parseslot (content.take 16384))

def slottext (kind cred salt : Str) (wrap : Bytes) : Str :=
  ofLines 10 [str "kind " ++ kind, str "cred " ++ cred, str "salt " ++ salt,
    str "wrap " ++ tohex wrap]

/-- The files of the slot directory, by name. -/
abbrev Files := List (Str × Str)

/-- The slots in the order of the directory, last first. -/
def listslots (listing : Files) : List Slot :=
  (listing.filterMap fun f => (readslot f.2).filter fun s => s.kind ≠ []).reverse

/-- A file is created or truncated, and written. -/
def create (files : Files) (name content : Str) : Files :=
  files.filter (fun f => f.1 ≠ name) ++ [(name, content)]

/-! ### Services and answers -/

/-- The cipher, the derivations of keys, and what a security key answers to a credential, a salt
and a pin. -/
structure Services where
  mkfilekey3 : Str → Str → Bytes
  mkfilekey2 : Str → Bytes
  mkfilekey : Str → Bytes
  mkkek2fa : Bytes → Bytes → Bytes
  encrypt3 : Nat → Bytes → Bytes → Option Bytes
  decrypt3 : Bytes → Bytes → Option Bytes → Option Bytes → Option Bytes
  derive : Str → Bytes → Str → Option Bytes

inductive Fate
  | refused
  | short (n : Nat)
  | written

/-- How the steps of a call go: which files `is2fa` and `unlock` get to see, what `derive`
answers, the random numbers, how the files and directories fare, and the file store. -/
structure World where
  marked : Files
  listing : Files
  ans : Str → Bytes → Str → Except Str Bytes
  coins : Nat → Nat
  random : Option Bytes
  mkdir : Bool
  fate : Nat → Fate
  stuck : Str → Bool
  connect : Option Str
  read : Bool
  put : Bool
  stored : Bool
  errstr : Str

/-- The stored `factotum` file, and the slot directory. -/
structure Account where
  blob : Option Bytes
  files : Files

/-! ### `unlock` -/

def contains (s sub : Str) : Bool := decide (sub <:+: s)

def ispinerr (e : Str) : Bool :=
  contains e (str "PIN_INVALID") || contains e (str "PIN_AUTH_INVALID") ||
    contains e (str "PIN_BLOCKED") || contains e (str "PIN_AUTH_BLOCKED") ||
    contains e (str "UV_BLOCKED")

def lastgoodname : Str := str ".lastgood"

def isTrailing (c : Nat) : Bool := c == 10 || c == 13 || c == 32

def readlastgood (files : Files) : Str :=
  match files.find? (fun f => f.1 = lastgoodname) with
  | none => []
  | some f => ((f.2.take 512).reverse.dropWhile isTrailing).reverse

def writelastgood (files : Files) (cred : Str) : Files := create files lastgoodname (cred ++ [10])

def frontload (slots : List Slot) (cred : Str) : List Slot :=
  if cred = [] then slots
  else
    match slots.find? (fun s => s.kind = str "key" ∧ s.cred = cred) with
    | none => slots
    | some m => m :: slots.erase m

inductive Try
  | skip
  | failed (err : Str) (stop : Bool)
  | opened (DK : Bytes)

section Calls

variable (sv : Services)

def trykey (ans : Str → Bytes → Str → Except Str Bytes) (rootkey : Bytes) (pin : Str)
    (s : Slot) : Try :=
  if s.kind ≠ str "key" then .skip
  else
    match s.wrap with
    | none => .skip
    | some wrap =>
      match (fromhex s.salt).filter fun salt => salt.length = 32 with
      | none => .failed (str "bad salt in slot") false
      | some salt =>
        match ans s.cred salt pin with
        | .error e => .failed e (ispinerr e)
        | .ok R =>
          if R = [] then .failed (str "empty derive result") false
          else
            match sv.decrypt3 wrap (sv.mkkek2fa rootkey R) none none with
            | some DK => .opened DK
            | none => .failed (str "slot wrap did not decrypt with derived key") false

def trykeys (ans : Str → Bytes → Str → Except Str Bytes) (rootkey : Bytes) (pin : Str) :
    List Slot → Str → Except Str (Bytes × Str)
  | [], lastderr => .error lastderr
  | s :: slots, lastderr =>
    match trykey sv ans rootkey pin s with
    | .skip => trykeys ans rootkey pin slots lastderr
    | .failed err stop => if stop then .error err else trykeys ans rootkey pin slots err
    | .opened DK => .ok (DK, s.cred)

def tryrecovery (user recoverypass : Str) (s : Slot) : Option Bytes :=
  if s.kind ≠ str "recovery" then none
  else s.wrap.bind fun wrap => sv.decrypt3 wrap (sv.mkfilekey3 user recoverypass) none none

def unlock (ans : Str → Bytes → Str → Except Str Bytes) (listing files : Files) (user : Str)
    (rootkey : Bytes) (recoverypass pin : Str) : Except Str Bytes × Files :=
  if listslots listing = [] then (.error (str "account has no 2fa slots"), files)
  else
    match trykeys sv ans rootkey pin (frontload (listslots listing) (readlastgood files)) [] with
    | .ok (DK, cred) => (.ok DK, writelastgood files cred)
    | .error lastderr =>
      match (if recoverypass = [] then none
        else (frontload (listslots listing) (readlastgood files)).findSome?
          (tryrecovery sv user recoverypass)) with
      | some DK => (.ok DK, files)
      | none =>
        (.error (if lastderr ≠ [] then str "security key: " ++ lastderr
          else str "no slot could unlock (key absent or wrong recovery passphrase)"), files)

/-! ### `writeslots` -/

def buildkey (w : World) (rootkey DK : Bytes) (pin : Str) (i : Nat) :
    Str × Str × Str → Except Str (Str × Str)
  | (name, credhex, salthex) =>
    match (fromhex salthex).filter fun salt => salt.length = 32 with
    | none => .error (str "bad salt for slot " ++ name)
    | some salt =>
      match w.ans credhex salt pin with
      | .error e => .error (str "derive " ++ name ++ str ": " ++ e)
      | .ok R =>
        match sv.encrypt3 (w.coins i) DK (sv.mkkek2fa rootkey R) with
        | none => .error (str "wrap " ++ name ++ str " failed")
        | some wrap =>
          if sv.decrypt3 wrap (sv.mkkek2fa rootkey R) none none ≠ some DK then
            .error (str "verify " ++ name ++ str " failed")
          else .ok (name, slottext (str "key") credhex salthex wrap)

def buildkeys (w : World) (rootkey DK : Bytes) (pin : Str) :
    Nat → List (Str × Str × Str) → List (Str × Str) → Except Str (List (Str × Str))
  | _, [], recs => .ok recs
  | i, key :: keys, recs =>
    match buildkey sv w rootkey DK pin i key with
    | .error e => .error e
    | .ok slot => buildkeys w rootkey DK pin (i + 1) keys (slot :: recs)

def buildrecovery (w : World) (user recoverypass : Str) (DK : Bytes) (i : Nat) :
    Except Str (Str × Str) :=
  match sv.encrypt3 (w.coins i) DK (sv.mkfilekey3 user recoverypass) with
  | none => .error (str "wrap recovery failed")
  | some wrap =>
    if sv.decrypt3 wrap (sv.mkfilekey3 user recoverypass) none none ≠ some DK then
      .error (str "verify recovery failed")
    else .ok (str "recovery", slottext (str "recovery") (str "-") (str "-") wrap)

def buildslots (w : World) (user : Str) (rootkey DK : Bytes) (keys : List (Str × Str × Str))
    (recoverypass pin : Str) : Except Str (List (Str × Str)) :=
  match buildkeys sv w rootkey DK pin 0 keys [] with
  | .error e => .error e
  | .ok recs =>
    if recoverypass = [] then .ok recs
    else
      match buildrecovery sv w user recoverypass DK keys.length with
      | .error e => .error e
      | .ok slot => .ok (slot :: recs)

/-- `Slotbase`, and the slot directory of a user. -/
def slotdir (user : Str) : Str := str "/usr/inferno/secstore/" ++ user ++ str "/2fa"

/-- The slots are written one by one, until one fails. -/
def writerecs (w : World) (dir : Str) :
    Nat → List (Str × Str) → Files → Files × Option Str
  | _, [], files => (files, none)
  | i, (name, content) :: recs, files =>
    match w.fate i with
    | .refused =>
      (files, some (str "create " ++ dir ++ 47 :: name ++ str ": " ++ w.errstr))
    | .short n =>
      (create files name (content.take n),
        some (str "write " ++ dir ++ 47 :: name ++ str ": " ++ w.errstr))
    | .written => writerecs w dir (i + 1) recs (create files name content)

def writeslots (w : World) (files : Files) (user : Str) (rootkey DK : Bytes)
    (keys : List (Str × Str × Str)) (recoverypass pin : Str) : Files × Option Str :=
  match buildslots sv w user rootkey DK keys recoverypass pin with
  | .error e => (files, some e)
  | .ok recs =>
    if recs = [] then (files, some (str "no slots requested"))
    else if w.mkdir = false then
      (files, some (str "create " ++ slotdir user ++ str ": " ++ w.errstr))
    else writerecs w (slotdir user) 0 recs files

/-! ### The calls -/

def removeslots (w : World) (files : Files) : Files := files.filter fun f => w.stuck f.1

def enroll (w : World) (a : Account) (user pass recoverypass : Str)
    (keys : List (Str × Str × Str)) (pin : Str) : Account × Option Str :=
  match w.connect with
  | some diag => (a, some (str "secstore connect: " ++ diag))
  | none =>
    match (match (if w.read then a.blob else none) with
      | none => some []
      | some file => sv.decrypt3 file (sv.mkfilekey3 user pass) (some (sv.mkfilekey2 pass))
          (some (sv.mkfilekey pass))) with
    | none => (a, some (str "wrong password (cannot decrypt current factotum)"))
    | some plaintext =>
      match w.random.filter fun DK => DK.length = 32 with
      | none => (a, some (str "cannot generate data key"))
      | some DK =>
        match (sv.encrypt3 (w.coins keys.length.succ) plaintext DK).filter fun newfile =>
          sv.decrypt3 newfile DK none none = some plaintext with
        | none => (a, some (str "re-encrypt verification failed"))
        | some newfile =>
          match writeslots sv w a.files user (sv.mkfilekey3 user pass) DK keys
            recoverypass pin with
          | (files, some err) => (⟨a.blob, files⟩, some (str "writeslots: " ++ err))
          | (files, none) =>
            if w.put then (⟨if w.stored then some newfile else a.blob, files⟩, none)
            else
              (⟨if w.stored then some newfile else a.blob, removeslots w files⟩,
                some (str "putfile factotum failed (rolled back): " ++ w.errstr))

def addkey (w : World) (a : Account) (user pass recoverypass cred salthex newpin : Str) :
    Account × Option Str :=
  if recoverypass = [] then (a, some (str "addkey needs the recovery passphrase"))
  else
    match unlock sv w.ans w.listing a.files user (sv.mkfilekey3 user pass) recoverypass [] with
    | (.error e, files) =>
      (⟨a.blob, files⟩, some (str "cannot unlock with the recovery passphrase: " ++ e))
    | (.ok DK, files) =>
      let wrote := writeslots sv w files user (sv.mkfilekey3 user pass) DK
        [(str "key-" ++ cred.take 16, cred, salthex)] [] newpin
      (⟨a.blob, wrote.1⟩, wrote.2)

def disable (w : World) (a : Account) (user pass recoverypass pin : Str) :
    Account × Option Str :=
  if listslots w.marked = [] then (a, none)
  else
    match unlock sv w.ans w.listing a.files user (sv.mkfilekey3 user pass) recoverypass pin with
    | (.error e, files) =>
      (⟨a.blob, files⟩, some (str "cannot recover data key to disable: " ++ e))
    | (.ok DK, files) =>
      match w.connect with
      | some diag => (⟨a.blob, files⟩, some (str "secstore connect: " ++ diag))
      | none =>
        match if w.read then a.blob else none with
        | none => (⟨a.blob, files⟩, some (str "no factotum blob to revert"))
        | some file =>
          match sv.decrypt3 file DK none none with
          | none => (⟨a.blob, files⟩, some (str "decrypt factotum with data key failed"))
          | some plaintext =>
            match (sv.encrypt3 (w.coins 0) plaintext (sv.mkfilekey3 user pass)).filter
              fun newfile => sv.decrypt3 newfile (sv.mkfilekey3 user pass) none none =
                some plaintext with
            | none => (⟨a.blob, files⟩, some (str "re-encrypt to password failed"))
            | some newfile =>
              if w.put then
                (⟨if w.stored then some newfile else a.blob, removeslots w files⟩, none)
              else (⟨if w.stored then some newfile else a.blob, files⟩,
                some (str "putfile factotum failed: " ++ w.errstr))

end Calls

/-! ### What is read of a slot file -/

theorem hexv_hexc {v : Nat} (small : v < 16) : hexv (hexc v) = some v := by
  have each : ∀ v < 16, hexv (hexc v) = some v := by decide
  exact each v small

theorem hexbytes_tohex_cons (b : UInt8) (s : Str) :
    hexbytes (hexc (b.toNat / 16) :: hexc (b.toNat % 16) :: s) =
      (hexbytes s).map fun a => b :: a := by
  have size := b.toNat_lt
  have joined : UInt8.ofNat (16 * (b.toNat / 16) + b.toNat % 16) = b := by
    rw [Nat.div_add_mod, UInt8.ofNat_toNat]
  show (match hexv (hexc (b.toNat / 16)), hexv (hexc (b.toNat % 16)) with
    | some hi, some lo => (hexbytes s).map fun a => UInt8.ofNat (16 * hi + lo) :: a
    | _, _ => none) = _
  rw [hexv_hexc (by omega), hexv_hexc (by omega)]
  show (hexbytes s).map (fun a => UInt8.ofNat (16 * (b.toNat / 16) + b.toNat % 16) :: a) = _
  rw [joined]

theorem tohex_cons (b : UInt8) (a : Bytes) :
    tohex (b :: a) = hexc (b.toNat / 16) :: hexc (b.toNat % 16) :: tohex a := rfl

theorem hexbytes_tohex (a : Bytes) : hexbytes (tohex a) = some a := by
  induction a with
  | nil => rfl
  | cons _ _ ih => rw [tohex_cons, hexbytes_tohex_cons, ih]; rfl

variable {a : Bytes}

theorem fromhex_tohex (nonempty : a ≠ []) : fromhex (tohex a) = some a := by
  obtain ⟨_, _, rfl⟩ := exists_cons_of_ne_nil nonempty
  exact (if_neg (cons_ne_nil _ _)).trans (hexbytes_tohex _)

variable {w : Bytes} {u v f : Str}

theorem hexbytes_prefix (part : u <+: tohex a) (read : hexbytes u = some w) : w <+: a := by
  induction a generalizing u w with
  | nil =>
    rw [prefix_nil.1 part] at read
    rw [← Option.some.inj read]
  | cons _ _ ih =>
    rw [tohex_cons] at part
    match u with
    | [] =>
      rw [← Option.some.inj read]
      exact nil_prefix
    | [_] => cases read
    | hi :: lo :: u =>
      have ⟨first, behind⟩ := cons_prefix_cons.1 part
      have ⟨second, digits⟩ := cons_prefix_cons.1 behind
      rw [first, second, hexbytes_tohex_cons] at read
      obtain ⟨_, readRest, rfl⟩ := Option.map_eq_some_iff.1 read
      exact cons_prefix_cons.2 ⟨rfl, ih digits readRest⟩

theorem fromhex_prefix (part : u <+: tohex a) (read : fromhex u = some w) : w <+: a := by
  unfold fromhex at read
  split at read
  · cases read
  · exact hexbytes_prefix part read

def Word (s : Str) : Prop := ∀ c ∈ s, wordsep c = false ∧ c ≠ 10

instance (s : Str) : Decidable (Word s) := inferInstanceAs (Decidable (∀ c ∈ s, _))

theorem word_tohex (a : Bytes) : Word (tohex a) := by
  have digit : ∀ v < 16, wordsep (hexc v) = false ∧ hexc v ≠ 10 := by decide
  intro _ member
  have ⟨b, _, here⟩ := mem_flatMap.1 member
  have size := b.toNat_lt
  rcases mem_pair.1 here with rfl | rfl
  · exact digit _ (by omega)
  · exact digit _ (by omega)

theorem tokens_word (word : Word v) : (tokens wordsep v).headD [] = v := by
  by_cases empty : v = []
  · rw [empty]
    rfl
  · rw [tokens_eq_singleton empty fun c member => (word c member).1]
    rfl

/-- A field of a slot file is the first word and the next. -/
theorem tokens_field (nonempty : f ≠ []) (wordF : Word f) :
    tokens wordsep (f ++ 32 :: v) = f :: tokens wordsep v := by
  rw [tokens_append_delim (by rfl), tokens_eq_singleton nonempty fun c member => (wordF c member).1]
  rfl

theorem setfield_kind (s : Slot) (word : Word v) :
    setfield s (str "kind " ++ v) = { s with kind := v } := by
  have split : tokens wordsep (str "kind" ++ 32 :: v) = str "kind" :: tokens wordsep v :=
    tokens_field (by decide) (by decide)
  unfold setfield
  rw [show str "kind " ++ v = str "kind" ++ 32 :: v from rfl, split]
  show (if str "kind" = str "kind" then _ else _) = _
  rw [if_pos rfl, tokens_word word]

theorem setfield_cred (s : Slot) (word : Word v) :
    setfield s (str "cred " ++ v) = { s with cred := v } := by
  have split : tokens wordsep (str "cred" ++ 32 :: v) = str "cred" :: tokens wordsep v :=
    tokens_field (by decide) (by decide)
  unfold setfield
  rw [show str "cred " ++ v = str "cred" ++ 32 :: v from rfl, split]
  show (if str "cred" = str "kind" then _ else if str "cred" = str "cred" then _ else _) = _
  rw [if_neg (by decide), if_pos rfl, tokens_word word]

theorem setfield_salt (s : Slot) (word : Word v) :
    setfield s (str "salt " ++ v) = { s with salt := v } := by
  have split : tokens wordsep (str "salt" ++ 32 :: v) = str "salt" :: tokens wordsep v :=
    tokens_field (by decide) (by decide)
  unfold setfield
  rw [show str "salt " ++ v = str "salt" ++ 32 :: v from rfl, split]
  show (if str "salt" = str "kind" then _ else if str "salt" = str "cred" then _
    else if str "salt" = str "salt" then _ else _) = _
  rw [if_neg (by decide), if_neg (by decide), if_pos rfl, tokens_word word]

theorem setfield_wrapline (s : Slot) (word : Word v) :
    setfield s (str "wrap " ++ v) = { s with wrap := fromhex v } := by
  have split : tokens wordsep (str "wrap" ++ 32 :: v) = str "wrap" :: tokens wordsep v :=
    tokens_field (by decide) (by decide)
  unfold setfield
  rw [show str "wrap " ++ v = str "wrap" ++ 32 :: v from rfl, split]
  show (if str "wrap" = str "kind" then _ else if str "wrap" = str "cred" then _
    else if str "wrap" = str "salt" then _ else if str "wrap" = str "wrap" then _ else _) = _
  rw [if_neg (by decide), if_neg (by decide), if_neg (by decide), if_pos rfl, tokens_word word]

/-- Only a line that begins with the word `wrap` sets what is wrapped. -/
theorem setfield_wrap (s : Slot) (line : Str) :
    (setfield s line).wrap = s.wrap ∨
      ∃ rest, tokens wordsep line = str "wrap" :: rest ∧
        (setfield s line).wrap = fromhex (rest.headD []) := by
  unfold setfield
  split
  · exact Or.inl rfl
  rename_i f rest split
  rw [split]
  split_ifs with kind cred salt wrap
  · exact Or.inl rfl
  · exact Or.inl rfl
  · exact Or.inl rfl
  · exact Or.inr ⟨rest, by rw [wrap], rfl⟩
  · exact Or.inl rfl

section Texts

variable {kind cred salt : Str} {wrap : Bytes}

theorem word_field (wordF : Word f) (wordV : Word v) : 10 ∉ f ++ 32 :: v := by
  intro member
  rcases mem_append.1 member with inF | later
  · exact (wordF 10 inF).2 rfl
  · rcases mem_cons.1 later with same | inV
    · cases same
    · exact (wordV 10 inV).2 rfl

theorem slottext_lines (wordKind : Word kind) (wordCred : Word cred) (wordSalt : Word salt) :
    ∀ line ∈ [str "kind " ++ kind, str "cred " ++ cred, str "salt " ++ salt,
      str "wrap " ++ tohex wrap], 10 ∉ line := by
  intro _ member
  simp only [mem_cons, not_mem_nil, or_false] at member
  rcases member with rfl | rfl | rfl | rfl
  · exact word_field (f := str "kind") (by decide) wordKind
  · exact word_field (f := str "cred") (by decide) wordCred
  · exact word_field (f := str "salt") (by decide) wordSalt
  · exact word_field (f := str "wrap") (by decide) (word_tohex wrap)

/-- A slot file is read back as it was written. -/
theorem parseslot_slottext (wordKind : Word kind) (wordCred : Word cred) (wordSalt : Word salt)
    (nonempty : wrap ≠ []) :
    parseslot (slottext kind cred salt wrap) = ⟨kind, cred, salt, some wrap⟩ := by
  have single : ∀ line ∈ [str "kind " ++ kind, str "cred " ++ cred, str "salt " ++ salt,
      str "wrap " ++ tohex wrap], tokens (· == 10) line = [line] := by
    intro line member
    have clean := slottext_lines wordKind wordCred wordSalt line member
    apply tokens_eq_singleton
    · simp only [mem_cons, not_mem_nil, or_false] at member
      rcases member with rfl | rfl | rfl | rfl <;> exact cons_ne_nil _ _
    intro _ inLine
    rw [beq_eq_false_iff_ne]
    rintro rfl
    exact clean inLine
  have lines : tokens (· == 10) (slottext kind cred salt wrap) =
      [str "kind " ++ kind, str "cred " ++ cred, str "salt " ++ salt,
        str "wrap " ++ tohex wrap] := by
    unfold slottext ofLines
    rw [tokens_flatMap_concat (by rfl), flatMap_congr single]
    rfl
  unfold parseslot
  rw [lines]
  simp only [foldl_cons, foldl_nil]
  rw [setfield_kind _ wordKind, setfield_cred _ wordCred, setfield_salt _ wordSalt,
    setfield_wrapline _ (word_tohex wrap), fromhex_tohex nonempty]

variable {t part : Str} {c : Nat}

theorem mem_tokens_prefix {lines : List Str} (clean : ∀ line ∈ lines, 10 ∉ line)
    (cut : t <+: ofLines 10 lines) (member : part ∈ tokens (· == 10) t) :
    ∃ line ∈ lines, part <+: line := by
  have whole : ∀ line : Str, 10 ∉ line → part ∈ tokens (· == 10) line → part = line := by
    intro line noNewline here
    by_cases empty : line = []
    · rw [empty, tokens_nil] at here
      cases here
    rw [tokens_eq_singleton empty] at here
    · exact mem_singleton.1 here
    intro c inLine
    rw [beq_eq_false_iff_ne]
    rintro rfl
    exact noNewline inLine
  induction lines generalizing t with
  | nil =>
    rw [prefix_nil.1 cut, tokens_nil] at member
    cases member
  | cons line _ ih =>
    have cleanHere := clean line mem_cons_self
    rw [ofLines_cons] at cut
    rcases List.prefix_or_prefix_of_prefix cut (prefix_append line _) with inside | outside
    · have same := whole t (fun newline => cleanHere (inside.subset newline)) member
      exact ⟨line, mem_cons_self, by rw [same]; exact inside⟩
    obtain ⟨rest, rfl⟩ := outside
    have behind := (prefix_append_right_inj line).1 cut
    cases rest with
    | nil =>
      rw [append_nil] at member
      exact ⟨line, mem_cons_self, by rw [whole line cleanHere member]⟩
    | cons _ _ =>
      obtain ⟨rfl, others⟩ := cons_prefix_cons.1 behind
      rw [tokens_append_delim (by rfl)] at member
      rcases mem_append.1 member with here | later
      · exact ⟨line, mem_cons_self, by rw [whole line cleanHere here]⟩
      · have ⟨other, isLine, front⟩ := ih
          (forall_mem_cons.1 clean).2 others later
        exact ⟨other, mem_cons_of_mem _ isLine, front⟩

/-- The first word of a text begins as the text does. -/
theorem tokens_head (notSep : wordsep c = false) (rest : Str) :
    ∃ word words, tokens wordsep (c :: rest) = (c :: word) :: words := by
  rcases takeWhile_cases (fun c => !wordsep c) rest with clean | ⟨left, stop, right, rfl, clean, sep⟩
  · refine ⟨rest, [], ?_⟩
    apply tokens_eq_singleton (cons_ne_nil _ _)
    intro d member
    rcases mem_cons.1 member with rfl | later
    · exact notSep
    · simpa using clean d later
  refine ⟨left, tokens wordsep right, ?_⟩
  rw [← cons_append, tokens_append_delim (by simpa using sep),
    tokens_eq_singleton (cons_ne_nil _ _)]
  · rfl
  intro d member
  rcases mem_cons.1 member with rfl | later
  · exact notSep
  · simpa using clean d later

/-- A part of a line that begins otherwise does not begin with the word `wrap`. -/
theorem not_wrap_of_front {line : Str} (notSep : wordsep c = false) (other : c ≠ 119)
    (front : part <+: c :: line) {rest : List Str}
    (split : tokens wordsep part = str "wrap" :: rest) : False := by
  cases part with
  | nil => cases split
  | cons _ part =>
    obtain ⟨rfl, _⟩ := cons_prefix_cons.1 front
    have ⟨_, _, shape⟩ := tokens_head notSep part
    rw [shape] at split
    exact other (List.cons.inj (List.cons.inj split).1).1

/-- Of a part of a slot file at most a part of what it wraps is read. -/
theorem parseslot_prefix (wordKind : Word kind) (wordCred : Word cred) (wordSalt : Word salt)
    (cut : t <+: slottext kind cred salt wrap) (read : (parseslot t).wrap = some w) :
    w <+: wrap := by
  have each : ∀ line ∈ tokens (· == 10) t, ∀ s : Slot,
      (∀ w, s.wrap = some w → w <+: wrap) →
        ∀ w, (setfield s line).wrap = some w → w <+: wrap := by
    intro line member s before w found
    rcases setfield_wrap s line with same | ⟨rest, split, sets⟩
    · rw [same] at found
      exact before w found
    rw [sets] at found
    have ⟨_, isLine, front⟩ :=
      mem_tokens_prefix (slottext_lines wordKind wordCred wordSalt) cut member
    simp only [mem_cons, not_mem_nil, or_false] at isLine
    rcases isLine with rfl | rfl | rfl | rfl
    · exact (not_wrap_of_front (by rfl) (by decide) front split).elim
    · exact (not_wrap_of_front (by rfl) (by decide) front split).elim
    · exact (not_wrap_of_front (by rfl) (by decide) front split).elim
    have front : line <+: str "wrap" ++ 32 :: tohex wrap := front
    rcases List.prefix_or_prefix_of_prefix front (prefix_append (str "wrap") _) with
      short | ⟨more, rfl⟩
    · have clean : ∀ c ∈ line, wordsep c = false := by
        intro c inLine
        have isLetter : ∀ c ∈ str "wrap", wordsep c = false := by decide
        exact isLetter c (short.subset inLine)
      have nonempty : line ≠ [] := by
        rintro rfl
        cases split
      rw [tokens_eq_singleton nonempty clean, List.cons.injEq] at split
      rw [← split.2] at found
      cases found
    · have behind := (prefix_append_right_inj (str "wrap")).1 front
      cases more with
      | nil =>
        rw [append_nil, tokens_eq_singleton (by decide) (by decide), List.cons.injEq]
          at split
        rw [← split.2] at found
        cases found
      | cons _ more =>
        obtain ⟨rfl, digits⟩ := cons_prefix_cons.1 behind
        have word : Word more := fun d inMore => word_tohex wrap d (digits.subset inMore)
        rw [tokens_field (by decide) (by decide), List.cons.injEq] at split
        rw [← split.2, tokens_word word] at found
        exact fromhex_prefix digits found
  have steps : ∀ lines : List Str, (∀ line ∈ lines, line ∈ tokens (· == 10) t) → ∀ s : Slot,
      (∀ w, s.wrap = some w → w <+: wrap) →
        ∀ w, (lines.foldl setfield s).wrap = some w → w <+: wrap := by
    intro lines
    induction lines with
    | nil => exact fun _ s before => before
    | cons line _ ih =>
      intro members s before
      exact ih (forall_mem_cons.1 members).2
        _ (each line (members line mem_cons_self) s before)
  have blank : ∀ w, (⟨[], [], [], none⟩ : Slot).wrap = some w → w <+: wrap := by
    intro w found
    cases found
  exact steps _ (fun line member => member) _ blank w read

end Texts

end Infernode.Twofaslot
