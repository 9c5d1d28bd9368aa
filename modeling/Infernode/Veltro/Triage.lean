import Infernode.Veltro.Msgwatch
import Infernode.Veltro.Replies
import Infernode.Text.Lines

/-!
What a message makes of its notification.

Owns: the lines of a notification, what is extracted from a notification that is read, and for
which messages it is what `msg9p` says of the message.
-/

namespace Infernode.Msgwatch

open Text Strings Lib9 Msg9p List

/-! ### The lines of a notification -/

def headline (srcname : Str) : Str :=
  str "[Message notification — " ++ cleanfield srcname ++ str "]"

def lineOf (name field value : Str) : List Str := if field = [] then [] else [name ++ value]

def linesOf (srcname : Str) (m : Message) : List Str :=
  headline srcname :: (str "Triage: " ++ triageverdict m) ::
    (lineOf (str "From: ") m.sender (cleanfield m.sender) ++
      lineOf (str "To: ") m.recipient (cleanfield m.recipient) ++
      lineOf (str "Subject: ") m.subject (cleanfield m.subject) ++
      lineOf (str "Date: ") m.timestamp (cleanfield m.timestamp) ++
      lineOf (str "Preview: ") m.body (previewfield m.body 200))

def idline (m : Message) : Str := str "Message ID: " ++ cleanfield m.id

/-- What is written up to the end of the message id. -/
def upto (srcname : Str) (m : Message) : Str := ofLines 10 (linesOf srcname m) ++ idline m

def trailer : Str :=
  str "---\n" ++ (str "Handle this per your message policy. Draft via /mnt/msg/draft, " ++
    str "flag via /mnt/msg/flag; the full body (when needed) is in the depth mount.")

theorem trailer_plain : (∀ c ∈ trailer, c < 128) ∧ trailer.getLast? = some 46 ∧
    trailer.length = 141 := by decide +kernel

theorem ofLines_lineOf (name field value : Str) :
    ofLines 10 (lineOf name field value) = fieldline name field value := by
  unfold lineOf fieldline
  split
  · rfl
  · rw [ofLines_cons]
    rfl

variable {srcname s : Str} {m : Message}

theorem formatnotification_upto {n : Notification} (kind : n.kind ≠ str "error")
    (message : n.msg = some m) :
    formatnotification srcname n = upto srcname m ++ 10 :: trailer := by
  unfold formatnotification upto linesOf
  rw [if_neg kind, message]
  simp only [ofLines_cons, ofLines_append, ofLines_lineOf]
  unfold headline idline trailer
  simp [str]

/-! ### Fields -/

theorem clean_ne (c : Nat) : 31 < clean c ∧ clean c ≠ 0x7F := by
  unfold clean
  split
  · exact ⟨by decide, by decide⟩
  · omega

variable {c y : Nat} {line id : Str}

theorem mem_cleanfield (member : c ∈ cleanfield s) : 31 < c ∧ c ≠ 0x7F := by
  obtain ⟨d, -, rfl⟩ := mem_map.1 member
  exact clean_ne d

theorem mem_previewfield {max : Nat} (member : c ∈ previewfield s max) : 31 < c := by
  rcases mem_append.1 member with inside | dots
  · obtain ⟨d, -, rfl⟩ := mem_map.1 inside
    exact (clean_ne d).1
  split at dots
  · have dot : ∀ d ∈ str "...", 31 < d := by decide
    exact dot c dots
  · cases dots

theorem triageverdict_cases (m : Message) : triageverdict m = str "preempt" ∨
    triageverdict m = str "ignore" ∨ triageverdict m = str "wake" ∨
      triageverdict m = str "context" := by
  unfold triageverdict
  split
  · exact Or.inl rfl
  split
  · exact Or.inr (Or.inl rfl)
  split
  · exact Or.inr (Or.inr (Or.inl rfl))
  · split
    · exact Or.inr (Or.inr (Or.inl rfl))
    · exact Or.inr (Or.inr (Or.inr rfl))

theorem mem_triageverdict (member : c ∈ triageverdict m) : 31 < c ∧ c < 128 := by
  have plain : ∀ verdict ∈ [str "preempt", str "ignore", str "wake", str "context"],
      ∀ c ∈ verdict, 31 < c ∧ c < 128 := by decide
  apply plain (triageverdict m) ?_ c member
  simpa using triageverdict_cases m

theorem mem_lineOf {name field value : Str} (isLine : line ∈ lineOf name field value)
    (member : c ∈ line) : c ∈ name ∨ c ∈ value := by
  unfold lineOf at isLine
  split at isLine
  · cases isLine
  · rw [mem_singleton.1 isLine] at member
    exact mem_append.1 member

theorem mem_linesOf_cases (isLine : line ∈ linesOf srcname m) (member : c ∈ line) :
    (31 < c ∧ c < 0x2015) ∨ c ∈ previewfield m.body 200 ∨
      ∃ field ∈ [srcname, m.sender, m.recipient, m.subject, m.timestamp],
        c ∈ cleanfield field := by
  have own {name : Str} (plain : ∀ c ∈ name, 31 < c ∧ c < 0x2015) (inside : c ∈ name) :
      (31 < c ∧ c < 0x2015) ∨ c ∈ previewfield m.body 200 ∨
        ∃ field ∈ [srcname, m.sender, m.recipient, m.subject, m.timestamp],
          c ∈ cleanfield field := Or.inl (plain c inside)
  unfold linesOf at isLine
  simp only [mem_cons, mem_append] at isLine
  rcases isLine with rfl | rfl | (((inside | inside) | inside) | inside) | inside
  · rcases mem_append.1 member with member | last
    · rcases mem_append.1 member with first | inside
      · exact own (by decide) first
      · exact Or.inr (Or.inr ⟨srcname, by simp, inside⟩)
    · exact own (by decide) last
  · rcases mem_append.1 member with name | verdict
    · exact own (by decide) name
    · have plain := mem_triageverdict verdict
      exact Or.inl ⟨plain.1, by omega⟩
  · rcases mem_lineOf inside member with name | value
    · exact own (by decide) name
    · exact Or.inr (Or.inr ⟨m.sender, by simp, value⟩)
  · rcases mem_lineOf inside member with name | value
    · exact own (by decide) name
    · exact Or.inr (Or.inr ⟨m.recipient, by simp, value⟩)
  · rcases mem_lineOf inside member with name | value
    · exact own (by decide) name
    · exact Or.inr (Or.inr ⟨m.subject, by simp, value⟩)
  · rcases mem_lineOf inside member with name | value
    · exact own (by decide) name
    · exact Or.inr (Or.inr ⟨m.timestamp, by simp, value⟩)
  · rcases mem_lineOf inside member with name | value
    · exact own (by decide) name
    · exact Or.inr (Or.inl value)

theorem mem_linesOf (isLine : line ∈ linesOf srcname m) (member : c ∈ line) : 31 < c := by
  rcases mem_linesOf_cases isLine member with plain | body | ⟨field, -, inside⟩
  · exact plain.1
  · exact mem_previewfield body
  · exact (mem_cleanfield inside).1

theorem mem_idline (member : c ∈ idline m) : 31 < c := by
  rcases mem_append.1 member with name | inside
  · have graphic : ∀ c ∈ str "Message ID: ", 31 < c := by decide
    exact graphic c name
  · exact (mem_cleanfield inside).1

theorem unbroken (graphic : ∀ c ∈ line, 31 < c) : 10 ∉ line :=
  fun member => absurd (graphic 10 member) (by decide)

theorem notId_linesOf (isLine : line ∈ linesOf srcname m) :
    hasprefix line (str "Message ID: ") = false := by
  have other {name field value : Str} (differs : ∀ rest, hasprefix (name ++ rest)
      (str "Message ID: ") = false) (inside : line ∈ lineOf name field value) :
      hasprefix line (str "Message ID: ") = false := by
    unfold lineOf at inside
    split at inside
    · cases inside
    · rw [mem_singleton.1 inside]
      exact differs value
  unfold linesOf at isLine
  simp only [mem_cons, mem_append] at isLine
  rcases isLine with rfl | rfl | (((inside | inside) | inside) | inside) | inside
  · rfl
  · rfl
  · exact other (fun _ => rfl) inside
  · exact other (fun _ => rfl) inside
  · exact other (fun _ => rfl) inside
  · exact other (fun _ => rfl) inside
  · exact other (fun _ => rfl) inside

/-! ### Tokens -/

def token (m : Message) : Option Str := if safetoken m.id then some m.id else none

theorem mem_safetoken (safe : safetoken s = true) (member : c ∈ s) : 32 < c ∧ c ≠ 0x7F := by
  unfold safetoken at safe
  simp only [Bool.and_eq_true, all_eq_true, Bool.not_eq_true', Bool.or_eq_false_iff,
    decide_eq_false_iff_not, beq_eq_false_iff_ne] at safe
  have inside := safe.2 c member
  exact ⟨by omega, inside.2⟩

theorem cleanfield_of_graphic (graphic : ∀ c ∈ s, 31 < c ∧ c ≠ 0x7F) : cleanfield s = s := by
  unfold cleanfield
  rw [map_congr_left (g := id), map_id]
  intro c member
  have inside := graphic c member
  exact if_neg (by omega)

theorem cleanfield_of_safetoken (safe : safetoken s = true) : cleanfield s = s :=
  cleanfield_of_graphic fun c member =>
    have inside := mem_safetoken safe member
    ⟨by omega, inside.2⟩

/-- A character that is written as a blank is no part of a token. -/
theorem safetoken_cleanfield (s : Str) : safetoken (cleanfield s) = safetoken s := by
  have same (c : Nat) : (decide (clean c ≤ 32) || clean c == 0x7F) =
      (decide (c ≤ 32) || c == 0x7F) := by
    unfold clean
    split
    · rename_i control
      rcases control with low | rfl
      · rw [decide_eq_true (Nat.le_refl 32), decide_eq_true (by omega : c ≤ 32)]
        rfl
      · rfl
    · rfl
  unfold safetoken cleanfield
  rw [all_map]
  congr 1
  · cases s with
    | nil => rfl
    | cons c rest => rfl
  · apply congrArg (List.all s)
    funext c
    rw [Function.comp_apply, same]

theorem lastpart_cleanfield (s : Str) : lastpart (cleanfield s) = cleanfield (lastpart s) := by
  have same : ((· != 47) ∘ clean : Nat → Bool) = (· != 47) := by
    funext c
    rw [Function.comp_apply]
    unfold clean
    split
    · rename_i control
      have other : c ≠ 47 := by omega
      simp [other]
    · rfl
  unfold lastpart cleanfield
  rw [← map_reverse, takeWhile_map, same, map_reverse]

theorem slash_cleanfield (s : Str) : 47 ∈ cleanfield s ↔ 47 ∈ s := by
  constructor
  · intro member
    have ⟨_, inside, is⟩ := mem_map.1 member
    unfold clean at is
    split at is
    · cases is
    · exact is ▸ inside
  · intro member
    exact mem_map.2 ⟨47, member, rfl⟩

theorem lastpart_append (front : Str) {last : Str} (clean : 47 ∉ last) :
    lastpart (front ++ 47 :: last) = last := by
  unfold lastpart
  rw [reverse_append, reverse_cons, append_assoc, singleton_append,
    takeWhile_append_stop ?_ (by decide), reverse_reverse]
  intro c member
  have other : c ≠ 47 := fun same => clean (same ▸ mem_reverse.1 member)
  simpa using other

theorem slash_lastpart (s : Str) : 47 ∉ lastpart s := by
  intro member
  have kept := mem_takeWhile_imp (mem_reverse.1 member)
  exact absurd kept (by decide)

/-! ### What is extracted -/

/-- What is read goes on with a new line, or ends. -/
def Ends (rest : Str) : Prop := rest = [] ∨ ∃ more, rest = 10 :: more

theorem splitOn_ends {rest : Str} (clean : 10 ∉ line) (ends : Ends rest) :
    ∃ more, (line ++ rest).splitOn 10 = line :: more := by
  rcases ends with rfl | ⟨more, rfl⟩
  · rw [append_nil]
    exact ⟨[], splitOn_last clean⟩
  · exact ⟨more.splitOn 10, splitOn_line clean more⟩

/-- A notification that is read at least up to the end of the message id. -/
structure Read (srcname : Str) (m : Message) (s : Str) : Prop where
  whole : ∃ rest, s = upto srcname m ++ rest ∧ Ends rest

section Extracted

variable {srcname s : Str} {m : Message}

theorem Read.pieces (read : Read srcname m s) :
    ∃ more, s.splitOn 10 = linesOf srcname m ++ idline m :: more := by
  obtain ⟨_, rfl, ends⟩ := read.whole
  obtain ⟨more, pieces⟩ := splitOn_ends (unbroken fun c => mem_idline) ends
  refine ⟨more, ?_⟩
  unfold upto
  rw [append_assoc, splitOn_ofLines fun line isLine => unbroken fun c => mem_linesOf isLine,
    pieces]

theorem hasprefix_append (pre value : Str) : hasprefix (pre ++ value) pre = true :=
  isPrefixOf_iff_prefix.2 (prefix_append pre value)

theorem Read.find_id (read : Read srcname m s) :
    (s.splitOn 10).find? (fun line => hasprefix line (str "Message ID: ")) = some (idline m) := by
  have ⟨_, pieces⟩ := read.pieces
  have none : (linesOf srcname m).find? (fun line => hasprefix line (str "Message ID: ")) =
      none := by
    rw [find?_eq_none]
    intro _ isLine
    rw [notId_linesOf isLine]
    decide
  rw [pieces, find?_append, none, Option.none_or, find?_cons_of_pos]
  exact hasprefix_append ..

theorem drop_idline (m : Message) : (idline m).drop (str "Message ID: ").length = cleanfield m.id :=
  drop_left ..

theorem Read.nfield_id (read : Read srcname m s) :
    nfield s (str "Message ID: ") = cleanfield m.id := by
  unfold nfield
  rw [read.find_id]
  exact drop_idline m

theorem Read.nfield_triage (read : Read srcname m s) :
    nfield s (str "Triage: ") = triageverdict m := by
  have ⟨_, pieces⟩ := read.pieces
  have found : (s.splitOn 10).find? (fun line => hasprefix line (str "Triage: ")) =
      some (str "Triage: " ++ triageverdict m) := by
    rw [pieces]
    unfold linesOf
    rw [cons_append, cons_append, find?_cons_of_neg, find?_cons_of_pos]
    · exact hasprefix_append ..
    · have head : hasprefix (headline srcname) (str "Triage: ") = false := rfl
      rw [head]
      decide
  unfold nfield
  rw [found]
  exact drop_left ..

theorem extractmsgid_of_find {s value : Str} (found : (s.splitOn 10).find?
    (fun line => hasprefix line (str "Message ID: ")) = some (str "Message ID: " ++ value)) :
    extractmsgid s = if safetoken (if value.contains 47 then lastpart value else value) then
      some (if value.contains 47 then lastpart value else value) else none := by
  have dropped : (str "Message ID: " ++ value).drop (str "Message ID: ").length = value :=
    drop_left ..
  unfold extractmsgid
  rw [found]
  simp only [dropped]

theorem Read.extractmsgid (read : Read srcname m s) : extractmsgid s =
    if safetoken (if (cleanfield m.id).contains 47 then lastpart (cleanfield m.id)
      else cleanfield m.id) then
      some (if (cleanfield m.id).contains 47 then lastpart (cleanfield m.id)
        else cleanfield m.id)
    else none := extractmsgid_of_find read.find_id

theorem strindex_append {front rest needle : Str} (absent : c ∉ front)
    (found : (c :: needle) <+: rest) : strindex (front ++ rest) (c :: needle) =
      some front.length := by
  have long := found.length_le
  have fits : (decide ((front ++ rest).length < (c :: needle).length)) = false := by
    rw [decide_eq_false_iff_not, length_append]
    omega
  have here : (rest.take (c :: needle).length == c :: needle) = true := by
    rw [prefix_iff_eq_take.1 found |>.symm]
    exact beq_self_eq_true _
  unfold strindex
  rw [fits]
  simp only [isEmpty_cons, Bool.false_or, Bool.false_eq_true, if_false]
  rw [find?_range_eq_some]
  refine ⟨?_, ?_, ?_⟩
  · rw [drop_left]
    exact here
  · rw [mem_range, length_append]
    omega
  intro j before
  rw [drop_append_of_le_length (Nat.le_of_lt before)]
  rw [drop_eq_getElem_cons before, cons_append, length_cons, take_succ_cons]
  have other : front[j] ≠ c := fun same => absent (same ▸ getElem_mem before)
  simp [other]

theorem mem_safesrcname {src : Str} (safe : Msg9p.safesrcname src = true) (member : c ∈ src) :
    44 < c ∧ c < 123 ∧ c ≠ 93 := by
  unfold Msg9p.safesrcname at safe
  simp only [Bool.and_eq_true, all_eq_true] at safe
  have inside := safe.2 c member
  simp only [isSafe, Bool.or_eq_true, Bool.and_eq_true, decide_eq_true_eq, beq_iff_eq] at inside
  omega

theorem cleanfield_srcname (safe : Msg9p.safesrcname srcname = true) :
    cleanfield srcname = srcname :=
  cleanfield_of_graphic fun c member =>
    have inside := mem_safesrcname safe member
    ⟨by omega, by omega⟩

theorem headline_eq (safe : Msg9p.safesrcname srcname = true) : headline srcname =
    str "[Message notification " ++ (0x2014 :: 32 :: (srcname ++ [93])) := by
  unfold headline
  rw [cleanfield_srcname safe]
  simp [str]

theorem Read.headline (read : Read srcname m s) :
    ∃ rest, s = headline srcname ++ 10 :: rest := by
  obtain ⟨_, rfl, -⟩ := read.whole
  unfold upto linesOf
  rw [ofLines_cons, append_assoc, append_assoc, cons_append]
  exact ⟨_, rfl⟩

theorem Read.nsource (read : Read srcname m s) (safe : Msg9p.safesrcname srcname = true) :
    nsource s = srcname := by
  obtain ⟨rest, rfl⟩ := read.headline
  have dash : strindex (Msgwatch.headline srcname ++ 10 :: rest) (str "— ") = some 22 := by
    rw [headline_eq safe, append_assoc]
    have found : [0x2014, 32] <+: 0x2014 :: 32 :: (srcname ++ [93]) ++ 10 :: rest :=
      ⟨srcname ++ 93 :: 10 :: rest, by simp⟩
    exact strindex_append (by decide) found
  have after : (Msgwatch.headline srcname ++ 10 :: rest).drop (22 + 2) =
      srcname ++ 93 :: 10 :: rest := by
    rw [headline_eq safe]
    simp [str]
  have bracket : strindex (srcname ++ 93 :: 10 :: rest) (str "]") = some srcname.length := by
    have found : [93] <+: 93 :: 10 :: rest := ⟨10 :: rest, rfl⟩
    exact strindex_append (fun member => (mem_safesrcname safe member).2.2 rfl) found
  unfold Msgwatch.nsource
  simp only [dash, after, bracket]
  exact take_left ..

theorem Read.extractsource (read : Read srcname m s) (safe : Msg9p.safesrcname srcname = true) :
    extractsource s = some srcname := by
  obtain ⟨rest, rfl⟩ := read.headline
  have some : srcname ≠ [] := by
    rintro rfl
    cases safe
  have first : firstline (Msgwatch.headline srcname ++ 10 :: rest) =
      Msgwatch.headline srcname := by
    apply takeWhile_append_stop ?_ rfl
    intro c member
    have above : 31 < c := mem_linesOf (m := m) (mem_cons_self ..) member
    have other : c ≠ 10 := by omega
    simpa using other
  have dash : (Msgwatch.headline srcname).dropWhile (· != 0x2014) =
      0x2014 :: 32 :: (srcname ++ [93]) := by
    rw [headline_eq safe, dropWhile_append_of_pos (by decide)]
    exact dropWhile_cons_of_neg (by decide)
  have name : ((32 :: (srcname ++ [93])).dropWhile (· == 32)).takeWhile (· != 93) = srcname := by
    rw [dropWhile_cons_of_pos rfl]
    cases srcname with
    | nil => exact absurd rfl some
    | cons c _ =>
      have here := mem_safesrcname safe (mem_cons_self ..)
      have other : c ≠ 32 := by omega
      rw [cons_append, dropWhile_cons_of_neg (by simpa using other), ← cons_append]
      apply takeWhile_append_stop ?_ rfl
      intro _ member
      simpa using (mem_safesrcname safe member).2.2
  have named : (srcname != [] && Msgwatch.safesrcname srcname) = true := by
    rw [bne_iff_ne.2 some]
    exact safe
  unfold Msgwatch.extractsource
  simp only [first, dash, name]
  rw [if_pos named]

/-! ### What is asked -/

/-- A write that names the source and the message. -/
def Names (src id : Str) : Ask → Prop
  | .ctl cmd => tokens isBlank cmd = [str "flag", src, id, str "seen"]
  | .draft data => ∃ body, parsed data = (src, id, body)

/-- What is extracted is what the message and its source say. -/
structure Unforged (srcname : Str) (m : Message) (s : Str) : Prop where
  verdict : (relayed s).verdict = triageverdict m
  source : (relayed s).src = srcname
  sourceHeadless : Msgwatch.extractsource s = some srcname
  flagged : (relayed s).ask =
    if triageverdict m = str "ignore" then (token m).map (flagseen srcname) else none
  idHeadless : Msgwatch.extractmsgid s = token m
  named : ∀ ask, ((relayed s).ask = some ask ∨ ∃ response, headless response s = some ask) →
    ∃ id, token m = some id ∧ Names srcname id ask

theorem graphic_token (is : token m = some id) : id ≠ [] ∧ ∀ c ∈ id, 32 < c := by
  unfold token at is
  split at is
  · rename_i safe
    cases is
    refine ⟨?_, fun c member => (mem_safetoken safe member).1⟩
    rintro empty
    rw [empty] at safe
    cases safe
  · cases is

theorem names_flagseen (safe : Msg9p.safesrcname srcname = true) (is : token m = some id) :
    Names srcname id (flagseen srcname id) := by
  have blank : isBlank 32 = true := rfl
  have word (w : Str) (nonempty : w ≠ []) (graphic : ∀ c ∈ w, 32 < c) :
      tokens isBlank w = [w] := by
    apply tokens_eq_singleton nonempty
    intro c member
    have above := graphic c member
    simp only [isBlank, Bool.or_eq_false_iff, beq_eq_false_iff_ne]
    omega
  have shape : str "flag " ++ srcname ++ str " " ++ id ++ str " seen" =
      str "flag" ++ 32 :: (srcname ++ 32 :: (id ++ 32 :: str "seen")) := by
    simp [str]
  obtain ⟨someId, graphicId⟩ := graphic_token is
  show tokens isBlank (str "flag " ++ srcname ++ str " " ++ id ++ str " seen") = _
  rw [shape, tokens_append_delim blank, tokens_append_delim blank, tokens_append_delim blank,
    word srcname (clean_safesrcname safe).1 (clean_safesrcname safe).2, word id someId graphicId]
  rfl

theorem msgstrip_graphic {s : Str} (graphic : ∀ c ∈ s, 32 < c) : msgstrip s = s := by
  have not (c : Nat) (above : 32 < c) : ¬ Msg9p.isWhite c = true := by
    simp only [Msg9p.isWhite, Bool.or_eq_true, beq_iff_eq]
    omega
  have kept {t : Str} (graphic : ∀ c ∈ t, 32 < c) : t.dropWhile Msg9p.isWhite = t := by
    cases t with
    | nil => rfl
    | cons c _ => exact dropWhile_cons_of_neg (not c (graphic c (mem_cons_self ..)))
  unfold msgstrip
  rw [kept graphic, kept fun c member => graphic c (mem_reverse.1 member), reverse_reverse]

theorem splitfirst_line (graphic : ∀ c ∈ line, 32 < c) (rest : Str) :
    splitfirst (line ++ 10 :: rest) 10 = (line, rest) := by
  have kept : ∀ c ∈ line, (c != 10) = true := by
    intro c member
    have above := graphic c member
    have other : c ≠ 10 := by omega
    simpa using other
  unfold splitfirst
  rw [takeWhile_append_stop kept rfl, dropWhile_append_of_pos kept,
    dropWhile_cons_of_neg (by decide)]
  rfl

theorem names_draft (safe : Msg9p.safesrcname srcname = true) (is : token m = some id) (body : Str)
    : Names srcname id (.draft (srcname ++ 10 :: (id ++ 10 :: body))) := by
  obtain ⟨-, graphicId⟩ := graphic_token is
  have graphicSrc := (clean_safesrcname safe).2
  refine ⟨body, ?_⟩
  unfold parsed
  simp only [splitfirst_line graphicSrc, splitfirst_line graphicId, msgstrip_graphic graphicSrc,
    msgstrip_graphic graphicId]

/-- An id with a slash is no token, and neither is what follows its last slash. -/
def Whole (m : Message) : Prop :=
  47 ∈ m.id → safetoken m.id = false ∧ safetoken (lastpart m.id) = false

theorem Read.extractmsgid_whole (read : Read srcname m s) (whole : Whole m) :
    Msgwatch.extractmsgid s = token m := by
  rw [read.extractmsgid]
  unfold token
  by_cases slash : 47 ∈ m.id
  · have contains := contains_iff_mem.2 ((slash_cleanfield m.id).2 slash)
    rw [if_pos contains, lastpart_cleanfield, safetoken_cleanfield, (whole slash).1,
      (whole slash).2]
    rfl
  have none : ¬ (cleanfield m.id).contains 47 = true := fun contains =>
    slash ((slash_cleanfield _).1 (contains_iff_mem.1 contains))
  rw [if_neg none, safetoken_cleanfield]
  cases safe : safetoken m.id with
  | false => rfl
  | true => rw [if_pos rfl, if_pos rfl, cleanfield_of_safetoken safe]

theorem Read.whole_of_id (read : Read srcname m s) (slash : 47 ∈ m.id)
    (same : Msgwatch.extractmsgid s = token m) :
    safetoken m.id = false ∧ safetoken (lastpart m.id) = false := by
  have contains := contains_iff_mem.2 ((slash_cleanfield m.id).2 slash)
  rw [read.extractmsgid, if_pos contains, lastpart_cleanfield, safetoken_cleanfield] at same
  unfold token at same
  cases safePart : safetoken (lastpart m.id) with
  | true =>
    rw [safePart, if_pos rfl, cleanfield_of_safetoken safePart] at same
    split at same
    · have is := Option.some.inj same
      rw [← is] at slash
      exact absurd slash (slash_lastpart _)
    · cases same
  | false =>
    rw [safePart] at same
    cases safeId : safetoken m.id with
    | true =>
      rw [safeId] at same
      cases same
    | false => exact ⟨rfl, rfl⟩

theorem Read.markseen (read : Read srcname m s) (safe : Msg9p.safesrcname srcname = true) :
    markseen srcname (nfield s (str "Message ID: ")) = (token m).map (flagseen srcname) := by
  rw [read.nfield_id]
  unfold Msgwatch.markseen token
  rw [safetoken_cleanfield, show Msgwatch.safesrcname srcname = true from safe]
  cases isToken : safetoken m.id with
  | false => rfl
  | true =>
    rw [cleanfield_of_safetoken isToken]
    rfl

theorem triageverdict_ne_nil (m : Message) : triageverdict m ≠ [] := by
  rcases triageverdict_cases m with is | is | is | is
  · rw [is]
    decide
  · rw [is]
    decide
  · rw [is]
    decide
  · rw [is]
    decide

theorem Read.relayed (read : Read srcname m s) (safe : Msg9p.safesrcname srcname = true) :
    relayed s = ⟨triageverdict m, srcname,
      if triageverdict m = str "ignore" then (token m).map (flagseen srcname) else none⟩ := by
  unfold Msgwatch.relayed
  simp only [read.nfield_triage, read.nsource safe, read.markseen safe,
    if_neg (triageverdict_ne_nil m)]

theorem names_headless {response : Str} {ask : Ask} (safe : Msg9p.safesrcname srcname = true)
    (source : Msgwatch.extractsource s = some srcname) (id : Msgwatch.extractmsgid s = token m)
    (asks : headless response s = some ask) : ∃ id, token m = some id ∧ Names srcname id ask := by
  unfold headless at asks
  split at asks
  · cases asks
  split at asks
  · cases asks
  unfold handleclassification at asks
  rw [source, id] at asks
  cases is : token m with
  | none =>
    rw [is] at asks
    simp only [ite_self] at asks
    cases asks
  | some id =>
    rw [is] at asks
    simp only at asks
    refine ⟨id, rfl, ?_⟩
    split at asks
    · cases asks
      exact names_flagseen safe is
    split at asks
    · obtain ⟨body, -, rfl⟩ := Option.map_eq_some_iff.1 asks
      exact names_draft safe is body
    · cases asks

theorem Read.unforged (read : Read srcname m s) (safe : Msg9p.safesrcname srcname = true)
    (whole : Whole m) : Unforged srcname m s where
  verdict := by rw [read.relayed safe]
  source := by rw [read.relayed safe]
  sourceHeadless := read.extractsource safe
  flagged := by rw [read.relayed safe]
  idHeadless := read.extractmsgid_whole whole
  named := by
    rintro ask (relays | ⟨response, asks⟩)
    · rw [read.relayed safe] at relays
      simp only at relays
      split at relays
      · obtain ⟨id, is, rfl⟩ := Option.map_eq_some_iff.1 relays
        exact ⟨id, is, names_flagseen safe is⟩
      · cases relays
    · exact names_headless safe (read.extractsource safe) (read.extractmsgid_whole whole) asks

end Extracted

/-! ### The read -/

/-- The fields of a message are texts of the machine. -/
structure Texts (m : Message) : Prop where
  id : Runes m.id
  sender : Runes m.sender
  recipient : Runes m.recipient
  subject : Runes m.subject
  body : Runes m.body
  timestamp : Runes m.timestamp

theorem mntrdwr_first {arrival : Arrival} {later : List Arrival} {data : List Nat}
    (read : mntrdwr (arrival :: later) 65536 0 = some data) :
    ∃ more, data = (cvtca arrival.text).take MAXFDATA ++ more := by
  have bounded : min 65536 MAXFDATA = MAXFDATA := by decide
  unfold mntrdwr at read
  simp only [bounded] at read
  have reply : ∀ reply, rread MAXFDATA 0 arrival = some reply →
      reply.take MAXFDATA = (cvtca arrival.text).take MAXFDATA := by
    intro reply replied
    unfold rread at replied
    simp only at replied
    split at replied
    · split at replied
      · cases replied
      · cases replied
        rfl
    · cases replied
      rw [drop_zero, take_take, Nat.min_self]
  cases replied : rread MAXFDATA 0 arrival with
  | none =>
    rw [replied] at read
    cases read
  | some data =>
    rw [replied] at read
    simp only [reply data replied] at read
    split at read
    · cases read
      exact ⟨[], (append_nil _).symm⟩
    · obtain ⟨more, -, rfl⟩ := Option.map_eq_some_iff.1 read
      exact ⟨more, rfl⟩

theorem runes_cleanfield (runes : Runes s) : Runes (cleanfield s) := by
  intro _ member
  obtain ⟨d, inside, rfl⟩ := mem_map.1 member
  unfold clean
  split
  · decide
  · exact runes d inside

theorem runes_previewfield (runes : Runes s) (max : Nat) : Runes (previewfield s max) := by
  intro c member
  rcases mem_append.1 member with inside | dots
  · exact runes_cleanfield (runes.sublist (take_sublist max s)) c inside
  split at dots
  · have plain : ∀ d ∈ str "...", d < 65536 := by decide
    exact plain c dots
  · cases dots

theorem runes_linesOf (safe : Msg9p.safesrcname srcname = true) (texts : Texts m)
    (isLine : line ∈ linesOf srcname m) : Runes line := by
  intro c member
  rcases mem_linesOf_cases isLine member with plain | body | ⟨field, isField, inside⟩
  · omega
  · exact runes_previewfield texts.body 200 c body
  have name : Runes srcname := fun d member => by
    have inside := mem_safesrcname safe member
    omega
  simp only [mem_cons, not_mem_nil, or_false] at isField
  rcases isField with rfl | rfl | rfl | rfl | rfl
  · exact runes_cleanfield name c inside
  · exact runes_cleanfield texts.sender c inside
  · exact runes_cleanfield texts.recipient c inside
  · exact runes_cleanfield texts.subject c inside
  · exact runes_cleanfield texts.timestamp c inside

theorem runes_upto (safe : Msg9p.safesrcname srcname = true) (texts : Texts m) :
    Runes (upto srcname m) := by
  intro c member
  rcases mem_append.1 member with inLines | inId
  · have ⟨_, isLine, inside⟩ := mem_flatMap.1 inLines
    rcases mem_append.1 inside with inLine | newline
    · exact runes_linesOf safe texts isLine c inLine
    · rw [mem_singleton.1 newline]
      decide
  rcases mem_append.1 inId with name | value
  · have plain : ∀ d ∈ str "Message ID: ", d < 65536 := by decide
    exact plain c name
  · exact runes_cleanfield texts.id c value

theorem textof_line (some : line ≠ []) (runes : Runes line) (more : List Nat) :
    ∃ rest, textof (cvtca (line ++ [10]) ++ more) = .some (line ++ rest) ∧ Ends rest := by
  have newline : Runes [10] := fun c member => by
    rw [mem_singleton.1 member]
    decide
  have decoded : c2string (cvtca (line ++ [10]) ++ more) = line ++ 10 :: c2string more := by
    rw [c2string_cvtca_append (runes.append newline), append_assoc]
    rfl
  have nonempty (rest : Str) : line ++ rest ≠ [] := append_ne_nil_of_left_ne_nil some rest
  unfold textof
  simp only [decoded]
  by_cases strips : (line ++ 10 :: c2string more).getLast? = .some 10
  · rw [if_pos strips]
    rcases eq_nil_or_concat (c2string more) with empty | ⟨front, last, is⟩
    · rw [empty, dropLast_concat, if_neg some]
      exact ⟨[], by rw [append_nil], Or.inl rfl⟩
    · rw [is, concat_eq_append, ← cons_append, ← append_assoc,
        dropLast_concat, if_neg (nonempty _)]
      exact ⟨10 :: front, rfl, Or.inr ⟨front, rfl⟩⟩
  · rw [if_neg strips, if_neg (nonempty _)]
    exact ⟨10 :: c2string more, rfl, Or.inr ⟨_, rfl⟩⟩

/-! ### A notification that is cut -/

/-- The line of the message id comes whole with the first request. -/
def Arrives (srcname : Str) (m : Message) : Prop :=
  (cvtca (upto srcname m ++ [10])).length ≤ MAXFDATA

/-- What the first request brings ends inside a line before the end of the message id. -/
theorem cut_of_not_arrives (safe : Msg9p.safesrcname srcname = true) (texts : Texts m)
    (cut : ¬ Arrives srcname m) : ∃ done part errors,
      done <+: linesOf srcname m ∧ 10 ∉ part ∧ (∀ e ∈ errors, e = runeerror) ∧
        ∀ ascii < 0x80, ∀ next rest,
          c2string ((cvtca (upto srcname m ++ 10 :: trailer)).take MAXFDATA ++
            ascii :: next :: rest) =
              ofLines 10 done ++ (part ++ (errors ++ c2string (ascii :: next :: rest))) := by
  have runesEnd : Runes (10 :: trailer) := by
    intro c member
    rcases mem_cons.1 member with rfl | member
    · decide
    · exact Nat.lt_trans (trailer_plain.1 c member) (by decide)
  have ⟨front, errors, isPrefix, fits, are, decoded⟩ :=
    c2string_cut ((runes_upto safe texts).append runesEnd) MAXFDATA
  have short : front <+: upto srcname m := by
    have whole : upto srcname m ++ [10] <+: upto srcname m ++ 10 :: trailer :=
      ⟨trailer, by rw [append_assoc]; rfl⟩
    rcases List.prefix_or_prefix_of_prefix isPrefix whole with inside | ⟨rest, rfl⟩
    · rcases prefix_concat_iff.1 inside with rfl | inside
      · exact absurd fits cut
      · exact inside
    · rw [cvtca_append, length_append] at fits
      exact absurd (Nat.le_trans (Nat.le_add_right _ _) fits) cut
  obtain ⟨done, part, isDone, rfl, cleanPart, -⟩ := prefix_ofLines
    (unbroken fun c => mem_idline) (fun line isLine => unbroken fun c => mem_linesOf isLine) short
  refine ⟨done, part, errors, isDone, cleanPart, are, ?_⟩
  intro ascii small next rest
  rw [decoded ascii small next rest]
  simp only [append_assoc]

/-- A text that goes on with a slash inside a line, and then with a message id. -/
theorem extractmsgid_glued {done : List Str} {part : Str} (rest : Str)
    (clean : ∀ line ∈ done, 10 ∉ line)
    (notId : ∀ line ∈ done, hasprefix line (str "Message ID: ") = false) (cleanPart : 10 ∉ part)
    (digit : isDigit y = true) :
    extractmsgid (ofLines 10 done ++ (part ++ (47 :: y :: 10 :: (str "Message ID: " ++
      y :: 10 :: rest)))) = some [y] := by
  have bounds := isDigit_bounds digit
  have isToken : safetoken [y] = true := by
    unfold safetoken
    simp only [all_cons, all_nil, Bool.and_true, Bool.and_eq_true, bne_iff_ne, ne_eq,
      cons_ne_nil, not_false_eq_true, true_and, Bool.not_eq_true', Bool.or_eq_false_iff,
      decide_eq_false_iff_not, beq_eq_false_iff_ne]
    omega
  have pieces : (ofLines 10 done ++ (part ++ (47 :: y :: 10 :: (str "Message ID: " ++
      y :: 10 :: rest)))).splitOn 10 =
        done ++ (part ++ [47, y]) :: (str "Message ID: " ++ [y]) :: rest.splitOn 10 := by
    have glued : 10 ∉ part ++ [47, y] := by
      simp only [mem_append, mem_cons, not_mem_nil, or_false, not_or]
      exact ⟨cleanPart, by omega, by omega⟩
    have last : 10 ∉ str "Message ID: " ++ [y] := by
      have name : 10 ∉ str "Message ID: " := by decide
      simp only [mem_append, mem_cons, not_mem_nil, or_false, not_or]
      exact ⟨name, by omega⟩
    have first := splitOn_line glued (str "Message ID: " ++ y :: 10 :: rest)
    have second := splitOn_line last rest
    rw [append_assoc] at first second
    rw [splitOn_ofLines clean]
    exact congrArg (done ++ ·) (first.trans (congrArg (_ :: ·) second))
  have none : done.find? (fun line => hasprefix line (str "Message ID: ")) = none := by
    rw [find?_eq_none]
    intro line isLine
    rw [notId line isLine]
    decide
  have find : ((ofLines 10 done ++ (part ++ (47 :: y :: 10 :: (str "Message ID: " ++
      y :: 10 :: rest)))).splitOn 10).find? (fun line => hasprefix line (str "Message ID: ")) =
        some (if hasprefix (part ++ [47, y]) (str "Message ID: ") then part ++ [47, y]
          else str "Message ID: " ++ [y]) := by
    rw [pieces, find?_append, none, Option.none_or]
    split
    · rename_i glued
      exact find?_cons_of_pos glued
    rename_i glued
    have later : ((str "Message ID: " ++ [y]) :: rest.splitOn 10).find?
        (fun line => hasprefix line (str "Message ID: ")) = some (str "Message ID: " ++ [y]) :=
      find?_cons_of_pos (hasprefix_append ..)
    rw [← later]
    exact find?_cons_of_neg glued
  split at find
  · rename_i glued
    have ⟨value, is⟩ := isPrefixOf_iff_prefix.1 glued
    have tail : ∃ front, value = front ++ [47, y] := by
      rcases append_eq_append_iff.1 is with ⟨front, -, same⟩ | ⟨inside, same, ends⟩
      · exact ⟨front, same⟩
      cases inside with
      | nil => exact ⟨[], ends.symm⟩
      | cons c inside =>
        have slash : 47 ∈ str "Message ID: " := by
          rw [same, (List.cons.inj ends).1]
          exact mem_append_right _ (mem_cons_self ..)
        exact absurd slash (by decide)
    obtain ⟨front, rfl⟩ := tail
    rw [← is] at find
    have contains : (front ++ [47, y]).contains 47 = true := by simp
    have last : lastpart (front ++ [47, y]) = [y] := lastpart_append front (by simp; omega)
    rw [extractmsgid_of_find find, if_pos contains, last, if_pos isToken]
  · have noSlash : ¬ [y].contains 47 = true := by
      simp only [contains_cons, contains_nil, Bool.or_false, beq_iff_eq]
      omega
    rw [extractmsgid_of_find find, if_neg noSlash, if_pos isToken]

/-! ### What comes after a notification -/

/-- The bytes of a subject that is long enough. -/
def filler : Str := List.replicate (MAXFDATA - 54) 97

/-- The subject goes on with a slash where the second request of a read begins. -/
def bulky (y : Nat) : Notification :=
  ⟨str "new", some ⟨[y], [], [], filler ++ [47, y], [], [], 0, []⟩, []⟩

def bulkyFront : Str := headline (str "a") ++ 10 :: (str "Triage: context" ++ 10 :: str "Subject: ")

def bulkyBack (y : Nat) : Str := 47 :: y :: 10 :: (str "Message ID: " ++ y :: 10 :: trailer)

theorem length_bulkyFront : (cvtca bulkyFront).length = 54 := by decide +kernel

theorem text_bulky (digit : isDigit y = true) :
    formatnotification (str "a") (bulky y) = bulkyFront ++ (filler ++ bulkyBack y) := by
  have bounds := isDigit_bounds digit
  have subject : cleanfield (filler ++ [47, y]) = filler ++ [47, y] := by
    apply cleanfield_of_graphic
    intro c member
    simp only [mem_append, mem_cons, not_mem_nil, or_false] at member
    rcases member with inside | rfl | rfl
    · rw [(mem_replicate.1 inside).2]
      decide
    · decide
    · omega
  have id : cleanfield [y] = [y] := by
    apply cleanfield_of_graphic
    intro _ member
    rw [mem_singleton.1 member]
    omega
  have some : filler ++ [47, y] ≠ [] := append_ne_nil_of_right_ne_nil _ (by simp)
  have kind : (bulky y).kind ≠ str "error" := by
    show str "new" ≠ str "error"
    decide
  have verdict : triageverdict ⟨[y], [], [], filler ++ [47, y], [], [], 0, []⟩ = str "context" :=
    rfl
  rw [formatnotification_upto kind rfl]
  unfold upto linesOf lineOf idline
  simp only [verdict, subject, id, some, if_false, if_true, nil_append, append_nil,
    ofLines_cons, ofLines_nil]
  unfold bulkyFront bulkyBack
  simp [str]

theorem ascii_bulkyBack (digit : isDigit y = true) : ∀ c ∈ bulkyBack y, c < 128 := by
  have bounds := isDigit_bounds digit
  have name : ∀ c ∈ str "Message ID: ", c < 128 := by decide
  intro c member
  unfold bulkyBack at member
  simp only [mem_cons, mem_append] at member
  rcases member with rfl | rfl | rfl | inside | rfl | rfl | inside
  · decide
  · omega
  · decide
  · exact name c inside
  · omega
  · decide
  · exact trailer_plain.1 c inside

theorem c2string_bulkyBack (digit : isDigit y = true) : c2string (bulkyBack y) = bulkyBack y := by
  have ascii := ascii_bulkyBack digit
  have runes : Runes (bulkyBack y) := fun c member => Nat.lt_trans (ascii c member) (by decide)
  have decoded := c2string_cvtca runes
  rw [cvtca_ascii ascii] at decoded
  exact decoded

theorem getLast_bulkyBack (front : Str) (y : Nat) :
    (front ++ bulkyBack y).getLast? = some 46 := by
  have shape : front ++ bulkyBack y =
      (front ++ 47 :: y :: 10 :: (str "Message ID: " ++ [y, 10])) ++ trailer := by
    unfold bulkyBack
    simp
  rw [shape, getLast?_append, trailer_plain.2.1]
  rfl

theorem cvtca_bulky (digit : isDigit y = true) :
    (cvtca (formatnotification (str "a") (bulky y))).drop MAXFDATA = bulkyBack y ∧
      (bulkyBack y).length < MAXFDATA := by
  have fillerAscii : cvtca filler = filler := by
    apply cvtca_ascii
    intro _ member
    rw [(mem_replicate.1 member).2]
    decide
  have front : (cvtca bulkyFront ++ cvtca filler).length = MAXFDATA := by
    rw [length_append, length_bulkyFront, fillerAscii, filler, length_replicate]
    rfl
  constructor
  · rw [text_bulky digit, cvtca_append, cvtca_append, ← append_assoc,
      cvtca_ascii (ascii_bulkyBack digit), drop_left' front]
  · unfold bulkyBack
    simp only [length_cons, length_append, trailer_plain.2.2]
    decide

/-- A read of a long notification goes on with the one after it. -/
theorem mntrdwr_two {text other : Str} (long : MAXFDATA ≤ (cvtca text).length)
    (short : ((cvtca other).drop MAXFDATA).length < MAXFDATA) :
    mntrdwr [⟨false, text⟩, ⟨false, other⟩] 65536 0 =
      some ((cvtca text).take MAXFDATA ++ (cvtca other).drop MAXFDATA) := by
  have bounded : min 65536 MAXFDATA = MAXFDATA := by decide
  have bounded' : min (65536 - MAXFDATA) MAXFDATA = MAXFDATA := by decide
  have full : ((cvtca text).take MAXFDATA).length = MAXFDATA := by
    rw [length_take]
    omega
  have reply (off : Nat) (text : Str) :
      rread MAXFDATA off ⟨false, text⟩ = some (((cvtca text).drop off).take MAXFDATA) := rfl
  have more : ¬ (((cvtca text).take MAXFDATA).length ≠ MAXFDATA ∨
      65536 = ((cvtca text).take MAXFDATA).length) := by
    rw [full]
    decide
  have last : ((cvtca other).drop MAXFDATA).take MAXFDATA = (cvtca other).drop MAXFDATA :=
    take_of_length_le (Nat.le_of_lt short)
  unfold mntrdwr
  simp only [bounded, reply, drop_zero, take_take, Nat.min_self]
  rw [if_neg more, full, Nat.zero_add]
  unfold mntrdwr
  simp only [bounded', reply, last]
  rw [if_pos (Or.inl (Nat.ne_of_lt short))]
  rfl

theorem mntrdwr_returns (text : Str) {other : Str}
    (short : ((cvtca other).drop MAXFDATA).length < MAXFDATA) :
    ∃ data, mntrdwr [⟨false, text⟩, ⟨false, other⟩] 65536 0 = some data := by
  rcases Nat.lt_or_ge (cvtca text).length MAXFDATA with fits | long
  · have bounded : min 65536 MAXFDATA = MAXFDATA := by decide
    have reply : rread MAXFDATA 0 ⟨false, text⟩ = some (((cvtca text).drop 0).take MAXFDATA) := rfl
    have part : ((cvtca text).take MAXFDATA).length ≠ MAXFDATA := by
      rw [length_take]
      omega
    refine ⟨(cvtca text).take MAXFDATA, ?_⟩
    unfold mntrdwr
    simp only [bounded, reply, drop_zero, take_take, Nat.min_self]
    rw [if_pos (Or.inl part)]
  · exact ⟨_, mntrdwr_two long short⟩

/-! ### Every message -/

/-- Whatever is read after it, a notification says what `msg9p` says of its message. -/
def Withstands (srcname : Str) (n : Notification) (m : Message) : Prop :=
  ∀ parked later s, (∀ arrival ∈ later, ∃ srcname' n', Msg9p.safesrcname srcname' = true ∧
      arrival.text = formatnotification srcname' n') →
    blockread (⟨parked, formatnotification srcname n⟩ :: later) = some s → Unforged srcname m s

section Every

variable {srcname : Str} {n : Notification} {m : Message}

/-- What is read of a notification whose message id comes whole. -/
theorem read_of_arrives {parked : Bool} {later : List Arrival} {data : List Nat}
    (safe : Msg9p.safesrcname srcname = true) (message : n.msg = some m)
    (kind : n.kind ≠ str "error") (texts : Texts m) (arrives : Arrives srcname m)
    (read : mntrdwr (⟨parked, formatnotification srcname n⟩ :: later) 65536 0 = some data) :
    ∃ s, textof data = some s ∧ Read srcname m s := by
  obtain ⟨more, rfl⟩ := mntrdwr_first read
  have some : upto srcname m ≠ [] := by
    unfold upto linesOf headline
    rw [ofLines_cons]
    simp [str]
  have bytes : (cvtca (formatnotification srcname n)).take MAXFDATA ++ more =
      cvtca (upto srcname m ++ [10]) ++
        ((cvtca trailer).take (MAXFDATA - (cvtca (upto srcname m ++ [10])).length) ++ more) := by
    have text : upto srcname m ++ 10 :: trailer = upto srcname m ++ [10] ++ trailer := by simp
    rw [formatnotification_upto kind message, text, cvtca_append _ trailer, List.take_append,
      take_of_length_le arrives, append_assoc]
  obtain ⟨rest, is, ends⟩ := textof_line some (runes_upto safe texts)
    ((cvtca trailer).take (MAXFDATA - (cvtca (upto srcname m ++ [10])).length) ++ more)
  show ∃ s, textof ((cvtca (formatnotification srcname n)).take MAXFDATA ++ more) = .some s ∧ _
  rw [bytes]
  exact ⟨_, is, ⟨rest, rfl, ends⟩⟩

theorem forged_of_cut (digit : isDigit y = true) (safe : Msg9p.safesrcname srcname = true)
    (message : n.msg = some m) (kind : n.kind ≠ str "error") (texts : Texts m)
    (cut : ¬ Arrives srcname m) :
    ∃ s, blockread [⟨false, formatnotification srcname n⟩,
      ⟨false, formatnotification (str "a") (bulky y)⟩] = some s ∧ extractmsgid s = some [y] := by
  have text : formatnotification srcname n = upto srcname m ++ 10 :: trailer :=
    formatnotification_upto kind message
  have ⟨drop, short⟩ := cvtca_bulky digit
  have long : MAXFDATA ≤ (cvtca (formatnotification srcname n)).length := by
    have shape : upto srcname m ++ 10 :: trailer = upto srcname m ++ [10] ++ trailer := by simp
    unfold Arrives at cut
    rw [text, shape, cvtca_append _ trailer, length_append]
    omega
  have ⟨done, part, errors, isDone, cleanPart, are, decoded⟩ := cut_of_not_arrives safe texts cut
  have glued : 10 ∉ part ++ errors := by
    simp only [mem_append, not_or]
    exact ⟨cleanPart, fun member => absurd (are 10 member) (by decide)⟩
  have lines : ∀ line ∈ done, line ∈ linesOf srcname m := fun line member =>
    isDone.subset member
  refine ⟨ofLines 10 done ++ ((part ++ errors) ++ bulkyBack y), ?_, ?_⟩
  · unfold blockread
    rw [mntrdwr_two long (by rw [drop]; exact short), drop, text]
    rw [Option.bind_some]
    unfold textof
    have whole : c2string ((cvtca (upto srcname m ++ 10 :: trailer)).take MAXFDATA ++
        bulkyBack y) = ofLines 10 done ++ ((part ++ errors) ++ bulkyBack y) := by
      have cutHere := decoded 47 (by decide) y (10 :: (str "Message ID: " ++ y :: 10 :: trailer))
      rw [show 47 :: y :: 10 :: (str "Message ID: " ++ y :: 10 :: trailer) = bulkyBack y from rfl,
        c2string_bulkyBack digit] at cutHere
      rw [cutHere, append_assoc part]
    have last : (ofLines 10 done ++ ((part ++ errors) ++ bulkyBack y)).getLast? = some 46 := by
      rw [← append_assoc]
      exact getLast_bulkyBack _ y
    have some : ofLines 10 done ++ ((part ++ errors) ++ bulkyBack y) ≠ [] := by
      intro none
      rw [none] at last
      cases last
    have stays : ¬ (.some 46 : Option Nat) = .some 10 := by decide
    simp only [whole, last]
    rw [if_neg stays, if_neg some]
  · exact extractmsgid_glued trailer
      (fun line member => unbroken fun c => mem_linesOf (lines line member))
      (fun line member => notId_linesOf (lines line member)) glued digit

theorem withstands_iff (safe : Msg9p.safesrcname srcname = true) (message : n.msg = some m)
    (kind : n.kind ≠ str "error") (texts : Texts m) :
    Withstands srcname n m ↔ Arrives srcname m ∧ Whole m := by
  constructor
  · intro withstands
    have registered : Msg9p.safesrcname (str "a") = true := by decide
    have arrives : Arrives srcname m := by
      by_contra cut
      obtain ⟨y, digit, other⟩ : ∃ y, isDigit y = true ∧ m.id ≠ [y] := by
        by_cases one : m.id = [49]
        · refine ⟨50, rfl, ?_⟩
          rw [one]
          decide
        · exact ⟨49, rfl, one⟩
      have ⟨s, read, forged⟩ := forged_of_cut digit safe message kind texts cut
      have unforged := withstands false _ s
        (fun arrival member => ⟨str "a", bulky y, registered, by
          rw [List.mem_singleton.1 member]⟩) read
      have id := unforged.idHeadless
      rw [forged] at id
      unfold token at id
      split at id
      · exact other (Option.some.inj id).symm
      · cases id
    refine ⟨arrives, ?_⟩
    intro slash
    have ⟨drop, short⟩ := cvtca_bulky (y := 49) rfl
    rw [← drop] at short
    have ⟨data, brought⟩ := mntrdwr_returns (formatnotification srcname n) short
    have ⟨s, is, readWhole⟩ := read_of_arrives safe message kind texts arrives brought
    have unforged := withstands false _ s
      (fun arrival member => ⟨str "a", bulky 49, registered, by
        rw [List.mem_singleton.1 member]⟩) (Option.bind_eq_some_iff.2 ⟨data, brought, is⟩)
    exact readWhole.whole_of_id slash unforged.idHeadless
  · rintro ⟨arrives, whole⟩ parked later s - read
    have ⟨_, brought, is⟩ := Option.bind_eq_some_iff.1 read
    have ⟨_, is', readWhole⟩ := read_of_arrives safe message kind texts arrives brought
    rw [is] at is'
    cases is'
    exact readWhole.unforged safe whole

end Every

def pathMail (id : Str) : Message :=
  ⟨id, str "ann@example.org", [], str "hello", str "body", [], 1, []⟩

theorem texts_pathMail (runes : Runes id) : Texts (pathMail id) := by
  have sender : ∀ c ∈ str "ann@example.org", c < 65536 := by decide
  have subject : ∀ c ∈ str "hello", c < 65536 := by decide
  have body : ∀ c ∈ str "body", c < 65536 := by decide
  exact ⟨runes, sender, nofun, subject, body, nofun⟩

theorem withstands_iff_number : Withstands (str "email") ⟨str "new", some (pathMail (str "42")), []⟩
      (pathMail (str "42")) ↔
    Arrives (str "email") (pathMail (str "42")) ∧ Whole (pathMail (str "42")) := by
  have runes : ∀ c ∈ str "42", c < 65536 := by decide
  exact withstands_iff (by decide) rfl (by decide) (texts_pathMail runes)

/-- The id `inbox/42` of a message is taken for `42`. -/
theorem not_withstands_path : ¬ ∀ srcname n m, Msg9p.safesrcname srcname = true →
    n.msg = some m → n.kind ≠ str "error" → Texts m → Withstands srcname n m := by
  intro every
  have runes : ∀ c ∈ str "inbox/42", c < 65536 := by decide
  have withstands := every (str "email") ⟨str "new", some (pathMail (str "inbox/42")), []⟩
    (pathMail (str "inbox/42")) (by decide) rfl (by decide) (texts_pathMail runes)
  have read : blockread [⟨true, formatnotification (str "email")
      ⟨str "new", some (pathMail (str "inbox/42")), []⟩⟩] = some (formatnotification (str "email")
      ⟨str "new", some (pathMail (str "inbox/42")), []⟩) := by decide +kernel
  have unforged := withstands true [] _ nofun read
  have taken : extractmsgid (formatnotification (str "email")
      ⟨str "new", some (pathMail (str "inbox/42")), []⟩) = some (str "42") := by decide +kernel
  have id := unforged.idHeadless
  rw [taken] at id
  exact absurd id (by decide)

end Infernode.Msgwatch
