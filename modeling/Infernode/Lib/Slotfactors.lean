import Infernode.Lib.Twofaslot

/-!
Which factors open which slots.

Owns: the ideal cipher that is assumed; what a slot file, or a part of one, opens to, and that
the hint of the last key opens nothing; what `unlock` returns, and to whom; and when a factor
works for what is stored.
-/

namespace Infernode.Twofaslot

open Text List Option

/-! ### The cipher -/

/-- An authenticated cipher, and a security key that gives secrets. -/
structure Services.Ideal (sv : Services) : Prop where
  opens : ∀ {coin m k f}, sv.encrypt3 coin m k = some f → ∀ g l, sv.decrypt3 f k g l = some m
  sealed : ∀ {coin m k f}, sv.encrypt3 coin m k = some f →
    ∀ {key g l m'}, sv.decrypt3 f key g l = some m' → key = k
  whole : ∀ {coin m k f}, sv.encrypt3 coin m k = some f →
    ∀ {t}, t <+: f → t ≠ f → ∀ key, sv.decrypt3 t key none none = none
  header : ∀ {coin m k f}, sv.encrypt3 coin m k = some f → f ≠ []
  small : ∀ {coin m k f}, sv.encrypt3 coin m k = some f → m.length = 32 → k.length = 32 →
    f.length ≤ 160
  kek : ∀ rootkey R, (sv.mkkek2fa rootkey R).length = 32
  filekey : ∀ user pass, (sv.mkfilekey3 user pass).length = 32
  secret : ∀ {c s p R}, sv.derive c s p = some R → R ≠ []

/-- What a user holds to get in besides the password. -/
inductive Factor
  | key (cred pin : Str)
  | recovery (pass : Str)

def Factor.pin : Factor → Str
  | .key _ pin => pin
  | .recovery _ => []

def Factor.pass : Factor → Str
  | .key _ _ => []
  | .recovery pass => pass

variable {sv : Services}

def Opens (sv : Services) (content : Str) (D : Bytes) : Prop :=
  ∃ s w, readslot content = some s ∧ s.wrap = some w ∧ ∃ key, sv.decrypt3 w key none none = some D

def OpenedBy (sv : Services) (user : Str) (rootkey : Bytes) (content : Str) (D : Bytes) :
    Factor → Prop
  | .key cred pin => ∃ s w salt R, readslot content = some s ∧ s.wrap = some w ∧
      s.kind = str "key" ∧ s.cred = cred ∧ fromhex s.salt = some salt ∧ salt.length = 32 ∧
      sv.derive cred salt pin = some R ∧ sv.decrypt3 w (sv.mkkek2fa rootkey R) none none = some D
  | .recovery pass => ∃ s w, readslot content = some s ∧ s.wrap = some w ∧
      s.kind = str "recovery" ∧ pass ≠ [] ∧
      sv.decrypt3 w (sv.mkfilekey3 user pass) none none = some D

variable {f : Factor}

variable {rootkey D : Bytes} {listing files : Files}

theorem OpenedBy.opens {user : Str} {content : Str} (opened : OpenedBy sv user rootkey content D f)
    : Opens sv content D := by
  cases f with
  | key _ _ =>
    have ⟨s, w, _, _, read, wrap, _, _, _, _, _, opens⟩ := opened
    exact ⟨s, w, read, wrap, _, opens⟩
  | recovery _ =>
    have ⟨s, w, read, wrap, _, _, opens⟩ := opened
    exact ⟨s, w, read, wrap, _, opens⟩

section Texts

variable {kind cred salt : Str} {wrap D : Bytes} {coin : Nat} {k : Bytes}

theorem opens_prefix (ideal : sv.Ideal) (wordKind : Word kind) (wordCred : Word cred)
    (wordSalt : Word salt) (wraps : sv.encrypt3 coin D k = some wrap) {t : Str}
    (cut : t <+: slottext kind cred salt wrap) {D' : Bytes} (opens : Opens sv t D') : D' = D := by
  have ⟨_, w, read, wrapped, _, decrypts⟩ := opens
  unfold readslot at read
  split at read
  · cases read
  rw [← Option.some.inj read] at wrapped
  have part := parseslot_prefix wordKind wordCred wordSalt
    ((List.take_prefix 16384 t).trans cut) wrapped
  by_cases same : w = wrap
  · rw [same] at decrypts
    rw [ideal.sealed wraps decrypts, ideal.opens wraps] at decrypts
    exact (Option.some.inj decrypts).symm
  · rw [ideal.whole wraps part same] at decrypts
    cases decrypts

theorem readslot_slottext (ideal : sv.Ideal) (wordKind : Word kind) (wordCred : Word cred)
    (wordSalt : Word salt) (wraps : sv.encrypt3 coin D k = some wrap)
    (fits : (slottext kind cred salt wrap).length ≤ 16384) :
    readslot (slottext kind cred salt wrap) = some ⟨kind, cred, salt, some wrap⟩ := by
  have nonempty : slottext kind cred salt wrap ≠ [] := cons_ne_nil _ _
  unfold readslot
  rw [if_neg nonempty, take_of_length_le fits,
    parseslot_slottext wordKind wordCred wordSalt (ideal.header wraps)]

theorem length_tohex (a : Bytes) : (tohex a).length = 2 * a.length := by
  induction a with
  | nil => rfl
  | cons _ _ ih =>
    rw [tohex_cons, length_cons, length_cons, length_cons, ih]
    omega

theorem length_slottext (ideal : sv.Ideal) (wraps : sv.encrypt3 coin D k = some wrap)
    (key : D.length = 32) (sealer : k.length = 32)
    (short : kind.length + cred.length + salt.length ≤ 16000) :
    (slottext kind cred salt wrap).length ≤ 16384 := by
  have size := ideal.small wraps key sealer
  have shape : (slottext kind cred salt wrap).length =
      kind.length + cred.length + salt.length + (tohex wrap).length + 24 := by
    unfold slottext ofLines
    simp only [flatMap_cons, flatMap_nil, length_append, length_nil,
      length_cons]
    have five : (str "kind ").length = 5 ∧ (str "cred ").length = 5 ∧ (str "salt ").length = 5 ∧
      (str "wrap ").length = 5 := by decide
    omega
  rw [shape, length_tohex]
  omega

end Texts

variable {a : Bytes} {cred : Str} {ans : Str → Bytes → Str → Except Str Bytes}

theorem word_of_hexbytes {s : Str} (read : hexbytes s = some a) :
    Word s ∧ s.length = 2 * a.length := by
  have digit : ∀ {c v : Nat}, hexv c = some v → wordsep c = false ∧ c ≠ 10 := by
    intro c v value
    unfold hexv at value
    unfold wordsep
    split_ifs at value with first second third
    all_goals
      constructor
      · rw [Bool.or_eq_false_iff, beq_eq_false_iff_ne, beq_eq_false_iff_ne]
        omega
      · omega
  induction a generalizing s with
  | nil =>
    rcases s with _ | ⟨hi, _ | ⟨lo, s⟩⟩
    · exact ⟨fun _ inside => absurd inside not_mem_nil, rfl⟩
    · cases read
    · unfold hexbytes at read
      split at read
      · obtain ⟨_, _, same⟩ := map_eq_some_iff.1 read
        cases same
      · cases read
  | cons b a ih =>
    rcases s with _ | ⟨hi, _ | ⟨lo, s⟩⟩
    · cases read
    · cases read
    · unfold hexbytes at read
      split at read
      · rename_i h l first second
        obtain ⟨rest, readRest, same⟩ := map_eq_some_iff.1 read
        rw [(List.cons.inj same).2] at readRest
        obtain ⟨word, length⟩ := ih readRest
        constructor
        · intro c member
          rcases mem_cons.1 member with rfl | later
          · exact digit first
          · rcases mem_cons.1 later with rfl | last
            · exact digit second
            · exact word c last
        · rw [length_cons, length_cons, length_cons, length]
          omega
      · cases read

theorem word_of_fromhex {s : Str} (read : fromhex s = some a) :
    Word s ∧ s.length = 2 * a.length := by
  unfold fromhex at read
  split at read
  · cases read
  · exact word_of_hexbytes read

/-! ### The hint of the last key -/

variable {s : Slot} {slots : List Slot}

theorem setfield_cred_word {line : Str} (clean : 10 ∉ line) (word : Word s.cred) :
    Word (setfield s line).cred := by
  have value : ∀ f rest, tokens wordsep line = f :: rest → Word (rest.headD []) := by
    intro f rest split
    cases rest with
    | nil => exact nofun
    | cons v rest =>
      have member : v ∈ tokens wordsep line := by
        rw [split]
        exact mem_cons_of_mem _ mem_cons_self
      intro c inV
      refine ⟨(mem_tokens member).2 c inV, ?_⟩
      rintro rfl
      exact clean ((tokens_sublist member).subset inV)
  unfold setfield
  split
  · exact word
  rename_i f rest split
  split_ifs
  · exact word
  · exact value f rest split
  · exact word
  · exact word
  · exact word

theorem parseslot_cred (text : Str) : Word (parseslot text).cred := by
  have steps : ∀ lines : List Str, (∀ line ∈ lines, 10 ∉ line) → ∀ s : Slot, Word s.cred →
      Word (lines.foldl setfield s).cred := by
    intro lines
    induction lines with
    | nil => exact fun _ s word => word
    | cons line _ ih =>
      intro clean _ word
      exact ih (forall_mem_cons.1 clean).2
        _ (setfield_cred_word (clean line mem_cons_self) word)
  apply steps
  · intro _ member newline
    have clean := (mem_tokens member).2 10 newline
    cases clean
  · exact nofun

theorem not_opens_hint (word : Word cred) (D : Bytes) : ¬Opens sv (cred ++ [10]) D := by
  rintro ⟨s, w, read, wrapped, _⟩
  have clean : ∀ line ∈ [cred], 10 ∉ line := by
    intro line member newline
    rw [mem_singleton.1 member] at newline
    exact (word 10 newline).2 rfl
  have blank : ∀ lines : List Str,
      (∀ line ∈ lines, line ∈ tokens (· == 10) ((cred ++ [10]).take 16384)) →
        ∀ s : Slot, s.wrap = none → (lines.foldl setfield s).wrap = none := by
    intro lines
    induction lines with
    | nil => exact fun _ s before => before
    | cons line _ ih =>
      intro members s before
      refine ih (forall_mem_cons.1 members).2
        _ ?_
      have cut : (cred ++ [10]).take 16384 <+: ofLines 10 [cred] := by
        rw [ofLines_cons]
        exact List.take_prefix _ _
      have ⟨_, isLine, front⟩ :=
        mem_tokens_prefix clean cut (members line mem_cons_self)
      rw [mem_singleton.1 isLine] at front
      rcases setfield_wrap s line with same | ⟨rest, split, sets⟩
      · rw [same, before]
      have nonempty : line ≠ [] := by
        rintro rfl
        cases split
      rw [tokens_eq_singleton nonempty fun c member => (word c (front.subset member)).1,
        List.cons.injEq] at split
      rw [sets, ← split.2]
      rfl
  unfold readslot at read
  split at read
  · cases read
  rw [← Option.some.inj read] at wrapped
  have none := blank _ (fun line member => member) ⟨[], [], [], none⟩ rfl
  unfold parseslot at wrapped
  rw [none] at wrapped
  cases wrapped

/-! ### `unlock` -/

theorem mem_listslots :
    s ∈ listslots listing ↔ s.kind ≠ [] ∧ ∃ f ∈ listing, readslot f.2 = some s := by
  unfold listslots
  rw [mem_reverse, mem_filterMap]
  constructor
  · rintro ⟨f, member, found⟩
    have ⟨read, kind⟩ := filter_eq_some_iff.1 found
    exact ⟨of_decide_eq_true kind, f, member, read⟩
  · rintro ⟨kind, f, member, read⟩
    exact ⟨f, member, filter_eq_some_iff.2 ⟨read, decide_eq_true kind⟩⟩

theorem mem_frontload : s ∈ frontload slots cred ↔ s ∈ slots := by
  unfold frontload
  split
  · exact Iff.rfl
  split
  · exact Iff.rfl
  · rename_i m found
    exact (perm_cons_erase (mem_of_find?_eq_some found)).symm.mem_iff

section Unlock

variable {ans : Str → Bytes → Str → Except Str Bytes} {rootkey : Bytes} {pin : Str}

theorem trykey_opened :
    trykey sv ans rootkey pin s = .opened D ↔
      s.kind = str "key" ∧ ∃ w salt R, s.wrap = some w ∧ fromhex s.salt = some salt ∧
        salt.length = 32 ∧ ans s.cred salt pin = .ok R ∧ R ≠ [] ∧
        sv.decrypt3 w (sv.mkkek2fa rootkey R) none none = some D := by
  unfold trykey
  constructor
  · intro opened
    split at opened
    · cases opened
    rename_i kind
    split at opened
    · cases opened
    rename_i w wrap
    split at opened
    · cases opened
    rename_i salt saltRead
    obtain ⟨hex, length⟩ := filter_eq_some_iff.1 saltRead
    split at opened
    · cases opened
    rename_i R answered
    split at opened
    · cases opened
    rename_i some_
    split at opened
    · rename_i D' decrypts
      cases opened
      exact ⟨not_not.1 kind, w, salt, R, wrap, hex, of_decide_eq_true length, answered,
        some_, decrypts⟩
    · cases opened
  · rintro ⟨kind, w, salt, R, wrap, hex, length, answered, some_, decrypts⟩
    rw [if_neg (not_not.2 kind), wrap]
    dsimp only
    rw [filter_eq_some_iff.2 ⟨hex, decide_eq_true length⟩]
    dsimp only
    rw [answered]
    dsimp only
    rw [if_neg some_, decrypts]

theorem trykey_stop {e : Str} (stopped : trykey sv ans rootkey pin s = .failed e true) :
    ∃ salt, ans s.cred salt pin = .error e ∧ ispinerr e = true := by
  unfold trykey at stopped
  split at stopped
  · cases stopped
  split at stopped
  · cases stopped
  split at stopped
  · cases stopped
  rename_i salt _
  split at stopped
  · rename_i e' answered
    have same : e' = e ∧ ispinerr e' = true := by
      injection stopped with first second
      exact ⟨first, second⟩
    exact ⟨salt, by rw [answered, same.1], by rw [← same.1]; exact same.2⟩
  · split at stopped
    · cases stopped
    · split at stopped <;> cases stopped

theorem trykeys_ok {lastderr : Str} {r : Bytes × Str}
    (success : trykeys sv ans rootkey pin slots lastderr = .ok r) :
    ∃ s ∈ slots, trykey sv ans rootkey pin s = .opened r.1 ∧ r.2 = s.cred := by
  induction slots generalizing lastderr with
  | nil => cases success
  | cons s slots ih =>
    unfold trykeys at success
    split at success
    · have ⟨found, member, opened⟩ := ih success
      exact ⟨found, mem_cons_of_mem _ member, opened⟩
    · split at success
      · cases success
      · have ⟨found, member, opened⟩ := ih success
        exact ⟨found, mem_cons_of_mem _ member, opened⟩
    · rename_i DK opened
      rw [← Except.ok.inj success]
      exact ⟨s, mem_cons_self, opened, rfl⟩

/-- A slot that opens is found, or another, where nothing stops the search. -/
theorem trykeys_finds (onward : ∀ s ∈ slots, ∀ e, trykey sv ans rootkey pin s ≠ .failed e true)
    (member : s ∈ slots) (opened : trykey sv ans rootkey pin s = .opened D) (lastderr : Str) :
    ∃ r, trykeys sv ans rootkey pin slots lastderr = .ok r := by
  induction slots generalizing lastderr with
  | nil => cases member
  | cons first slots ih =>
    have later : trykey sv ans rootkey pin first ≠ .opened D → s ∈ slots := by
      intro other
      rcases mem_cons.1 member with rfl | later
      · exact absurd opened other
      · exact later
    have onwardLater := (forall_mem_cons.1 onward).2
    unfold trykeys
    split
    · rename_i skipped
      exact ih onwardLater (later (by rw [skipped]; nofun)) lastderr
    · rename_i err stop failed
      cases stop with
      | true => exact absurd failed (onward first mem_cons_self err)
      | false =>
        exact ih onwardLater (later (by rw [failed]; nofun)) err
    · rename_i DK found
      exact ⟨_, rfl⟩

theorem tryrecovery_some {user pass : Str} :
    tryrecovery sv user pass s = some D ↔
      s.kind = str "recovery" ∧ ∃ w, s.wrap = some w ∧
        sv.decrypt3 w (sv.mkfilekey3 user pass) none none = some D := by
  unfold tryrecovery
  split
  · rename_i other
    exact ⟨nofun, fun opened => absurd opened.1 other⟩
  · rename_i kind
    rw [bind_eq_some_iff]
    exact ⟨fun opened => ⟨not_not.1 kind, opened⟩, fun opened => opened.2⟩

variable {listing files : Files} {user pass : Str}

/-- What `unlock` returns came out of a slot, by a key that answered or by the passphrase. -/
theorem unlock_ok (success : (unlock sv ans listing files user rootkey pass pin).1 = .ok D) :
    ∃ s ∈ listslots listing, trykey sv ans rootkey pin s = .opened D ∨
      pass ≠ [] ∧ tryrecovery sv user pass s = some D := by
  unfold unlock at success
  split at success
  · cases success
  split at success
  · rename_i DK cred found
    have ⟨s, member, opened, _⟩ := trykeys_ok found
    rw [← Except.ok.inj success]
    exact ⟨s, mem_frontload.1 member, Or.inl opened⟩
  split at success
  · rename_i DK found
    rw [← Except.ok.inj success]
    split at found
    · cases found
    · rename_i some_
      have ⟨s, member, opened⟩ := exists_of_findSome?_eq_some found
      exact ⟨s, mem_frontload.1 member, Or.inr ⟨some_, opened⟩⟩
  · cases success

/-- The files afterwards are those before, but for a hint. -/
theorem unlock_files :
    (unlock sv ans listing files user rootkey pass pin).2 = files ∨
      ∃ cred, Word cred ∧ (unlock sv ans listing files user rootkey pass pin).2 =
        create files lastgoodname (cred ++ [10]) := by
  unfold unlock
  split
  · exact Or.inl rfl
  split
  · rename_i DK cred found
    have ⟨s, member, _, same⟩ := trykeys_ok found
    have ⟨_, f, _, read⟩ := mem_listslots.1 (mem_frontload.1 member)
    refine Or.inr ⟨cred, ?_, rfl⟩
    rw [show cred = s.cred from same]
    unfold readslot at read
    split at read
    · cases read
    · rw [← Option.some.inj read]
      exact parseslot_cred _
  · split <;> exact Or.inl rfl

theorem unlock_of_key (onward : ∀ c salt e, ans c salt pin = .error e → ispinerr e = false)
    (member : s ∈ listslots listing) (opened : trykey sv ans rootkey pin s = .opened D) :
    ∃ D', (unlock sv ans listing files user rootkey pass pin).1 = .ok D' := by
  have goesOn : ∀ t ∈ frontload (listslots listing) (readlastgood files), ∀ e,
      trykey sv ans rootkey pin t ≠ .failed e true := by
    intro _ _ _ stopped
    have ⟨_, answered, rejected⟩ := trykey_stop stopped
    rw [onward _ _ _ answered] at rejected
    cases rejected
  have ⟨⟨DK, cred⟩, found⟩ := trykeys_finds goesOn (mem_frontload.2 member) opened []
  unfold unlock
  rw [if_neg (ne_nil_of_mem member), found]
  exact ⟨DK, rfl⟩

theorem unlock_of_recovery (some_ : pass ≠ []) (member : s ∈ listslots listing)
    (opened : tryrecovery sv user pass s = some D) :
    ∃ D', (unlock sv ans listing files user rootkey pass pin).1 = .ok D' := by
  have found : ∃ D', (frontload (listslots listing) (readlastgood files)).findSome?
      (tryrecovery sv user pass) = some D' := by
    rw [← isSome_iff_exists, findSome?_isSome_iff]
    exact ⟨s, mem_frontload.2 member, by rw [opened]; rfl⟩
  have ⟨D', found⟩ := found
  unfold unlock
  rw [if_neg (ne_nil_of_mem member)]
  split
  · rename_i DK cred _
    exact ⟨DK, rfl⟩
  · rw [if_neg some_, found]
    exact ⟨D', rfl⟩

end Unlock

/-! ### Factors that work -/

def Answers (sv : Services) (ans : Str → Bytes → Str → Except Str Bytes) : Prop :=
  ∀ c salt p R, ans c salt p = .ok R → sv.derive c salt p = some R

def Held (sv : Services) (ans : Str → Bytes → Str → Except Str Bytes) : Factor → Prop
  | .key cred pin => (∀ salt R, sv.derive cred salt pin = some R → ans cred salt pin = .ok R) ∧
      ∀ c salt e, ans c salt pin = .error e → ispinerr e = false
  | .recovery _ => True

def absent : Str := str "no FIDO device present"

/-- The answers of a security key by itself. -/
def keyalone (sv : Services) (cred pin c : Str) (salt : Bytes) (p : Str) : Except Str Bytes :=
  if c = cred ∧ p = pin then
    match sv.derive c salt p with
    | some R => .ok R
    | none => .error absent
  else .error absent

def alone (sv : Services) : Factor → Str → Bytes → Str → Except Str Bytes
  | .key cred pin => keyalone sv cred pin
  | .recovery _ => fun _ _ _ => .error absent

theorem keyalone_cases (cred pin c : Str) (salt : Bytes) (p : Str) :
    keyalone sv cred pin c salt p = .error absent ∨
      c = cred ∧ p = pin ∧ ∃ R, sv.derive c salt p = some R ∧
        keyalone sv cred pin c salt p = .ok R := by
  unfold keyalone
  split
  · rename_i own
    cases derived : sv.derive c salt p with
    | none => exact Or.inl rfl
    | some R => exact Or.inr ⟨own.1, own.2, R, rfl, rfl⟩
  · exact Or.inl rfl

theorem alone_answers (f : Factor) : Answers sv (alone sv f) := by
  intro c salt p R answered
  cases f with
  | recovery _ => cases answered
  | key cred pin =>
    have answered : keyalone sv cred pin c salt p = .ok R := answered
    rcases keyalone_cases cred pin c salt p with none | ⟨_, _, R', derived, some_⟩
    · rw [none] at answered
      cases answered
    · rw [some_] at answered
      rw [derived, Except.ok.inj answered]

theorem alone_held (f : Factor) : Held sv (alone sv f) f := by
  cases f with
  | recovery _ => exact trivial
  | key cred pin =>
    constructor
    · intro salt R derived
      show keyalone sv cred pin cred salt pin = .ok R
      unfold keyalone
      rw [if_pos ⟨rfl, rfl⟩, derived]
    intro c salt e answered
    have answered : keyalone sv cred pin c salt pin = .error e := answered
    rcases keyalone_cases cred pin c salt pin with none | ⟨_, _, R, _, some_⟩
    · rw [none] at answered
      rw [← Except.error.inj answered]
      decide
    · rw [some_] at answered
      cases answered

variable {user pass : Str}

/-- With the factor at hand and nothing else, `unlock` gives a key only if a file opens by it. -/
theorem openedBy_of_unlock
    (success : (unlock sv (alone sv f) listing files user rootkey f.pass f.pin).1 = .ok D) :
    ∃ file ∈ listing, OpenedBy sv user rootkey file.2 D f := by
  have ⟨s, member, opened⟩ := unlock_ok success
  have ⟨_, file, inListing, read⟩ := mem_listslots.1 member
  refine ⟨file, inListing, ?_⟩
  cases f with
  | key cred pin =>
    rcases opened with byKey | ⟨some_, _⟩
    · have ⟨kind, w, salt, R, wrap, hex, length, answered, _, decrypts⟩ := trykey_opened.1 byKey
      have answered' : keyalone sv cred pin s.cred salt pin = .ok R := answered
      have same : s.cred = cred := by
        rcases keyalone_cases cred pin s.cred salt pin with none | ⟨own, _⟩
        · rw [none] at answered'
          cases answered'
        · exact own
      have derived := alone_answers (.key cred pin) _ _ _ _ answered
      rw [same] at derived
      exact ⟨s, w, salt, R, read, wrap, kind, same, hex, length, derived, decrypts⟩
    · exact absurd rfl some_
  | recovery _ =>
    rcases opened with byKey | ⟨some_, byPass⟩
    · have ⟨_, _, _, _, _, _, _, answered, _⟩ := trykey_opened.1 byKey
      cases answered
    · have ⟨kind, w, wrap, decrypts⟩ := tryrecovery_some.1 byPass
      exact ⟨s, w, read, wrap, kind, some_, decrypts⟩

/-- A factor that is at hand and opens a file gets a key from `unlock`. -/
theorem unlock_of_openedBy (ideal : sv.Ideal) (held : Held sv ans f) {file : Str × Str}
    (member : file ∈ listing) (opened : OpenedBy sv user rootkey file.2 D f) :
    ∃ D', (unlock sv ans listing files user rootkey f.pass f.pin).1 = .ok D' := by
  cases f with
  | key _ _ =>
    have ⟨s, w, salt, R, read, wrap, kind, same, hex, length, derived, decrypts⟩ := opened
    have listed : s ∈ listslots listing := by
      refine mem_listslots.2 ⟨?_, file, member, read⟩
      rw [kind]
      decide
    refine unlock_of_key held.2 listed (trykey_opened.2 ⟨kind, w, salt, R, wrap, hex, length, ?_,
      ideal.secret derived, decrypts⟩)
    rw [same]
    exact held.1 salt R derived
  | recovery _ =>
    have ⟨s, w, read, wrap, kind, some_, decrypts⟩ := opened
    have listed : s ∈ listslots listing := by
      refine mem_listslots.2 ⟨?_, file, member, read⟩
      rw [kind]
      decide
    exact unlock_of_recovery some_ listed (tryrecovery_some.2 ⟨kind, w, wrap, decrypts⟩)

theorem opens_of_unlock {recoverypass pin : Str}
    (success : (unlock sv ans listing files user rootkey recoverypass pin).1 = .ok D) :
    ∃ file ∈ listing, Opens sv file.2 D := by
  have ⟨s, member, opened⟩ := unlock_ok success
  have ⟨_, file, inListing, read⟩ := mem_listslots.1 member
  refine ⟨file, inListing, ?_⟩
  rcases opened with byKey | ⟨_, byPass⟩
  · have ⟨_, w, _, _, wrap, _, _, _, _, decrypts⟩ := trykey_opened.1 byKey
    exact ⟨s, w, read, wrap, _, decrypts⟩
  · have ⟨_, w, wrap, decrypts⟩ := tryrecovery_some.1 byPass
    exact ⟨s, w, read, wrap, _, decrypts⟩

/-- The stored file gives the plaintext to the password. -/
def ByPassword (sv : Services) (user pass : Str) (b m : Bytes) : Prop :=
  sv.decrypt3 b (sv.mkfilekey3 user pass) (some (sv.mkfilekey2 pass)) (some (sv.mkfilekey pass)) =
    some m

/-- With the password and the factor, the stored file gives the plaintext: to the password, or
to the key that `unlock` returns however the directory is listed. -/
def Works (sv : Services) (user pass : Str) (m : Bytes) (a : Account) (f : Factor) : Prop :=
  ∃ b, a.blob = some b ∧ (ByPassword sv user pass b m ∨
    ∀ listing ans, listing.Perm a.files → Answers sv ans → Held sv ans f →
      ∃ D, (unlock sv ans listing a.files user (sv.mkfilekey3 user pass) f.pass f.pin).1 = .ok D ∧
        sv.decrypt3 b D none none = some m)

end Infernode.Twofaslot
