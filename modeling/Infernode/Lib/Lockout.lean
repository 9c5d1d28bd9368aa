import Infernode.Lib.Slotwrites

/-!
Whether changes of the second factor can lock a user out.

Owns: what a run of enrolments, further keys and disablings keeps, whatever fails in it; and the
failures and inputs that it has to be spared.
-/

namespace Infernode.Twofaslot

open Text List

variable {sv : Services} {user pass : Str}

/-! ### The calls and their conditions -/

inductive Call
  | enroll (recoverypass : Str) (keys : List (Str × Str × Str)) (pin : Str)
  | addkey (recoverypass cred salthex newpin : Str)
  | disable (recoverypass pin : Str)

def perform (sv : Services) (user pass : Str) (w : World) (a : Account) :
    Call → Account × Option Str
  | .enroll recoverypass keys pin => enroll sv w a user pass recoverypass keys pin
  | .addkey recoverypass cred salthex newpin =>
    addkey sv w a user pass recoverypass cred salthex newpin
  | .disable recoverypass pin => disable sv w a user pass recoverypass pin

def enrolledafter (enrolled : List Factor) (err : Option Str) : Call → List Factor
  | .enroll recoverypass keys pin =>
    if err.isNone then factorsof keys recoverypass pin else enrolled
  | .addkey _ cred _ newpin => if err.isNone then .key cred newpin :: enrolled else enrolled
  | .disable _ _ => enrolled

/-- The security key answers what it derives, and no files are seen but those there are. -/
structure World.Honest (sv : Services) (w : World) (a : Account) : Prop where
  answers : Answers sv w.ans
  listing : w.listing ⊆ a.files
  marked : w.marked ⊆ a.files

def keyname (cred : Str) : Str := str "key-" ++ cred.take 16

/-- What a call has to be spared. An enrolment: that a stored file cannot be read, that a file
is stored though the store reports a failure, or that, when it is stored, a file stays behind
that still opens; and a random data key that is the password's. A further key: that the writing
of a slot fails that is there already. A disabling: that nothing is stored though the store
reports none of it. -/
def Spared (sv : Services) (user pass : Str) (w : World) (a : Account) : Call → Prop
  | .enroll recoverypass keys _ => (w.read = true ∨ a.blob = none) ∧
      (w.put = false → w.stored = false) ∧ (∀ key ∈ keys, Goodkey key) ∧
      (w.stored = true → ∀ file ∈ a.files, file.1 ∉ namesof keys recoverypass →
        ∀ D, ¬Opens sv file.2 D) ∧
      w.random ≠ some (sv.mkfilekey3 user pass)
  | .addkey _ cred salthex _ => Goodkey (keyname cred, cred, salthex) ∧
      ∀ n, w.fate 0 = .short n → ∀ file ∈ a.files, file.1 ≠ keyname cred
  | .disable _ _ => w.put = true → w.stored = true

section Calls

variable {w : World} {a : Account} {m : Bytes}

/-- What an enrolment has got before it writes slots. -/
structure Renewal (sv : Services) (user pass : Str) (w : World) (a : Account)
    (plaintext D newfile : Bytes) : Prop where
  none_ : (if w.read then a.blob else none) = none → plaintext = []
  some_ : ∀ file, (if w.read then a.blob else none) = some file →
    ByPassword sv user pass file plaintext
  random : w.random = some D
  length : D.length = 32
  sealed : ∃ coin, sv.encrypt3 coin plaintext D = some newfile

theorem enroll_cases (w : World) (a : Account) (user pass recoverypass : Str)
    (keys : List (Str × Str × Str)) (pin : Str) :
    (∃ err, enroll sv w a user pass recoverypass keys pin = (a, some err)) ∨
      ∃ plaintext D newfile, Renewal sv user pass w a plaintext D newfile ∧
        ∃ files, (∃ err err', writeslots sv w a.files user (sv.mkfilekey3 user pass) D keys
            recoverypass pin = (files, some err) ∧
          enroll sv w a user pass recoverypass keys pin = (⟨a.blob, files⟩, some err')) ∨
        writeslots sv w a.files user (sv.mkfilekey3 user pass) D keys recoverypass pin =
            (files, none) ∧
          (w.put = true ∧ enroll sv w a user pass recoverypass keys pin =
              (⟨if w.stored then some newfile else a.blob, files⟩, none) ∨
            w.put = false ∧ ∃ err, enroll sv w a user pass recoverypass keys pin =
              (⟨if w.stored then some newfile else a.blob, removeslots w files⟩, some err)) := by
  unfold enroll
  split
  · exact Or.inl ⟨_, rfl⟩
  split
  · exact Or.inl ⟨_, rfl⟩
  rename_i plaintext read
  split
  · exact Or.inl ⟨_, rfl⟩
  rename_i D generated
  have ⟨random, length⟩ := Option.filter_eq_some_iff.1 generated
  split
  · exact Or.inl ⟨_, rfl⟩
  rename_i newfile encrypted
  have ⟨sealed, _⟩ := Option.filter_eq_some_iff.1 encrypted
  have renewal : Renewal sv user pass w a plaintext D newfile := by
    refine ⟨?_, ?_, random, of_decide_eq_true length, _, sealed⟩
    · intro missing
      rw [missing] at read
      exact (Option.some.inj read).symm
    · intro file found
      rw [found] at read
      exact read
  right
  refine ⟨plaintext, D, newfile, renewal, ?_⟩
  split
  · rename_i files err wrote
    exact ⟨files, Or.inl ⟨err, _, wrote, rfl⟩⟩
  rename_i files wrote
  refine ⟨files, Or.inr ⟨wrote, ?_⟩⟩
  cases put : w.put with
  | true => exact Or.inl ⟨rfl, rfl⟩
  | false => exact Or.inr ⟨rfl, _, rfl⟩

theorem addkey_cases (w : World) (a : Account) (user pass recoverypass cred salthex newpin : Str) :
    (∃ err, addkey sv w a user pass recoverypass cred salthex newpin = (a, some err)) ∨
      (∃ err, addkey sv w a user pass recoverypass cred salthex newpin =
        (⟨a.blob, (unlock sv w.ans w.listing a.files user (sv.mkfilekey3 user pass)
          recoverypass []).2⟩, some err)) ∨
      ∃ D files, unlock sv w.ans w.listing a.files user (sv.mkfilekey3 user pass)
          recoverypass [] = (.ok D, files) ∧
        addkey sv w a user pass recoverypass cred salthex newpin =
          (⟨a.blob, (writeslots sv w files user (sv.mkfilekey3 user pass) D
            [(keyname cred, cred, salthex)] [] newpin).1⟩,
            (writeslots sv w files user (sv.mkfilekey3 user pass) D
              [(keyname cred, cred, salthex)] [] newpin).2) := by
  unfold addkey
  split
  · exact Or.inl ⟨_, rfl⟩
  split
  · rename_i e files unlocked
    refine Or.inr (Or.inl ⟨str "cannot unlock with the recovery passphrase: " ++ e, ?_⟩)
    rw [unlocked]
  · rename_i D files unlocked
    exact Or.inr (Or.inr ⟨D, files, unlocked, rfl⟩)

/-- What a disabling can come to: the slots go only when the file was put under the password. -/
theorem disable_cases (w : World) (a : Account) (user pass recoverypass pin : Str) :
    disable sv w a user pass recoverypass pin = (a, none) ∨
      (∃ err, disable sv w a user pass recoverypass pin =
        (⟨a.blob, (unlock sv w.ans w.listing a.files user (sv.mkfilekey3 user pass)
          recoverypass pin).2⟩, some err)) ∨
      ∃ D files, unlock sv w.ans w.listing a.files user (sv.mkfilekey3 user pass)
          recoverypass pin = (.ok D, files) ∧
        ∃ file plaintext newfile coin, a.blob = some file ∧
          sv.decrypt3 file D none none = some plaintext ∧
          sv.encrypt3 coin plaintext (sv.mkfilekey3 user pass) = some newfile ∧
          (w.put = true ∧ disable sv w a user pass recoverypass pin =
              (⟨if w.stored then some newfile else a.blob, removeslots w files⟩, none) ∨
            w.put = false ∧ ∃ err, disable sv w a user pass recoverypass pin =
              (⟨if w.stored then some newfile else a.blob, files⟩, some err)) := by
  unfold disable
  split
  · exact Or.inl rfl
  right
  split
  · rename_i e files unlocked
    refine Or.inl ⟨str "cannot recover data key to disable: " ++ e, ?_⟩
    rw [unlocked]
  rename_i D files unlocked
  have kept : (unlock sv w.ans w.listing a.files user (sv.mkfilekey3 user pass)
      recoverypass pin).2 = files := by rw [unlocked]
  rw [kept]
  split
  · exact Or.inl ⟨_, rfl⟩
  split
  · exact Or.inl ⟨_, rfl⟩
  rename_i file got
  have stored : a.blob = some file := by
    split at got
    · exact got
    · cases got
  split
  · exact Or.inl ⟨_, rfl⟩
  rename_i plaintext decrypts
  split
  · exact Or.inl ⟨_, rfl⟩
  rename_i newfile encrypted
  have ⟨sealed, _⟩ := Option.filter_eq_some_iff.1 encrypted
  refine Or.inr ⟨D, files, unlocked, file, plaintext, newfile, _, stored, decrypts,
    sealed, ?_⟩
  cases put : w.put with
  | true => exact Or.inl ⟨rfl, rfl⟩
  | false => exact Or.inr ⟨rfl, _, rfl⟩

end Calls

/-! ### What a run keeps -/

/-- The stored file is under the password, or there is none yet. -/
def OnPassword (sv : Services) (user pass : Str) (m : Bytes) (blob : Option Bytes) : Prop :=
  (blob = none → m = []) ∧
    ∀ b, blob = some b → ∃ coin, sv.encrypt3 coin m (sv.mkfilekey3 user pass) = some b

/-- The stored file is under a data key, to which alone the slots open, one of them by a factor
that was enrolled. -/
structure OnSlots (sv : Services) (user pass : Str) (m : Bytes) (a : Account)
    (enrolled : List Factor) (D : Bytes) : Prop where
  length : D.length = 32
  fresh : D ≠ sv.mkfilekey3 user pass
  blob : ∃ b coin, a.blob = some b ∧ sv.encrypt3 coin m D = some b
  only : ∀ file ∈ a.files, ∀ D', Opens sv file.2 D' → D' = D
  way : ∃ f ∈ enrolled, ∃ file ∈ a.files, OpenedBy sv user (sv.mkfilekey3 user pass) file.2 D f

structure Sound (sv : Services) (user pass : Str) (m : Bytes) (a : Account)
    (enrolled : List Factor) : Prop where
  fresh : ∀ file ∈ a.files, ∀ D, Opens sv file.2 D → D ≠ sv.mkfilekey3 user pass
  hint : ∀ file ∈ a.files, file.1 = lastgoodname → ∀ D, ¬Opens sv file.2 D
  mode : OnPassword sv user pass m a.blob ∨ ∃ D, OnSlots sv user pass m a enrolled D

variable {blob : Option Bytes} {D : Bytes} {f : Factor} {file : Str × Str}

variable {m : Bytes} {a : Account} {enrolled : List Factor}

variable {b k : Bytes}

theorem OnPassword.byPassword (ideal : sv.Ideal) (onPassword : OnPassword sv user pass m blob)
    (stored : blob = some b) : ByPassword sv user pass b m := by
  have ⟨_, sealed⟩ := onPassword.2 b stored
  exact ideal.opens sealed _ _

theorem OnSlots.works (ideal : sv.Ideal) (onSlots : OnSlots sv user pass m a enrolled D)
    (member : file ∈ a.files) (opened : OpenedBy sv user (sv.mkfilekey3 user pass) file.2 D f) :
    Works sv user pass m a f := by
  obtain ⟨b, _, stored, sealed⟩ := onSlots.blob
  refine ⟨b, stored, Or.inr ?_⟩
  intro _ _ rearranged _ held
  obtain ⟨D', success⟩ := unlock_of_openedBy ideal held (rearranged.mem_iff.2 member) opened
  obtain ⟨other, inListing, opens⟩ := opens_of_unlock success
  have same := onSlots.only other (rearranged.mem_iff.1 inListing) D' opens
  exact ⟨D', success, by rw [same, ideal.opens sealed]⟩

theorem OnSlots.openedBy (ideal : sv.Ideal) (onSlots : OnSlots sv user pass m a enrolled D)
    (works : Works sv user pass m a f) :
    ∃ file ∈ a.files, OpenedBy sv user (sv.mkfilekey3 user pass) file.2 D f := by
  have ⟨_, _, stored, sealed⟩ := onSlots.blob
  have ⟨_, stored', ways⟩ := works
  rw [stored, Option.some.injEq] at stored'
  rw [← stored'] at ways
  rcases ways with byPassword | byFactor
  · exact absurd (ideal.sealed sealed byPassword).symm onSlots.fresh
  have ⟨D', success, _⟩ :=
    byFactor a.files (alone sv f) (List.Perm.refl _) (alone_answers f) (alone_held f)
  have ⟨file, member, opened⟩ := openedBy_of_unlock success
  rw [onSlots.only file member D' opened.opens] at opened
  exact ⟨file, member, opened⟩

section Steps

variable {w : World} {a : Account} {m : Bytes} {enrolled : List Factor}

variable {recoverypass pin : Str} {files : Files}

variable {ans : Str → Bytes → Str → Except Str Bytes} {listing : Files} {rootkey : Bytes}

/-- A file that opens is none that `unlock` writes its hint in. -/
theorem Sound.mem_unlock (sound : Sound sv user pass m a enrolled) (member : file ∈ a.files)
    (opens : Opens sv file.2 D) :
    file ∈ (unlock sv ans listing a.files user (sv.mkfilekey3 user pass) recoverypass pin).2 := by
  rcases @unlock_files sv ans (sv.mkfilekey3 user pass) pin listing a.files user recoverypass with
    same | ⟨cred, _, same⟩
  · rw [same]
    exact member
  · rw [same]
    exact mem_create.2 (Or.inl ⟨member, fun name => sound.hint file member name D opens⟩)

theorem mem_unlock_files
    (member : file ∈ (unlock sv ans listing files user rootkey recoverypass pin).2) :
    file ∈ files ∨ file.1 = lastgoodname ∧ ∀ D, ¬Opens sv file.2 D := by
  rcases @unlock_files sv ans rootkey pin listing files user recoverypass with
    same | ⟨cred, word, same⟩
  · rw [same] at member
    exact Or.inl member
  rw [same] at member
  rcases mem_create.1 member with ⟨before, _⟩ | hint
  · exact Or.inl before
  · rw [hint]
    exact Or.inr ⟨rfl, not_opens_hint word⟩

/-- The hint that `unlock` leaves changes nothing. -/
theorem Sound.unlocked (sound : Sound sv user pass m a enrolled)
    (ans : Str → Bytes → Str → Except Str Bytes) (listing : Files) (recoverypass pin : Str) :
    Sound sv user pass m
      ⟨a.blob, (unlock sv ans listing a.files user (sv.mkfilekey3 user pass) recoverypass pin).2⟩
      enrolled := by
  refine ⟨?_, ?_, ?_⟩
  · intro file member D opens
    rcases mem_unlock_files member with before | ⟨_, nothing⟩
    · exact sound.fresh file before D opens
    · exact absurd opens (nothing D)
  · intro file member name D opens
    rcases mem_unlock_files member with before | ⟨_, nothing⟩
    · exact sound.hint file before name D opens
    · exact nothing D opens
  rcases sound.mode with onPassword | ⟨D, onSlots⟩
  · exact Or.inl onPassword
  refine Or.inr ⟨D, onSlots.length, onSlots.fresh, onSlots.blob, ?_, ?_⟩
  · intro file member D' opens
    rcases mem_unlock_files member with before | ⟨_, nothing⟩
    · exact onSlots.only file before D' opens
    · exact absurd opens (nothing D')
  · have ⟨f, isEnrolled, file, member, opened⟩ := onSlots.way
    exact ⟨f, isEnrolled, file, sound.mem_unlock member opened.opens, opened⟩

theorem sound_onPassword (onPassword : OnPassword sv user pass m blob)
    (each : ∀ file ∈ files, (∀ D, Opens sv file.2 D → D ≠ sv.mkfilekey3 user pass) ∧
      (file.1 = lastgoodname → ∀ D, ¬Opens sv file.2 D)) :
    Sound sv user pass m ⟨blob, files⟩ enrolled :=
  ⟨fun file member => (each file member).1, fun file member => (each file member).2,
    Or.inl onPassword⟩

theorem works_keeps (ideal : sv.Ideal) {a' : Account} {enrolled' : List Factor}
    (sound : Sound sv user pass m a enrolled) (sound' : Sound sv user pass m a' enrolled')
    (blob : a'.blob = a.blob) (kept : ∀ file ∈ a.files, ∀ D, Opens sv file.2 D → file ∈ a'.files)
    (works : Works sv user pass m a f) : Works sv user pass m a' f := by
  have ⟨b, stored, _⟩ := id works
  rcases sound'.mode with onPassword | ⟨D', onSlots'⟩
  · have stored' : a'.blob = some b := by rw [blob, stored]
    exact ⟨b, stored', Or.inl (onPassword.byPassword ideal stored')⟩
  rcases sound.mode with onPassword | ⟨D, onSlots⟩
  · have ⟨_, _, stored', sealed⟩ := onSlots'.blob
    rw [blob] at stored'
    exact absurd (ideal.sealed sealed (onPassword.byPassword ideal stored')).symm onSlots'.fresh
  have ⟨file, member, opened⟩ := onSlots.openedBy ideal works
  have there := kept file member D opened.opens
  rw [onSlots'.only file there D opened.opens] at opened
  exact onSlots'.works ideal there opened

theorem works_onPassword (ideal : sv.Ideal) (onPassword : OnPassword sv user pass m blob)
    (stored : blob = some b) (f : Factor) : Works sv user pass m ⟨blob, files⟩ f :=
  ⟨b, stored, Or.inl (onPassword.byPassword ideal stored)⟩

/-- An enrolment gets past the stored file only while that is under the password. -/
theorem Renewal.onPassword (ideal : sv.Ideal) {plaintext newfile : Bytes}
    (renewal : Renewal sv user pass w a plaintext D newfile)
    (sound : Sound sv user pass m a enrolled) (read : w.read = true ∨ a.blob = none) :
    OnPassword sv user pass m a.blob ∧ plaintext = m := by
  have got : (if w.read then a.blob else none) = a.blob := by
    rcases read with yes | none
    · rw [if_pos yes]
    · rw [none, ite_self]
  rcases sound.mode with onPassword | ⟨D', onSlots⟩
  · refine ⟨onPassword, ?_⟩
    cases stored : a.blob with
    | none => rw [renewal.none_ (by rw [got, stored]), onPassword.1 stored]
    | some b =>
      have first := renewal.some_ b (by rw [got, stored])
      have second := onPassword.byPassword ideal stored
      unfold ByPassword at first second
      rw [first] at second
      exact Option.some.inj second
  · have ⟨b, _, stored, sealed⟩ := onSlots.blob
    have first := renewal.some_ b (by rw [got, stored])
    exact absurd (ideal.sealed sealed first).symm onSlots.fresh

theorem enroll_sound (ideal : sv.Ideal) (sound : Sound sv user pass m a enrolled)
    (honest : w.Honest sv a) {keys : List (Str × Str × Str)}
    (spared : Spared sv user pass w a (.enroll recoverypass keys pin)) :
    Sound sv user pass m (enroll sv w a user pass recoverypass keys pin).1
      (enrolledafter enrolled (enroll sv w a user pass recoverypass keys pin).2
        (.enroll recoverypass keys pin)) ∧
      ((enroll sv w a user pass recoverypass keys pin).2 ≠ none →
        ∀ f, Works sv user pass m a f →
          Works sv user pass m (enroll sv w a user pass recoverypass keys pin).1 f) := by
  have ⟨read, truthful, good, behind, random⟩ := spared
  rcases @enroll_cases sv w a user pass recoverypass keys pin with
    ⟨err, same⟩ | ⟨plaintext, D, newfile, renewal, files, outcome⟩
  · rw [same]
    exact ⟨sound, fun _ f works => works⟩
  have ⟨onPassword, isText⟩ := renewal.onPassword ideal sound read
  have other : D ≠ sv.mkfilekey3 user pass := by
    rintro rfl
    exact random renewal.random
  -- whatever was written opens to the new key, and the rest is as it was
  have each : ∀ written : Files × Option Str,
      writeslots sv w a.files user (sv.mkfilekey3 user pass) D keys recoverypass pin = written →
        ∀ file ∈ written.1, (∀ D', Opens sv file.2 D' → D' ≠ sv.mkfilekey3 user pass) ∧
          (file.1 = lastgoodname → ∀ D', ¬Opens sv file.2 D') := by
    rintro written rfl file member
    rcases mem_writeslots ideal honest.answers good member with before | ⟨name, only⟩
    · exact ⟨sound.fresh file before, sound.hint file before⟩
    · exact ⟨fun D' opens => by rw [only D' opens]; exact other, fun hint => absurd hint name⟩
  have still : ∀ {files : Files} {f : Factor}, Works sv user pass m a f →
      Works sv user pass m ⟨a.blob, files⟩ f := by
    rintro files f ⟨b, stored, _⟩
    exact works_onPassword ideal onPassword stored f
  rcases outcome with ⟨err, err', wrote, result⟩ | ⟨wrote, ⟨put, result⟩ | ⟨put, err, result⟩⟩
  · rw [result]
    exact ⟨sound_onPassword onPassword (each _ wrote), fun _ f works => still works⟩
  · rw [result]
    refine ⟨?_, fun failed => absurd rfl failed⟩
    cases stored : w.stored with
    | false => exact sound_onPassword onPassword (each _ wrote)
    | true =>
      have success : (writeslots sv w a.files user (sv.mkfilekey3 user pass) D keys
          recoverypass pin).2 = none := by rw [wrote]
      have ⟨others, f, isFactor, file, member, opened⟩ :=
        writeslots_none ideal honest.answers good success
      rw [wrote] at others member
      refine ⟨fun file member => (each _ wrote file member).1,
        fun file member => (each _ wrote file member).2, Or.inr ⟨D, renewal.length, other, ?_,
        ?_, f, isFactor, file, member, opened renewal.length⟩⟩
      · have ⟨coin, sealed⟩ := renewal.sealed
        exact ⟨newfile, coin, rfl, by rw [← isText]; exact sealed⟩
      intro file member D' opens
      rcases others file member with ⟨before, name⟩ | only
      · exact absurd opens (behind stored file before name D')
      · exact only D' opens
  · rw [result, truthful put]
    refine ⟨sound_onPassword onPassword ?_, fun _ f works => still works⟩
    intro file member
    exact each _ wrote file (mem_of_mem_filter member)

theorem writeslots_single {key : Str × Str × Str} (ideal : sv.Ideal) (answers : Answers sv w.ans)
    (good : Goodkey key) (spared : ∀ n, w.fate 0 = .short n → ∀ file ∈ files, file.1 ≠ key.1)
    (failed : (writeslots sv w files user rootkey D [key] [] pin).2 ≠ none) :
    ∀ file ∈ files, file ∈ (writeslots sv w files user rootkey D [key] [] pin).1 := by
  intro file member
  have goodAll : ∀ k ∈ [key], Goodkey k := fun k inKeys => by rwa [mem_singleton.1 inKeys]
  unfold writeslots at failed ⊢
  split
  · exact member
  rename_i recs built
  split
  · exact member
  split
  · exact member
  rename_i some_ mkdir
  have single : ∃ rec, recs = [rec] ∧ rec.1 = key.1 := by
    unfold buildslots buildkeys at built
    split at built
    · cases built
    rename_i keyrecs keysBuilt
    split at keysBuilt
    · cases keysBuilt
    rename_i slot first
    rw [← Except.ok.inj built]
    refine ⟨slot, (Except.ok.inj keysBuilt).symm, ?_⟩
    exact (@buildkey_built sv user w rootkey D pin ideal answers 0 key good slot first).1
  obtain ⟨⟨name, content⟩, rfl, same⟩ := single
  rw [built] at failed
  have failed : (writerecs w (slotdir user) 0 [(name, content)] files).2 ≠ none := by
    intro success
    apply failed
    show (if [(name, content)] = [] then (files, _) else if w.mkdir = false then (files, _)
      else writerecs w (slotdir user) 0 [(name, content)] files).2 = none
    rw [if_neg some_, if_neg mkdir, success]
  unfold writerecs at failed ⊢
  split
  · exact member
  · rename_i n fated
    refine mem_create.2 (Or.inl ⟨member, ?_⟩)
    rw [show name = key.1 from same]
    exact spared n fated file member
  · rename_i fated
    rw [fated] at failed
    exact absurd rfl failed

theorem addkey_sound (ideal : sv.Ideal) (sound : Sound sv user pass m a enrolled)
    (honest : w.Honest sv a) {cred salthex newpin : Str}
    (spared : Spared sv user pass w a (.addkey recoverypass cred salthex newpin)) :
    Sound sv user pass m (addkey sv w a user pass recoverypass cred salthex newpin).1
      (enrolledafter enrolled (addkey sv w a user pass recoverypass cred salthex newpin).2
        (.addkey recoverypass cred salthex newpin)) ∧
      ((addkey sv w a user pass recoverypass cred salthex newpin).2 ≠ none →
        ∀ f, Works sv user pass m a f →
          Works sv user pass m (addkey sv w a user pass recoverypass cred salthex newpin).1 f) := by
  have ⟨good, untouched⟩ := spared
  have hinted := sound.unlocked w.ans w.listing recoverypass []
  rcases @addkey_cases sv w a user pass recoverypass cred salthex newpin with
    ⟨err, same⟩ | ⟨err, same⟩ | ⟨D, files, unlocked, same⟩
  · rw [same]
    exact ⟨sound, fun _ f works => works⟩
  · rw [same]
    refine ⟨hinted, fun _ f works => ?_⟩
    exact works_keeps ideal sound hinted rfl (fun file member D opens =>
      sound.mem_unlock member opens) works
  have success : (unlock sv w.ans w.listing a.files user (sv.mkfilekey3 user pass)
      recoverypass []).1 = .ok D := by rw [unlocked]
  have ⟨source, inListing, opensSource⟩ := opens_of_unlock success
  have inFiles := honest.listing inListing
  have kept : ∀ file ∈ a.files, ∀ D, Opens sv file.2 D → file ∈ files := by
    intro file member D' opens
    have there : file ∈ (unlock sv w.ans w.listing a.files user (sv.mkfilekey3 user pass)
        recoverypass []).2 := sound.mem_unlock member opens
    rwa [unlocked] at there
  rw [unlocked] at hinted
  have goodAll : ∀ key ∈ [(keyname cred, cred, salthex)], Goodkey key := fun key inKeys => by
    rwa [mem_singleton.1 inKeys]
  have files_untouched : ∀ n, w.fate 0 = .short n → ∀ file ∈ files, file.1 ≠ keyname cred := by
    intro n fated file member
    have member : file ∈ (unlock sv w.ans w.listing a.files user (sv.mkfilekey3 user pass)
        recoverypass []).2 := by rwa [unlocked]
    rcases mem_unlock_files member with before | ⟨hint, _⟩
    · exact untouched n fated file before
    · rw [hint]
      exact fun same => good.name.hint same.symm
  have other : D ≠ sv.mkfilekey3 user pass := sound.fresh source inFiles D opensSource
  have each : ∀ file ∈ (writeslots sv w files user (sv.mkfilekey3 user pass) D
      [(keyname cred, cred, salthex)] [] newpin).1,
      file ∈ files ∨ file.1 ≠ lastgoodname ∧ ∀ D', Opens sv file.2 D' → D' = D :=
    fun file member => mem_writeslots ideal honest.answers goodAll member
  have remain : (writeslots sv w files user (sv.mkfilekey3 user pass) D
      [(keyname cred, cred, salthex)] [] newpin).2 ≠ none →
      ∀ file ∈ files, file ∈ (writeslots sv w files user (sv.mkfilekey3 user pass) D
        [(keyname cred, cred, salthex)] [] newpin).1 :=
    writeslots_single ideal honest.answers good files_untouched
  rw [same]
  generalize wrote : writeslots sv w files user (sv.mkfilekey3 user pass) D
    [(keyname cred, cred, salthex)] [] newpin = result at each remain
  have sound' : Sound sv user pass m ⟨a.blob, result.1⟩ (enrolledafter enrolled result.2
      (.addkey recoverypass cred salthex newpin)) := by
    refine ⟨?_, ?_, ?_⟩
    · intro file member D' opens
      rcases each file member with before | ⟨_, only⟩
      · exact hinted.fresh file before D' opens
      · rw [only D' opens]
        exact other
    · intro file member hint
      rcases each file member with before | ⟨name, _⟩
      · exact hinted.hint file before hint
      · exact absurd hint name
    rcases hinted.mode with onPassword | ⟨D', onSlots⟩
    · exact Or.inl onPassword
    have isKey : D = D' := by
      have opens := kept source inFiles D opensSource
      exact onSlots.only source opens D opensSource
    subst isKey
    refine Or.inr ⟨D, onSlots.length, onSlots.fresh, onSlots.blob, ?_, ?_⟩
    · intro file member D' opens
      rcases each file member with before | ⟨_, only⟩
      · exact onSlots.only file before D' opens
      · exact only D' opens
    cases failed : result.2 with
    | none =>
      have none_ : (writeslots sv w files user (sv.mkfilekey3 user pass) D
          [(keyname cred, cred, salthex)] [] newpin).2 = none := by rw [wrote, failed]
      have ⟨_, f, isFactor, file, member, opened⟩ :=
        writeslots_none ideal honest.answers goodAll none_
      rw [wrote] at member
      rw [mem_singleton.1 isFactor] at opened
      exact ⟨_, mem_cons_self, file, member, opened onSlots.length⟩
    | some err =>
      have ⟨f, isEnrolled, file, member, opened⟩ := onSlots.way
      have there := remain (by rw [failed]; exact Option.some_ne_none err) file member
      exact ⟨f, isEnrolled, file, there, opened⟩
  refine ⟨sound', fun failed f works => ?_⟩
  exact works_keeps ideal sound sound' rfl
    (fun file member D' opens => remain failed file (kept file member D' opens)) works

theorem disable_sound (ideal : sv.Ideal) (sound : Sound sv user pass m a enrolled)
    (honest : w.Honest sv a) (spared : Spared sv user pass w a (.disable recoverypass pin)) :
    Sound sv user pass m (disable sv w a user pass recoverypass pin).1 enrolled ∧
      ((disable sv w a user pass recoverypass pin).2 ≠ none →
        ∀ f, Works sv user pass m a f →
          Works sv user pass m (disable sv w a user pass recoverypass pin).1 f) := by
  have hinted := sound.unlocked w.ans w.listing recoverypass pin
  have still : ∀ f, Works sv user pass m a f → Works sv user pass m
      ⟨a.blob, (unlock sv w.ans w.listing a.files user (sv.mkfilekey3 user pass)
        recoverypass pin).2⟩ f :=
    fun f => works_keeps ideal sound hinted rfl fun file member D opens =>
      sound.mem_unlock member opens
  rcases @disable_cases sv w a user pass recoverypass pin with
    same | ⟨err, same⟩ | ⟨D, files, unlocked, file, plaintext, newfile, coin, stored, decrypts,
      sealed, outcome⟩
  · rw [same]
    exact ⟨sound, fun failed => absurd rfl failed⟩
  · rw [same]
    exact ⟨hinted, fun _ f works => still f works⟩
  have success : (unlock sv w.ans w.listing a.files user (sv.mkfilekey3 user pass)
      recoverypass pin).1 = .ok D := by rw [unlocked]
  have ⟨source, inListing, opensSource⟩ := opens_of_unlock success
  have inFiles := honest.listing inListing
  rw [unlocked] at hinted still
  have isText : plaintext = m := by
    rcases sound.mode with onPassword | ⟨D', onSlots⟩
    · have ⟨_, under⟩ := onPassword.2 file stored
      exact absurd (ideal.sealed under decrypts) (sound.fresh source inFiles D opensSource)
    have ⟨b, _, stored', under⟩ := onSlots.blob
    rw [stored, Option.some.injEq] at stored'
    rw [onSlots.only source inFiles D opensSource, stored', ideal.opens under] at decrypts
    exact (Option.some.inj decrypts).symm
  have onPassword : OnPassword sv user pass m (some newfile) := by
    refine ⟨nofun, ?_⟩
    intro _ same
    rw [← Option.some.inj same, ← isText]
    exact ⟨coin, sealed⟩
  rcases outcome with ⟨put, result⟩ | ⟨put, err, result⟩
  · rw [result, spared put]
    refine ⟨sound_onPassword onPassword ?_, fun failed => absurd rfl failed⟩
    intro kept member
    have before := mem_of_mem_filter member
    exact ⟨hinted.fresh kept before, hinted.hint kept before⟩
  rw [result]
  cases w.stored with
  | true =>
    refine ⟨sound_onPassword onPassword fun kept member =>
      ⟨hinted.fresh kept member, hinted.hint kept member⟩, fun _ f _ => ?_⟩
    exact works_onPassword ideal onPassword rfl f
  | false => exact ⟨hinted, fun _ f works => still f works⟩

end Steps

theorem perform_sound (ideal : sv.Ideal) {w : World} (sound : Sound sv user pass m a enrolled)
    (honest : w.Honest sv a) {call : Call} (spared : Spared sv user pass w a call) :
    Sound sv user pass m (perform sv user pass w a call).1
      (enrolledafter enrolled (perform sv user pass w a call).2 call) ∧
      ((perform sv user pass w a call).2 ≠ none → ∀ f, Works sv user pass m a f →
        Works sv user pass m (perform sv user pass w a call).1 f) := by
  cases call with
  | enroll _ _ _ => exact enroll_sound ideal sound honest spared
  | addkey _ _ _ _ => exact addkey_sound ideal sound honest spared
  | disable _ _ => exact disable_sound ideal sound honest spared

/-! ### Runs -/

/-- An account without slots, whose stored file, if any, is under the password. -/
def Start (sv : Services) (user pass : Str) (m : Bytes) (a : Account) : Prop :=
  a.files = [] ∧ OnPassword sv user pass m a.blob

/-- The accounts that calls lead to, whatever fails in them but what they have to be spared. -/
inductive Reaches (sv : Services) (user pass : Str) (m : Bytes) : Account → List Factor → Prop
  | start {a : Account} (start : Start sv user pass m a) : Reaches sv user pass m a []
  | step {a : Account} {enrolled : List Factor} (reaches : Reaches sv user pass m a enrolled)
      (w : World) (honest : w.Honest sv a) (call : Call) (spared : Spared sv user pass w a call) :
      Reaches sv user pass m (perform sv user pass w a call).1
        (enrolledafter enrolled (perform sv user pass w a call).2 call)

theorem Reaches.sound (ideal : sv.Ideal) (reaches : Reaches sv user pass m a enrolled) :
    Sound sv user pass m a enrolled := by
  induction reaches with
  | start start =>
    rename_i a
    refine ⟨?_, ?_, Or.inl start.2⟩
    · rw [start.1]
      exact nofun
    · rw [start.1]
      exact nofun
  | step _ w honest call spared ih =>
    exact (perform_sound ideal ih honest spared).1

end Infernode.Twofaslot
