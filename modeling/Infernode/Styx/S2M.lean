import Infernode.Styx.ConvS2M
import Infernode.Styx.Fields
import Infernode.Styx.Format

/-!
The round trip of `lib9/convS2M.c` and `lib9/convM2S.c`.

Owns: what `convS2M` writes for each structure, the structure that a message is read into, and
for which of them what is packed is read back.
-/

namespace Infernode.Lib9

open Wire Styx Checks List

/-! ### The fields of the structure -/

def Cfcall.fields (f : Cfcall) : Case → Fields
  | .version => .version f.msize.toNat (text f.version)
  | .flush => .flush f.oldtag.toNat
  | .auth => .auth f.afid.toNat (text f.uname) (text f.aname)
  | .attach => .attach f.fid.toNat f.afid.toNat (text f.uname) (text f.aname)
  | .walk => .walk f.fid.toNat f.newfid.toNat f.names
  | .«open» => .«open» f.fid.toNat f.mode.toNat
  | .create => .create f.fid.toNat (text f.name) f.perm.toNat f.mode.toNat
  | .read => .read f.fid.toNat f.offset.toNat f.count.toNat
  | .write => .write f.fid.toNat f.offset.toNat f.count.toNat (memory f.data f.count.toNat)
  | .fid => .fid f.fid.toNat
  | .wstat => .wstat f.fid.toNat f.nstat.toNat (memory f.stat f.nstat.toNat)
  | .error => .error (text f.ename)
  | .none => .none
  | .rauth => .qid f.aqid.qid
  | .rattach => .qid f.qid.qid
  | .rwalk => .rwalk (f.qids.map Cqid.qid)
  | .ropen => .ropen f.qid.qid f.iounit.toNat
  | .rread => .rread f.count.toNat (memory f.data f.count.toNat)
  | .rwrite => .rwrite f.count.toNat
  | .rstat => .rstat f.nstat.toNat (memory f.stat f.nstat.toNat)

def Cfcall.strings (f : Cfcall) : Case → List Bytes
  | .version => [text f.version]
  | .auth => [text f.uname, text f.aname]
  | .attach => [text f.uname, text f.aname]
  | .walk => f.names
  | .create => [text f.name]
  | .error => [text f.ename]
  | _ => []

def Cfcall.sentqids (f : Cfcall) : Case → List Cqid
  | .rauth => [f.aqid]
  | .rattach => [f.qid]
  | .rwalk => f.qids
  | .ropen => [f.qid]
  | _ => []

/-- The counts and the versions have room for the strings and qids. -/
def Narrow (f : Cfcall) (c : Case) : Prop :=
  (∀ s ∈ f.strings c, s.length < 65536) ∧ ∀ q ∈ f.sentqids c, q.vers.toNat < 4294967296

/-- A walk has no more names and qids than it may. -/
def Few (f : Cfcall) (c : Case) : Prop :=
  (c = .walk → f.nwname.toNat ≤ MAXWELEM) ∧ (c = .rwalk → f.nwqid.toNat ≤ MAXWELEM)

def strlen (s : Bytes) : Nat := 2 + uint s.length

theorem length_memory (p : Nat → UInt8) (n : Nat) : (memory p n).length = n := by
  rw [memory, length_map, length_range]

theorem length_cpstring (s : Bytes) : (cpstring s).length = strlen s := by
  have within : uint s.length ≤ s.length := Nat.mod_le _ _
  rw [cpstring, length_append, length_le, length_take_of_le within, strlen]

theorem length_cpqid (q : Cqid) : (cpqid q).length = 13 := by
  simp only [cpqid, length_append, length_le]

theorem length_names (f : Cfcall) : f.names.length = f.nwname.toNat := by
  rw [Cfcall.names, length_map, length_range]

theorem length_qids (f : Cfcall) : f.qids.length = f.nwqid.toNat := by
  rw [Cfcall.qids, length_map, length_range]

theorem length_flatMap_cpqid (qids : List Cqid) : (qids.flatMap cpqid).length = qids.length * 13 := by
  induction qids with
  | nil => rfl
  | cons _ _ ih =>
    rw [flatMap_cons, length_append, length_cpqid, ih,
      length_cons]
    omega

theorem length_flatMap_cpstring (names : List Bytes) :
    (names.flatMap cpstring).length = (names.map strlen).sum := by
  rw [length_flatMap]
  congr 1
  apply map_congr_left
  exact fun name _ => length_cpstring name

variable {f : Cfcall} {c : Case} {w s : Bytes} {n type : Nat}

/-- What is written, when a walk does not have too many names. -/
theorem writecase_eq_some : (∃ w, writecase f c = some w) ↔ Few f c := by
  unfold Few
  cases c with
  | walk =>
    simp only [writecase]
    split
    · rename_i many
      simp [many]
    · rename_i few
      simpa using few
  | rwalk =>
    simp only [writecase]
    split
    · rename_i many
      simp [many]
    · rename_i few
      simpa using few
  | _ => simp [writecase]

theorem length_writecase (written : writecase f c = some w) : w.length = sizecase strlen f c := by
  cases c with
  | walk =>
    simp only [writecase] at written
    split at written
    · cases written
    · cases written
      simp only [sizecase, length_append, length_le, length_flatMap_cpstring]
  | rwalk =>
    simp only [writecase] at written
    split at written
    · cases written
    · cases written
      simp only [sizecase, length_append, length_le, length_flatMap_cpqid, length_qids]
  | _ =>
    cases written
    simp only [sizecase, length_append, length_le, length_cpstring, length_cpqid,
      length_memory, length_nil]

theorem sum_stringsz (names : List Bytes) :
    uint (names.map stringsz).sum = uint (names.map strlen).sum := by
  induction names with
  | nil => rfl
  | cons _ _ ih =>
    simp only [map_cons, sum_cons, stringsz, strlen, uint] at ih ⊢
    omega

/-- The size counts what is written, as far as a `uint` can. -/
theorem uint_sizecase (f : Cfcall) (c : Case) :
    uint (4 + 1 + 2 + sizecase stringsz f c) = uint (H + sizecase strlen f c) := by
  have header : H = 7 := rfl
  cases c with
  | walk =>
    have names := sum_stringsz f.names
    simp only [sizecase, uint] at names ⊢
    omega
  | _ =>
    simp only [sizecase, stringsz, strlen, uint]
    omega

theorem convS2M_eq_some {nap : Nat} {p : Bytes} : convS2M f nap = some p ↔
    ∃ c w, switch f.type.toNat = some c ∧ writecase f c = some w ∧
      H + w.length < 4294967296 ∧ H + w.length ≤ nap ∧
      p = wmsg f.type.toNat f.tag.toNat w := by
  have header : H = 7 := rfl
  unfold convS2M
  simp only
  rcases known : switch f.type.toNat with _ | c
  · simp [sizeS2M, known]
  rcases written : writecase f c with _ | w
  · simp only [Option.bind_eq_bind, Option.bind_some, Option.some.injEq, exists_and_left,
      exists_eq_left']
    split
    · simp [written]
    · split
      · simp [written]
      · simp [written]
  have size : sizeS2M f = uint (H + w.length) := by
    rw [sizeS2M, known, length_writecase written]
    exact uint_sizecase f c
  have total : ∀ n, (le 4 n ++ (le 1 f.type.toNat ++ (le 2 f.tag.toNat ++ w))).length =
      H + w.length := by
    intro _
    simp only [length_append, length_le]
    omega
  rw [size]
  simp only [Option.bind_eq_bind, Option.bind_some, total, Option.some.injEq, exists_and_left,
    exists_eq_left', written]
  by_cases small : H + w.length < 4294967296
  · have same : uint (H + w.length) = H + w.length := Nat.mod_eq_of_lt small
    rw [same, if_neg (by omega)]
    by_cases fits : H + w.length ≤ nap
    · rw [if_neg (Nat.not_lt.2 fits)]
      simp only [ne_eq, not_true_eq_false, if_false, Option.pure_def, Option.some.injEq, small, fits,
        true_and]
      exact eq_comm
    · rw [if_pos (Nat.not_le.1 fits)]
      simp [fits]
  · have wrapped : uint (H + w.length) ≠ H + w.length := by
      have below : uint (H + w.length) < 4294967296 := Nat.mod_lt _ (by decide)
      omega
    simp [wrapped, small]

/-- The result of `convM2S` has the type, the tag and the fields of its type of the structure. -/
def Reads (f : Cfcall) (m : Fcall) : Prop :=
  m.type = f.type.toNat ∧ m.tag = f.tag.toNat ∧
    ∃ c, switch f.type.toNat = some c ∧ m.fields = f.fields c

/-! ### The structure of a message -/

def cstring (s : Bytes) : Option Cstr :=
  if noNul : 0 ∉ s.map UInt8.ofNat then some ⟨s.map UInt8.ofNat, noNul⟩ else none

def cqid (q : Qid) : Cqid := ⟨UInt64.ofNat q.path, UInt64.ofNat q.vers, UInt8.ofNat q.qtype⟩

def pointer (bytes : Bytes) (i : Nat) : UInt8 := UInt8.ofNat (bytes.getD i 0)

/-- A structure where nothing but the type and the tag is set. -/
def blank (m : Fcall) : Cfcall where
  type := UInt8.ofNat m.type
  fid := 0
  tag := UInt16.ofNat m.tag
  msize := 0
  version := none
  oldtag := 0
  ename := none
  qid := ⟨0, 0, 0⟩
  iounit := 0
  aqid := ⟨0, 0, 0⟩
  afid := 0
  uname := none
  aname := none
  perm := 0
  name := none
  mode := 0
  newfid := 0
  nwname := 0
  wname := fun _ => none
  nwqid := 0
  wqid := fun _ => ⟨0, 0, 0⟩
  offset := 0
  count := 0
  data := fun _ => 0
  nstat := 0
  stat := fun _ => 0

def structure_ (m : Fcall) : Cfcall :=
  let f := blank m
  match m.fields with
  | .version msize v => { f with msize := UInt32.ofNat msize, version := cstring v }
  | .flush oldtag => { f with oldtag := UInt16.ofNat oldtag }
  | .auth afid uname aname =>
    { f with afid := UInt32.ofNat afid, uname := cstring uname, aname := cstring aname }
  | .attach fid afid uname aname =>
    { f with
      fid := UInt32.ofNat fid
      afid := UInt32.ofNat afid
      uname := cstring uname
      aname := cstring aname }
  | .walk fid newfid wname =>
    { f with
      fid := UInt32.ofNat fid
      newfid := UInt32.ofNat newfid
      nwname := UInt16.ofNat wname.length
      wname := fun i => cstring (wname.getD i []) }
  | .«open» fid mode => { f with fid := UInt32.ofNat fid, mode := UInt8.ofNat mode }
  | .create fid name perm mode =>
    { f with
      fid := UInt32.ofNat fid
      name := cstring name
      perm := UInt32.ofNat perm
      mode := UInt8.ofNat mode }
  | .read fid offset count =>
    { f with
      fid := UInt32.ofNat fid
      offset := UInt64.ofNat offset
      count := UInt32.ofNat count }
  | .write fid offset count data =>
    { f with
      fid := UInt32.ofNat fid
      offset := UInt64.ofNat offset
      count := UInt32.ofNat count
      data := pointer data }
  | .fid fid => { f with fid := UInt32.ofNat fid }
  | .wstat fid nstat stat =>
    { f with fid := UInt32.ofNat fid, nstat := UInt16.ofNat nstat, stat := pointer stat }
  | .error ename => { f with ename := cstring ename }
  | .none => f
  | .qid qid => { f with qid := cqid qid, aqid := cqid qid }
  | .rwalk wqid =>
    { f with
      nwqid := UInt16.ofNat wqid.length
      wqid := fun i => cqid (wqid.getD i ⟨0, 0, 0⟩) }
  | .ropen qid iounit => { f with qid := cqid qid, iounit := UInt32.ofNat iounit }
  | .rread count data => { f with count := UInt32.ofNat count, data := pointer data }
  | .rwrite count => { f with count := UInt32.ofNat count }
  | .rstat nstat stat => { f with nstat := UInt16.ofNat nstat, stat := pointer stat }

def Fields.texts : Fields → List Bytes
  | .version _ v => [v]
  | .auth _ uname aname => [uname, aname]
  | .attach _ _ uname aname => [uname, aname]
  | .walk _ _ wname => wname
  | .create _ name _ _ => [name]
  | .error ename => [ename]
  | _ => []

theorem text_cstring (bytes : IsBytes s) (noNul : 0 ∉ s) : text (cstring s) = s := by
  have back : (s.map UInt8.ofNat).map UInt8.toNat = s := by
    rw [map_map]
    conv_rhs => rw [← map_id s]
    apply map_congr_left
    intro b member
    show (UInt8.ofNat b).toNat = b
    rw [UInt8.toNat_ofNat', Nat.mod_eq_of_lt (bytes b member)]
  have clean : 0 ∉ s.map UInt8.ofNat := by
    intro member
    apply noNul
    rw [← back]
    exact mem_map.2 ⟨0, member, rfl⟩
  rw [cstring, dif_pos clean, text]
  exact back

theorem memory_pointer {bytes : Bytes} (isBytes : IsBytes bytes) :
    memory (pointer bytes) bytes.length = bytes := by
  apply ext_getElem (length_memory _ _)
  intro _ _ inside
  have byte := isBytes _ (getElem_mem inside)
  simp only [memory, getElem_map, getElem_range, pointer, getD_eq_getElem?_getD,
    getElem?_eq_getElem inside, Option.getD_some]
  rw [UInt8.toNat_ofNat', Nat.mod_eq_of_lt byte]

theorem qid_cqid {q : Qid} (fits : QidFits q) : (cqid q).qid = q := by
  have ⟨_, _, _⟩ := q
  have ⟨small, version, whole⟩ := fits
  simp only [cqid, Cqid.qid, Qid.mk.injEq]
  refine ⟨?_, ?_, ?_⟩
  · rw [UInt64.toNat_ofNat', Nat.mod_eq_of_lt (whole.trans_le (by decide))]
  · rw [UInt64.toNat_ofNat', Nat.mod_eq_of_lt (version.trans_le (by decide))]
  · rw [UInt8.toNat_ofNat', Nat.mod_eq_of_lt (small.trans_le (by decide))]

theorem isBytes_append_iff {left right : Bytes} :
    IsBytes (left ++ right) ↔ IsBytes left ∧ IsBytes right := forall_mem_append

theorem u32 (small : n < 256 ^ 4) : (UInt32.ofNat n).toNat = n := by
  rw [UInt32.toNat_ofNat', Nat.mod_eq_of_lt (small.trans_le (by decide))]

theorem u16 (small : n < 256 ^ 2) : (UInt16.ofNat n).toNat = n := by
  rw [UInt16.toNat_ofNat', Nat.mod_eq_of_lt (small.trans_le (by decide))]

theorem u64 (small : n < 256 ^ 8) : (UInt64.ofNat n).toNat = n := by
  rw [UInt64.toNat_ofNat', Nat.mod_eq_of_lt (small.trans_le (by decide))]

theorem u8 (small : n < 256 ^ 1) : (UInt8.ofNat n).toNat = n := by
  rw [UInt8.toNat_ofNat', Nat.mod_eq_of_lt (small.trans_le (by decide))]

/-- An array that holds the elements of a list gives them back. -/
theorem map_range_getD {α β : Type} (list : List α) (default : α) {f : α → β} {g : β → α}
    (back : ∀ a ∈ list, g (f a) = a) :
    ((List.range list.length).map fun i => g (f (list.getD i default))) = list := by
  apply ext_getElem (by simp)
  intro _ _ inside
  simp only [getElem_map, getElem_range, getD_eq_getElem?_getD,
    getElem?_eq_getElem inside, Option.getD_some]
  exact back _ (getElem_mem inside)

/-- The structure has the type, the tag and the fields of the message. -/
theorem reads_structure {tag : Nat} {fields : Fields} (tagged : tag < 65536)
    (of : type ∈ fields.types) (fits : fields.Fits) (bytes : IsBytes fields.wire)
    (noNul : ∀ s ∈ fields.texts, 0 ∉ s) :
    Reads (structure_ ⟨type, tag, fields⟩) ⟨type, tag, fields⟩ := by
  have tagBack : (UInt16.ofNat tag).toNat = tag := u16 tagged
  have strings : ∀ s, IsBytes (wstring s) → 0 ∉ s → text (cstring s) = s := fun s isBytes clean =>
    text_cstring (isBytes_append_iff.1 isBytes).2 clean
  cases fields with
  | version msize v =>
    simp only [Fields.types, mem_cons, not_mem_nil, or_false] at of
    simp only [Fields.wire, isBytes_append_iff] at bytes
    simp only [Fields.texts, forall_mem_singleton] at noNul
    have same : Fields.version msize v =
        .version (UInt32.ofNat msize).toNat (text (cstring v)) := by
      rw [u32 fits.1, strings v bytes.2 noNul]
    rcases of with rfl | rfl
    · exact ⟨rfl, tagBack.symm, .version, rfl, same⟩
    · exact ⟨rfl, tagBack.symm, .version, rfl, same⟩
  | flush oldtag =>
    obtain rfl := mem_singleton.1 of
    refine ⟨rfl, tagBack.symm, .flush, rfl, ?_⟩
    show Fields.flush oldtag = .flush (UInt16.ofNat oldtag).toNat
    rw [u16 fits]
  | auth afid uname aname =>
    obtain rfl := mem_singleton.1 of
    simp only [Fields.wire, isBytes_append_iff] at bytes
    simp only [Fields.texts, forall_mem_cons] at noNul
    refine ⟨rfl, tagBack.symm, .auth, rfl, ?_⟩
    show Fields.auth afid uname aname =
      .auth (UInt32.ofNat afid).toNat (text (cstring uname)) (text (cstring aname))
    rw [u32 fits.1, strings uname bytes.2.1 noNul.1, strings aname bytes.2.2 noNul.2.1]
  | attach fid afid uname aname =>
    obtain rfl := mem_singleton.1 of
    simp only [Fields.wire, isBytes_append_iff] at bytes
    simp only [Fields.texts, forall_mem_cons] at noNul
    refine ⟨rfl, tagBack.symm, .attach, rfl, ?_⟩
    show Fields.attach fid afid uname aname = .attach (UInt32.ofNat fid).toNat
      (UInt32.ofNat afid).toNat (text (cstring uname)) (text (cstring aname))
    rw [u32 fits.1, u32 fits.2.1, strings uname bytes.2.2.1 noNul.1,
      strings aname bytes.2.2.2 noNul.2.1]
  | walk fid newfid wname =>
    obtain rfl := mem_singleton.1 of
    simp only [Fields.wire, isBytes_append_iff] at bytes
    have few : wname.length < 256 ^ 2 := lt_of_le_of_lt fits.2.2.1 (by decide)
    refine ⟨rfl, tagBack.symm, .walk, rfl, ?_⟩
    show Fields.walk fid newfid wname = .walk (UInt32.ofNat fid).toNat
      (UInt32.ofNat newfid).toNat ((List.range (UInt16.ofNat wname.length).toNat).map
        fun i => text (cstring (wname.getD i [])))
    rw [u32 fits.1, u32 fits.2.1, u16 few, map_range_getD]
    intro name member
    apply strings name _ (noNul name member)
    exact fun b inside => bytes.2.2.2 b (mem_flatMap.2 ⟨name, member, inside⟩)
  | «open» fid mode =>
    obtain rfl := mem_singleton.1 of
    refine ⟨rfl, tagBack.symm, .«open», rfl, ?_⟩
    show Fields.«open» fid mode = .«open» (UInt32.ofNat fid).toNat (UInt8.ofNat mode).toNat
    rw [u32 fits.1, u8 fits.2]
  | create fid name perm mode =>
    obtain rfl := mem_singleton.1 of
    simp only [Fields.wire, isBytes_append_iff] at bytes
    simp only [Fields.texts, forall_mem_singleton] at noNul
    refine ⟨rfl, tagBack.symm, .create, rfl, ?_⟩
    show Fields.create fid name perm mode = .create (UInt32.ofNat fid).toNat
      (text (cstring name)) (UInt32.ofNat perm).toNat (UInt8.ofNat mode).toNat
    rw [u32 fits.1, u32 fits.2.2.1, u8 fits.2.2.2, strings name bytes.2.1 noNul]
  | read fid offset count =>
    obtain rfl := mem_singleton.1 of
    refine ⟨rfl, tagBack.symm, .read, rfl, ?_⟩
    show Fields.read fid offset count = .read (UInt32.ofNat fid).toNat
      (UInt64.ofNat offset).toNat (UInt32.ofNat count).toNat
    rw [u32 fits.1, u64 fits.2.1, u32 fits.2.2]
  | write fid offset _ data =>
    obtain rfl := mem_singleton.1 of
    obtain ⟨fidFits, offsetFits, countFits, rfl⟩ := fits
    simp only [Fields.wire, isBytes_append_iff] at bytes
    refine ⟨rfl, tagBack.symm, .write, rfl, ?_⟩
    show Fields.write fid offset data.length data = .write (UInt32.ofNat fid).toNat
      (UInt64.ofNat offset).toNat (UInt32.ofNat data.length).toNat
      (memory (pointer data) (UInt32.ofNat data.length).toNat)
    rw [u32 fidFits, u64 offsetFits, u32 countFits, memory_pointer bytes.2.2.2]
  | fid fid =>
    simp only [Fields.types, mem_cons, not_mem_nil, or_false] at of
    have same : Fields.fid fid = .fid (UInt32.ofNat fid).toNat := by rw [u32 fits]
    rcases of with rfl | rfl | rfl
    · exact ⟨rfl, tagBack.symm, .fid, rfl, same⟩
    · exact ⟨rfl, tagBack.symm, .fid, rfl, same⟩
    · exact ⟨rfl, tagBack.symm, .fid, rfl, same⟩
  | wstat fid _ stat =>
    obtain rfl := mem_singleton.1 of
    obtain ⟨fidFits, nstatFits, rfl⟩ := fits
    simp only [Fields.wire, isBytes_append_iff] at bytes
    refine ⟨rfl, tagBack.symm, .wstat, rfl, ?_⟩
    show Fields.wstat fid stat.length stat = .wstat (UInt32.ofNat fid).toNat
      (UInt16.ofNat stat.length).toNat (memory (pointer stat) (UInt16.ofNat stat.length).toNat)
    rw [u32 fidFits, u16 nstatFits, memory_pointer bytes.2.2]
  | error ename =>
    obtain rfl := mem_singleton.1 of
    simp only [Fields.texts, forall_mem_singleton] at noNul
    refine ⟨rfl, tagBack.symm, .error, rfl, ?_⟩
    show Fields.error ename = .error (text (cstring ename))
    rw [strings ename bytes noNul]
  | none =>
    simp only [Fields.types, mem_cons, not_mem_nil, or_false] at of
    rcases of with rfl | rfl | rfl | rfl
    · exact ⟨rfl, tagBack.symm, .none, rfl, rfl⟩
    · exact ⟨rfl, tagBack.symm, .none, rfl, rfl⟩
    · exact ⟨rfl, tagBack.symm, .none, rfl, rfl⟩
    · exact ⟨rfl, tagBack.symm, .none, rfl, rfl⟩
  | qid qid =>
    simp only [Fields.types, mem_cons, not_mem_nil, or_false] at of
    have same : Fields.qid qid = .qid (cqid qid).qid := by rw [qid_cqid fits]
    rcases of with rfl | rfl
    · exact ⟨rfl, tagBack.symm, .rauth, rfl, same⟩
    · exact ⟨rfl, tagBack.symm, .rattach, rfl, same⟩
  | rwalk wqid =>
    obtain rfl := mem_singleton.1 of
    have few : wqid.length < 256 ^ 2 := lt_of_le_of_lt fits.1 (by decide)
    refine ⟨rfl, tagBack.symm, .rwalk, rfl, ?_⟩
    show Fields.rwalk wqid = .rwalk (((List.range (UInt16.ofNat wqid.length).toNat).map
      fun i => cqid (wqid.getD i ⟨0, 0, 0⟩)).map Cqid.qid)
    rw [u16 few, map_map]
    congr 1
    exact (map_range_getD wqid _ fun q member => qid_cqid (fits.2 q member)).symm
  | ropen qid iounit =>
    simp only [Fields.types, mem_cons, not_mem_nil, or_false] at of
    have same : Fields.ropen qid iounit = .ropen (cqid qid).qid (UInt32.ofNat iounit).toNat := by
      rw [qid_cqid fits.1, u32 fits.2]
    rcases of with rfl | rfl
    · exact ⟨rfl, tagBack.symm, .ropen, rfl, same⟩
    · exact ⟨rfl, tagBack.symm, .ropen, rfl, same⟩
  | rread _ data =>
    obtain rfl := mem_singleton.1 of
    obtain ⟨countFits, rfl⟩ := fits
    simp only [Fields.wire, isBytes_append_iff] at bytes
    refine ⟨rfl, tagBack.symm, .rread, rfl, ?_⟩
    show Fields.rread data.length data = .rread (UInt32.ofNat data.length).toNat
      (memory (pointer data) (UInt32.ofNat data.length).toNat)
    rw [u32 countFits, memory_pointer bytes.2]
  | rwrite count =>
    obtain rfl := mem_singleton.1 of
    refine ⟨rfl, tagBack.symm, .rwrite, rfl, ?_⟩
    show Fields.rwrite count = .rwrite (UInt32.ofNat count).toNat
    rw [u32 fits]
  | rstat _ stat =>
    obtain rfl := mem_singleton.1 of
    obtain ⟨nstatFits, rfl⟩ := fits
    simp only [Fields.wire, isBytes_append_iff] at bytes
    refine ⟨rfl, tagBack.symm, .rstat, rfl, ?_⟩
    show Fields.rstat stat.length stat = .rstat (UInt16.ofNat stat.length).toNat
      (memory (pointer stat) (UInt16.ofNat stat.length).toNat)
    rw [u16 nstatFits, memory_pointer bytes.2]

/-! ### Which messages come back -/

/-- Whatever is packed has the size that `sizeS2M` says and is read back. -/
def RoundTrips (f : Cfcall) : Prop :=
  ∀ nap p, convS2M f nap = some p → p.length = sizeS2M f ∧
    ∃ m, convM2S p = some (p.length, m) ∧ Reads f m

/-- What is read from bytes, with strings without a NUL, is packed into the same bytes. -/
def Reproduced (b : List UInt8) : Prop :=
  ∀ n m, convM2S (b.map UInt8.toNat) = some (n, m) → (∀ s ∈ m.fields.texts, 0 ∉ s) →
    (∃ f, Reads f m) ∧ ∀ f, Reads f m → ∀ nap, n ≤ nap →
      convS2M f nap = some ((b.map UInt8.toNat).take n)

theorem fits_iff (f : Cfcall) (c : Case) : (f.fields c).Fits ↔ Few f c ∧ Narrow f c := by
  have u8 : ∀ x : UInt8, x.toNat < 256 := fun x => x.toNat_lt
  have u16 : ∀ x : UInt16, x.toNat < 65536 := fun x => x.toNat_lt
  have u32 : ∀ x : UInt32, x.toNat < 4294967296 := fun x => x.toNat_lt
  have u64 : ∀ x : UInt64, x.toNat < 18446744073709551616 := fun x => x.toNat_lt
  have qids : ∀ q : Cqid, QidFits q.qid ↔ q.vers.toNat < 4294967296 := fun q =>
    ⟨fun fits => fits.2.1, fun small => ⟨u8 _, small, u64 _⟩⟩
  unfold Narrow Few
  cases c with
  | walk => simp [Cfcall.fields, Fields.Fits, Cfcall.strings, Cfcall.sentqids, Short, u32, length_names]
  | rwalk => simp [Cfcall.fields, Fields.Fits, Cfcall.strings, Cfcall.sentqids, qids, length_qids]
  | _ =>
    simp [Cfcall.fields, Fields.Fits, Cfcall.strings, Cfcall.sentqids, Short, u8, u16, u32, u64,
      qids, length_memory]

theorem cpstring_eq (short : s.length < 65536) : cpstring s = wstring s := by
  have whole : uint s.length = s.length := Nat.mod_eq_of_lt (by omega)
  rw [cpstring, wstring, whole, take_length]

theorem flatMap_cpstring {names : List Bytes} (short : ∀ s ∈ names, s.length < 65536) :
    names.flatMap cpstring = names.flatMap wstring := by
  induction names with
  | nil => rfl
  | cons _ _ ih =>
    have ⟨first, rest⟩ := forall_mem_cons.1 short
    rw [flatMap_cons, flatMap_cons, cpstring_eq first, ih rest]

theorem writecase_eq_wire (written : writecase f c = some w) (narrow : Narrow f c) :
    w = (f.fields c).wire := by
  obtain ⟨short, -⟩ := narrow
  cases c with
  | walk =>
    simp only [writecase] at written
    split at written
    · cases written
    cases written
    have names : f.names.flatMap cpstring = f.names.flatMap wstring := flatMap_cpstring short
    rw [names]
    simp only [Cfcall.fields, Fields.wire, length_names]
  | rwalk =>
    simp only [writecase] at written
    split at written
    · cases written
    · cases written
      simp only [Cfcall.fields, Fields.wire, length_map, length_qids, flatMap_map]
      rfl
  | version =>
    cases written
    rw [cpstring_eq (short _ (by simp [Cfcall.strings]))]
    rfl
  | auth =>
    cases written
    rw [cpstring_eq (short (text f.uname) (by simp [Cfcall.strings])),
      cpstring_eq (short (text f.aname) (by simp [Cfcall.strings]))]
    rfl
  | attach =>
    cases written
    rw [cpstring_eq (short (text f.uname) (by simp [Cfcall.strings])),
      cpstring_eq (short (text f.aname) (by simp [Cfcall.strings]))]
    rfl
  | create =>
    cases written
    rw [cpstring_eq (short _ (by simp [Cfcall.strings]))]
    rfl
  | error =>
    cases written
    rw [cpstring_eq (short _ (by simp [Cfcall.strings]))]
    rfl
  | _ =>
    cases written
    rfl

theorem mem_types_of_switch (known : switch type = some c) (f : Cfcall) :
    type ∈ (f.fields c).types := by
  unfold switch at known
  iterate 20
    rcases chosen known with ⟨of, same⟩ | known
    · cases same
      simp only [Cfcall.fields, Fields.types, mem_cons, not_mem_nil, or_false]
      tauto
  cases known

theorem convM2S_wire {tag : Nat} {fields : Fields} (byte : type < 256) (tagged : tag < 65536)
    (of : type ∈ fields.types) (fits : fields.Fits) (small : H + fields.wire.length < 4294967296) :
    convM2S (wmsg type tag fields.wire) =
      some ((wmsg type tag fields.wire).length, ⟨type, tag, fields⟩) := by
  have header : H = 7 := rfl
  have read := convfields_wire of fits []
  rw [append_nil] at read
  unfold convM2S
  rw [length_wmsg]
  refine andThen (rd_le 4 _ (small.trans_le (by decide))) ?_
  simp only [if_neg (show ¬H + fields.wire.length < 4 + 1 + 2 by omega)]
  exact andThen (rd_le 1 _ byte) (andThen (rd_le 2 _ tagged) (andThen read (if_pos rfl)))

theorem wmsg_of_convM2S {b : Bytes} {m : Fcall} (bytes : IsBytes b)
    (read : convM2S b = some (n, m)) :
    ∃ rest, b = wmsg m.type m.tag m.fields.wire ++ rest ∧ n = H + m.fields.wire.length ∧
      n < 4294967296 ∧ m.tag < 65536 ∧ m.type ∈ m.fields.types ∧ m.fields.Fits := by
  have header : H = 7 := rfl
  have ⟨⟨size, p1⟩, step1, read⟩ := Option.bind_eq_some_iff.1 read
  simp only at read
  split at read
  · cases read
  have ⟨⟨type, p2⟩, step2, read⟩ := Option.bind_eq_some_iff.1 read
  have ⟨⟨tag, p3⟩, step3, read⟩ := Option.bind_eq_some_iff.1 read
  have ⟨⟨fields, p4⟩, step4, read⟩ := Option.bind_eq_some_iff.1 read
  simp only at read
  split at read
  · rename_i exact_
    cases read
    have ⟨same1, small, bytes1⟩ := le_of_rd bytes step1
    obtain ⟨same2, -, bytes2⟩ := le_of_rd bytes1 step2
    have ⟨same3, tagged, bytes3⟩ := le_of_rd bytes2 step3
    have ⟨of, fits, same4⟩ := wire_of_convfields bytes3 step4
    have counted : n = H + fields.wire.length := by
      rw [same1, same2, same3, same4] at exact_
      simp only [length_append, length_le] at exact_
      omega
    refine ⟨p4, ?_, counted, small, tagged, of, fits⟩
    rw [same1, same2, same3, same4, wmsg, counted]
    simp only [append_assoc]
  · cases read

theorem isBytes_text (s : Option Cstr) : IsBytes (text s) := by
  intro _ member
  obtain ⟨c, -, rfl⟩ := mem_map.1 member
  exact c.toNat_lt

theorem isBytes_memory (p : Nat → UInt8) (n : Nat) : IsBytes (memory p n) := by
  intro _ member
  obtain ⟨i, -, rfl⟩ := mem_map.1 member
  exact (p i).toNat_lt

theorem isBytes_cpstring (bytes : IsBytes s) : IsBytes (cpstring s) :=
  IsBytes.append (isBytes_le _ _) fun b member => bytes b (mem_of_mem_take member)

theorem isBytes_cpqid (q : Cqid) : IsBytes (cpqid q) :=
  IsBytes.append (isBytes_le _ _) (IsBytes.append (isBytes_le _ _) (isBytes_le _ _))

theorem isBytes_writecase (written : writecase f c = some w) : IsBytes w := by
  have texts : ∀ s, IsBytes (cpstring (text s)) := fun s => isBytes_cpstring (isBytes_text s)
  cases c with
  | walk =>
    simp only [writecase] at written
    split at written
    · cases written
    cases written
    refine IsBytes.append (isBytes_le _ _) (IsBytes.append (isBytes_le _ _)
      (IsBytes.append (isBytes_le _ _) ?_))
    intro b member
    have ⟨_, among, inside⟩ := mem_flatMap.1 member
    obtain ⟨_, -, rfl⟩ := mem_map.1 among
    exact texts _ b inside
  | rwalk =>
    simp only [writecase] at written
    split at written
    · cases written
    cases written
    refine IsBytes.append (isBytes_le _ _) ?_
    intro b member
    obtain ⟨q, -, inside⟩ := mem_flatMap.1 member
    exact isBytes_cpqid q b inside
  | none =>
    cases written
    exact fun b member => absurd member not_mem_nil
  | _ =>
    cases written
    simp only [isBytes_append_iff, isBytes_le, texts, isBytes_memory, isBytes_cpqid, and_self]

theorem roundTrips_iff (f : Cfcall) : RoundTrips f ↔ ∀ c, switch f.type.toNat = some c →
    Few f c → H + sizecase strlen f c < 4294967296 → Narrow f c := by
  constructor
  · intro trips c known few small
    have ⟨w, written⟩ := writecase_eq_some.2 few
    have length := length_writecase written
    have packed : convS2M f (H + w.length) = some (wmsg f.type.toNat f.tag.toNat w) :=
      convS2M_eq_some.2 ⟨c, w, known, written, by rw [length]; exact small, Nat.le_refl _, rfl⟩
    obtain ⟨-, _, read, _, _, _, knownAgain, fields⟩ := trips _ _ packed
    rw [known, Option.some.injEq] at knownAgain
    subst knownAgain
    have bytes : IsBytes (wmsg f.type.toNat f.tag.toNat w) :=
      IsBytes.append (isBytes_le _ _) (IsBytes.append (isBytes_le _ _)
        (IsBytes.append (isBytes_le _ _) (isBytes_writecase written)))
    obtain ⟨_, -, -, -, -, -, fits⟩ := wmsg_of_convM2S bytes read
    rw [fields, fits_iff] at fits
    exact fits.2
  · intro narrow _ _ packed
    obtain ⟨c, w, known, written, small, -, rfl⟩ := convS2M_eq_some.1 packed
    have few := writecase_eq_some.1 ⟨w, written⟩
    have length := length_writecase written
    have room := narrow c known few (by rwa [← length])
    have wire := writecase_eq_wire written room
    have fits := (fits_iff f c).2 ⟨few, room⟩
    refine ⟨?_, ⟨f.type.toNat, f.tag.toNat, f.fields c⟩, ?_, rfl, rfl, c, known, rfl⟩
    · rw [length_wmsg, sizeS2M, known, length]
      show _ = uint (4 + 1 + 2 + sizecase stringsz f c)
      rw [uint_sizecase, ← length]
      exact (Nat.mod_eq_of_lt small).symm
    · rw [wire] at small ⊢
      exact convM2S_wire f.type.toNat_lt f.tag.toNat_lt (mem_types_of_switch known f) fits small

theorem reproduced (b : List UInt8) : Reproduced b := by
  intro _ m read noNul
  have bytes : IsBytes (b.map UInt8.toNat) := by
    intro c member
    obtain ⟨x, -, rfl⟩ := mem_map.1 member
    exact x.toNat_lt
  obtain ⟨_, whole, counted, _, tagged, of, fits⟩ := wmsg_of_convM2S bytes read
  constructor
  · have inside : IsBytes m.fields.wire := by
      rw [whole] at bytes
      simp only [wmsg, isBytes_append_iff] at bytes
      exact bytes.1.2.2.2
    exact ⟨_, reads_structure tagged of fits inside noNul⟩
  intro f reads _ _
  obtain ⟨type, tag, c, known, fields⟩ := reads
  rw [fields, fits_iff] at fits
  obtain ⟨w, written⟩ := writecase_eq_some.2 fits.1
  have wire := writecase_eq_wire written fits.2
  rw [fields, ← wire] at counted whole
  rw [type, tag] at whole
  rw [convS2M_eq_some]
  refine ⟨c, w, known, written, by rwa [← counted], by rwa [← counted], ?_⟩
  rw [whole, counted, ← length_wmsg f.type.toNat f.tag.toNat, take_left]

/-- What is packed is read back, and what is read is packed again, exactly when no string is too
long for its count and no version too large for its place, in a message that is packed at all. -/
theorem fcall_round_trip (f : Cfcall) (b : List UInt8) : RoundTrips f ∧ Reproduced b ↔
    ∀ c, switch f.type.toNat = some c → Few f c → H + sizecase strlen f c < 4294967296 →
      Narrow f c := by
  rw [← roundTrips_iff]
  exact ⟨fun both => both.1, fun trips => ⟨trips, reproduced b⟩⟩

/-- A string with one byte more than its count can say. -/
def longString : Cstr where
  bytes := List.replicate 65536 97
  noNul := fun zero => absurd (List.eq_of_mem_replicate zero) (by decide)

def longVersion : Cfcall := { blank ⟨Tversion, 65535, .none⟩ with version := some longString }

private theorem sizecase_version (f : Cfcall) :
    sizecase strlen f .version = 4 + (2 + uint (text f.version).length) := rfl

theorem not_roundTrips_longVersion : ¬RoundTrips longVersion := by
  rw [roundTrips_iff]
  intro narrow
  have length : (text (some longString)).length = 65536 := by
    rw [text, List.length_map]
    exact List.length_replicate
  have size : sizecase strlen longVersion .version = 4 + (2 + uint 65536) := by
    have version : longVersion.version = some longString := rfl
    rw [sizecase_version, version, length]
  have small : H + sizecase strlen longVersion .version < 4294967296 := by
    rw [size]
    decide
  have few : Few longVersion .version := ⟨nofun, nofun⟩
  have room := narrow .version rfl few small
  have short := room.1 (text (some longString)) (List.mem_singleton_self _)
  rw [length] at short
  exact absurd short (by decide)

end Infernode.Lib9
