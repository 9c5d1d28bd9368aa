import Infernode.Program.Checks
import Infernode.Veltro.Authorize

/-!
What the parser of payment requests finds in a text.

Owns: that a written request is read back with the fields it was written from, and that in
any text the parser takes every field comes from the only line with its key.
-/

namespace Infernode.Authorize

open Checks Text Ethcrypto List

/-! ### Fields without line breaks -/

def Unbroken (s : Str) : Prop := ∀ c ∈ s, isNewline c = false

instance (s : Str) : Decidable (Unbroken s) := by
  unfold Unbroken
  infer_instance

variable {s val text : Str} {key : String} {req after : AuthReq}

theorem unbroken_of_ge (printable : ∀ c ∈ s, 14 ≤ c) : Unbroken s := by
  intro c member
  have bound := printable c member
  simp only [isNewline, Bool.or_eq_false_iff, beq_eq_false_iff_ne]
  omega

theorem unbroken_digits (digits : s.all isDigit = true) : Unbroken s := by
  refine unbroken_of_ge fun c member => ?_
  have bound := isDigit_bounds (all_eq_true.1 digits c member)
  omega

theorem unbroken_noctl (printable : noctl s = true) : Unbroken s := by
  refine unbroken_of_ge fun c member => ?_
  have bound := all_eq_true.1 printable c member
  simp only [Bool.and_eq_true, decide_eq_true_eq] at bound
  omega

theorem unbroken_strtoaddr (decoded : strtoaddr s ≠ none) : Unbroken s := by
  have ⟨_, address⟩ := Option.ne_none_iff_exists'.1 decoded
  refine unbroken_of_ge fun c member => ?_
  have bound := strtoaddr_chars address c member
  omega

theorem unbroken_dectobe (decoded : dectobe s ≠ none) : Unbroken s := by
  have ⟨_, number⟩ := Option.ne_none_iff_exists'.1 decoded
  exact unbroken_digits (dectobe_eq_some number).2.2.1

theorem unbroken_decimal (n : Int) : Unbroken (decimal n) := by
  refine unbroken_of_ge fun c member => ?_
  rcases mem_decimal member with digit | rfl
  · have bound := isDigit_bounds digit
    omega
  · decide

theorem unbroken_validnetwork (valid : validnetwork s = true) : Unbroken s := by
  unfold validnetwork at valid
  split at valid
  · cases valid
  rename_i shape
  simp only [not_or, not_not] at shape
  intro c member
  rw [← take_append_drop 7 s, mem_append, shape.2.2] at member
  rcases member with inPrefix | inDigits
  · exact (by decide : Unbroken (str "eip155:")) c inPrefix
  · exact unbroken_digits valid c inDigits

theorem unbroken_validtoken (valid : validtoken s = true) : Unbroken s := by
  unfold validtoken at valid
  split at valid
  · cases valid
  · exact unbroken_noctl valid

theorem unbroken_validurlfield (valid : validurlfield s = true) : Unbroken s := by
  unfold validurlfield at valid
  split at valid
  · cases valid
  · rw [Bool.and_eq_true] at valid
    exact unbroken_noctl valid.1

theorem field_proper (keyUnbroken : Unbroken (str key)) (unbroken : Unbroken val) :
    field key val ≠ [] ∧ ∀ c ∈ field key val, isNewline c = false := by
  refine ⟨by simp [field], ?_⟩
  intro c member
  rcases mem_append.1 member with inKey | inVal
  · exact keyUnbroken c inKey
  · rcases mem_cons.1 inVal with rfl | inVal
    · decide
    · exact unbroken c inVal

/-! ### A written request -/

def written (req : PaymentReq) (timeout : Int) : AuthReq :=
  ⟨req.network, req.asset, req.payto, req.amount, timeout, req.name, req.version, []⟩

/-- The keys that the lines of a request leave seen. -/
def writtenkeys : List Str :=
  [str "version", str "name", str "timeout", str "amount", str "payto", str "asset",
    str "network", str "scheme"]

theorem fieldOf_field (clean : 32 ∉ str key) (val : Str) :
    fieldOf 32 (field key val) = some (str key, val) := fieldOf_append clean val

variable {lines seen : List Str} {resource : Option ResourceInfo} {acctname : Str}
    {found out : AuthReq}

theorem parselines_field (clean : 32 ∉ str key) (fresh : seen.contains (str key) = false)
    (set : setfield req (str key) val = .ok after) :
    parselines (field key val :: lines) seen req = parselines lines (str key :: seen) after := by
  rw [parselines, fieldOf_field clean]
  simp only [fresh, Bool.false_eq_true, if_false, set]

theorem parselines_reqlines {req : PaymentReq} (exact : req.scheme = str "exact")
    (more : List Str) :
    parselines (reqlines req ++ more) [] emptyreq =
      (strint (decimal req.timeout)).elim (.error (str "bad timeout"))
        fun t => parselines more writtenkeys (written req t) := by
  have scheme : setfield emptyreq (str "scheme") req.scheme = .ok emptyreq := by
    rw [exact]
    rfl
  simp only [reqlines, cons_append, nil_append]
  rw [parselines_field (by decide) (by decide) scheme,
    parselines_field (by decide) (by decide) rfl, parselines_field (by decide) (by decide) rfl,
    parselines_field (by decide) (by decide) rfl, parselines_field (by decide) (by decide) rfl]
  have timeout : ∀ before, setfield before (str "timeout") (decimal req.timeout) =
      (strint (decimal req.timeout)).elim (.error (str "bad timeout"))
        fun t => .ok { before with timeout := t } := fun _ => rfl
  rcases read : strint (decimal req.timeout) with _ | t
  · rw [parselines, fieldOf_field (by decide)]
    simp only [timeout, read, Option.elim_none]
    rfl
  rw [read] at timeout
  rw [parselines_field (by decide) (by decide) (timeout _),
    parselines_field (by decide) (by decide) rfl, parselines_field (by decide) (by decide) rfl]
  rfl

theorem parselines_resource (req : PaymentReq) (timeout : Int) {url : Str}
    (short : url.length ≤ 1024) :
    parselines [field "resource" url] writtenkeys (written req timeout) =
      .ok { written req timeout with resource := url } :=
  parselines_field (by decide) (by decide) (if_pos short)

/-- The number that is written is the number that is read, where it is not too long. -/
theorem strint_decimal {n t : Int} (natural : 0 ≤ n) (read : strint (decimal n) = some t) :
    t = n := by
  obtain ⟨m, rfl⟩ := Int.eq_ofNat_of_zero_le natural
  unfold strint at read
  split_ifs at read
  cases read
  exact congrArg Int.ofNat (natOfDigits_natDigits m)

theorem reqlines_proper {r : PaymentReq} (scheme : Unbroken r.scheme)
    (network : Unbroken r.network) (asset : Unbroken r.asset) (payto : Unbroken r.payto)
    (amount : Unbroken r.amount) (name : Unbroken r.name) (version : Unbroken r.version) :
    ∀ line ∈ reqlines r, line ≠ [] ∧ ∀ c ∈ line, isNewline c = false := by
  simp only [reqlines, forall_mem_cons]
  exact ⟨field_proper (by decide) scheme, field_proper (by decide) network,
    field_proper (by decide) asset, field_proper (by decide) payto,
    field_proper (by decide) amount, field_proper (by decide) (unbroken_decimal _),
    field_proper (by decide) name, field_proper (by decide) version, by simp⟩

/-- A text that is written was checked, and its lines are those of the request, with one
for the resource where there is one. -/
theorem authorize_eq_ok {req : PaymentReq} (allowed : authorize req resource acctname = .ok text) :
    req.scheme = str "exact" ∧ 0 ≤ req.timeout ∧ ∃ more,
      text = reqtext (reqlines req ++ more) ∧
      (∀ line ∈ reqlines req ++ more, line ≠ [] ∧ ∀ c ∈ line, isNewline c = false) ∧
      (more = [] ∧ (resource.map ResourceInfo.url).getD [] = [] ∨
        ∃ info, resource = some info ∧ info.url.length ≤ 1024 ∧
          more = [field "resource" info.url]) := by
  unfold authorize at allowed
  have ⟨_, allowed⟩ := passed allowed
  have ⟨scheme, allowed⟩ := passed allowed
  have ⟨network, allowed⟩ := passed allowed
  have ⟨asset, allowed⟩ := passed allowed
  have ⟨payto, allowed⟩ := passed allowed
  have ⟨amount, allowed⟩ := passed allowed
  have ⟨_, allowed⟩ := passed allowed
  have ⟨token, allowed⟩ := passed allowed
  rw [Bool.or_eq_true, not_or] at token
  simp only [Bool.not_eq_true', Bool.not_eq_false] at network token
  have proper := reqlines_proper (r := req) (by rw [not_not.1 scheme]; decide)
    (unbroken_validnetwork network) (unbroken_strtoaddr asset) (unbroken_strtoaddr payto)
    (unbroken_dectobe amount) (unbroken_validtoken token.1) (unbroken_validtoken token.2)
  have whole : reqlines req ++ [] = reqlines req := append_nil _
  refine ⟨not_not.1 scheme, by omega, ?_⟩
  rcases resource with _ | info
  · cases allowed
    exact ⟨[], by rw [whole], by rwa [whole], Or.inl ⟨rfl, rfl⟩⟩
  simp only at allowed
  split_ifs at allowed with empty url
  · cases allowed
    exact ⟨[], by rw [whole], by rwa [whole], Or.inl ⟨rfl, empty⟩⟩
  cases allowed
  simp only [Bool.not_eq_true', Bool.not_eq_false] at url
  refine ⟨_, rfl, ?_, Or.inr ⟨info, rfl, ?_, rfl⟩⟩
  · intro line member
    rcases mem_append.1 member with inReq | inMore
    · exact proper line inReq
    · rw [mem_singleton.1 inMore]
      exact field_proper (by decide) (unbroken_validurlfield url)
  · unfold validurlfield at url
    split_ifs at url with sized
    omega

/-- The parser takes a written request for the request it was written from. -/
theorem parseauthreq_authorize {req : PaymentReq}
    (allowed : authorize req resource acctname = .ok text)
    (parsed : parseauthreq text = .ok found) :
    found = ⟨req.network, req.asset, req.payto, req.amount, clamp req.timeout, req.name,
      req.version, (resource.map ResourceInfo.url).getD []⟩ := by
  obtain ⟨exact, natural, _, rfl, proper, resourceLine⟩ := authorize_eq_ok allowed
  unfold parseauthreq at parsed
  rw [reqtext, tokens_lines (by decide) proper, parselines_reqlines exact] at parsed
  rcases read : strint (decimal req.timeout) with _ | t
  · rw [read] at parsed
    cases parsed
  rw [read, Option.elim_some] at parsed
  obtain rfl := strint_decimal natural read
  rcases resourceLine with ⟨rfl, none⟩ | ⟨info, rfl, short, rfl⟩
  · simp only [parselines] at parsed
    split_ifs at parsed
    cases parsed
    rw [none]
    rfl
  rw [parselines_resource req _ short] at parsed
  simp only at parsed
  split_ifs at parsed
  cases parsed
  rfl

/-! ### Any text -/

theorem setfield_cases {key : Str} (set : setfield req key val = .ok after) :
    (key = str "scheme" ∧ val = str "exact" ∧ after = req) ∨
    (key = str "network" ∧ after = { req with network := val }) ∨
    (key = str "asset" ∧ after = { req with asset := val }) ∨
    (key = str "payto" ∧ after = { req with payto := val }) ∨
    (key = str "amount" ∧ after = { req with amount := val }) ∨
    (key = str "timeout" ∧ ∃ t, strint val = some t ∧ after = { req with timeout := t }) ∨
    (key = str "name" ∧ after = { req with tokenname := val }) ∨
    (key = str "version" ∧ after = { req with tokenver := val }) ∨
    (key = str "resource" ∧
      after = if val.length ≤ 1024 then { req with resource := val } else req) := by
  unfold setfield at set
  rcases chosen set with ⟨scheme, set⟩ | set
  · have ⟨exact, same⟩ := passed set
    cases same
    exact Or.inl ⟨scheme, not_not.1 exact, rfl⟩
  refine Or.inr ?_
  rcases chosen set with ⟨network, set⟩ | set
  · cases set
    exact Or.inl ⟨network, rfl⟩
  refine Or.inr ?_
  rcases chosen set with ⟨asset, set⟩ | set
  · cases set
    exact Or.inl ⟨asset, rfl⟩
  refine Or.inr ?_
  rcases chosen set with ⟨payto, set⟩ | set
  · cases set
    exact Or.inl ⟨payto, rfl⟩
  refine Or.inr ?_
  rcases chosen set with ⟨amount, set⟩ | set
  · cases set
    exact Or.inl ⟨amount, rfl⟩
  refine Or.inr ?_
  rcases chosen set with ⟨timeout, set⟩ | set
  · rcases read : strint val with _ | t
    · rw [read] at set
      cases set
    · rw [read] at set
      cases set
      exact Or.inl ⟨timeout, t, rfl, rfl⟩
  refine Or.inr ?_
  rcases chosen set with ⟨name, set⟩ | set
  · cases set
    exact Or.inl ⟨name, rfl⟩
  refine Or.inr ?_
  rcases chosen set with ⟨version, set⟩ | set
  · cases set
    exact Or.inl ⟨version, rfl⟩
  rcases chosen set with ⟨resource, set⟩ | set
  · refine Or.inr ⟨resource, ?_⟩
    split_ifs at set ⊢ <;> cases set <;> rfl
  · cases set

/-- How the value of a line sets a part of the request. -/
def Copied (val _before after : Str) : Prop := after = val

def Read (val : Str) (_before after : Int) : Prop := strint val = some after

def Bounded (val before after : Str) : Prop := after = if val.length ≤ 1024 then val else before

/-- A line leaves the parts of the other keys as they are. -/
theorem setfield_other {key : Str} (set : setfield req key val = .ok after) :
    (key ≠ str "network" → after.network = req.network) ∧
    (key ≠ str "asset" → after.asset = req.asset) ∧
    (key ≠ str "payto" → after.payto = req.payto) ∧
    (key ≠ str "amount" → after.amount = req.amount) ∧
    (key ≠ str "timeout" → after.timeout = req.timeout) ∧
    (key ≠ str "name" → after.tokenname = req.tokenname) ∧
    (key ≠ str "version" → after.tokenver = req.tokenver) ∧
    (key ≠ str "resource" → after.resource = req.resource) := by
  rcases setfield_cases set with ⟨_, _, rfl⟩ | ⟨key, rfl⟩ | ⟨key, rfl⟩ | ⟨key, rfl⟩ | ⟨key, rfl⟩ |
    ⟨key, _, _, rfl⟩ | ⟨key, rfl⟩ | ⟨key, rfl⟩ | ⟨key, rfl⟩
  all_goals
    refine ⟨?_, ?_, ?_, ?_, ?_, ?_, ?_, ?_⟩ <;> intro different
    all_goals first | rfl | exact absurd key different | (split <;> rfl)

theorem setBy_network : SetBy setfield AuthReq.network (str "network") Copied where
  own _ _ _ set := by cases set; rfl
  other _ _ _ _ set := (setfield_other set).1

theorem setBy_asset : SetBy setfield AuthReq.asset (str "asset") Copied where
  own _ _ _ set := by cases set; rfl
  other _ _ _ _ set := (setfield_other set).2.1

theorem setBy_payto : SetBy setfield AuthReq.payto (str "payto") Copied where
  own _ _ _ set := by cases set; rfl
  other _ _ _ _ set := (setfield_other set).2.2.1

theorem setBy_amount : SetBy setfield AuthReq.amount (str "amount") Copied where
  own _ _ _ set := by cases set; rfl
  other _ _ _ _ set := (setfield_other set).2.2.2.1

theorem setBy_timeout : SetBy setfield AuthReq.timeout (str "timeout") Read where
  own s val after set := by
    have code : (strint val).elim (.error (str "bad timeout"))
        (fun t => Except.ok { s with timeout := t }) = .ok after := set
    rcases read : strint val with _ | t
    · rw [read] at code
      cases code
    · rw [read] at code
      cases code
      exact read
  other _ _ _ _ set := (setfield_other set).2.2.2.2.1

theorem setBy_name : SetBy setfield AuthReq.tokenname (str "name") Copied where
  own _ _ _ set := by cases set; rfl
  other _ _ _ _ set := (setfield_other set).2.2.2.2.2.1

theorem setBy_version : SetBy setfield AuthReq.tokenver (str "version") Copied where
  own _ _ _ set := by cases set; rfl
  other _ _ _ _ set := (setfield_other set).2.2.2.2.2.2.1

theorem setBy_resource : SetBy setfield AuthReq.resource (str "resource") Bounded where
  own s val after set := by
    have code : (if val.length ≤ 1024 then Except.ok { s with resource := val } else .ok s) =
        (.ok after : Except Str AuthReq) := set
    unfold Bounded
    split at code <;> cases code
    · rw [if_pos (by assumption)]
    · rw [if_neg (by assumption)]
  other _ _ _ _ set := (setfield_other set).2.2.2.2.2.2.2

/-- A text is taken without an error only when no key is seen twice. -/
theorem parselines_ok (parsed : parselines lines seen req = .ok out) :
    (∀ key ∈ seen, NoLine (lines.filterMap (fieldOf 32)) key) ∧
    ((lines.filterMap (fieldOf 32)).map Prod.fst).Nodup ∧
    setall setfield req (lines.filterMap (fieldOf 32)) = .ok out := by
  induction lines generalizing seen req with
  | nil =>
    cases parsed
    exact ⟨fun key _ => noLine_nil key, nodup_nil, rfl⟩
  | cons line _ ih =>
    unfold parselines at parsed
    rcases split : fieldOf 32 line with _ | ⟨key, val⟩
    · rw [split] at parsed
      rw [filterMap_cons_none split]
      exact ih parsed
    rw [split] at parsed
    rw [filterMap_cons_some split]
    have ⟨fresh, parsed⟩ := passed parsed
    rcases set : setfield req key val with err | after
    · rw [set] at parsed
      cases parsed
    rw [set] at parsed
    have ⟨absent, nodup, done⟩ := ih parsed
    have unseen : key ∉ seen := by simpa using fresh
    refine ⟨?_, ?_, ?_⟩
    · intro other member
      have different : key ≠ other := fun same => unseen (same ▸ member)
      exact (absent other (mem_cons_of_mem _ member)).cons different
    · rw [map_cons]
      exact nodup_cons.2 ⟨noLine_iff.1 (absent key mem_cons_self), nodup⟩
    · rw [setall, set]
      exact done

/-- Where the fields of a request come from. -/
structure AuthReq.ComesFrom (req : AuthReq) (pairs : List (Str × Str)) : Prop where
  network : OnlyLine pairs (str "network") req.network
  asset : OnlyLine pairs (str "asset") req.asset
  payto : OnlyLine pairs (str "payto") req.payto
  amount : OnlyLine pairs (str "amount") req.amount
  timeout : (∃ val t, OnlyLine pairs (str "timeout") val ∧ strint val = some t ∧
    req.timeout = clamp t) ∨ NoLine pairs (str "timeout") ∧ req.timeout = 30
  tokenname : OnlyLine pairs (str "name") req.tokenname ∨
    NoLine pairs (str "name") ∧ req.tokenname = []
  tokenver : OnlyLine pairs (str "version") req.tokenver ∨
    NoLine pairs (str "version") ∧ req.tokenver = []
  resource : OnlyLine pairs (str "resource") req.resource ∨ req.resource = [] ∧
    (NoLine pairs (str "resource") ∨ ∃ val, OnlyLine pairs (str "resource") val ∧ 1024 < val.length)

private theorem copied {value : AuthReq → Str} {key : Str} (setBy : SetBy setfield value key Copied)
    {pairs : List (Str × Str)} (nodup : (pairs.map Prod.fst).Nodup)
    (done : setall setfield emptyreq pairs = .ok out) :
    OnlyLine pairs key (value out) ∨ NoLine pairs key ∧ value out = value emptyreq := by
  rcases setBy.onlyLine nodup done with ⟨val, only, copied⟩ | unset
  · have same : value out = val := copied
    exact Or.inl (same ▸ only)
  · exact Or.inr unset

theorem parseauthreq_comesFrom (parsed : parseauthreq text = .ok found) :
    ((fields isNewline 32 text).map Prod.fst).Nodup ∧
    found.ComesFrom (fields isNewline 32 text) := by
  unfold parseauthreq at parsed
  rcases lines : parselines (tokens isNewline text) [] emptyreq with err | out
  · rw [lines] at parsed
    cases parsed
  rw [lines] at parsed
  have ⟨_, nodup, done⟩ := parselines_ok lines
  change ((fields isNewline 32 text).map Prod.fst).Nodup at nodup
  change setall setfield emptyreq (fields isNewline 32 text) = .ok out at done
  have ⟨required, same⟩ := passed parsed
  simp only [not_or] at required
  cases same
  have name := copied setBy_name nodup done
  have version := copied setBy_version nodup done
  refine ⟨nodup, ⟨?_, ?_, ?_, ?_, ?_, ?_, ?_, ?_⟩⟩
  · exact (copied setBy_network nodup done).resolve_right fun unset => required.1 unset.2
  · exact (copied setBy_asset nodup done).resolve_right fun unset => required.2.1 unset.2
  · exact (copied setBy_payto nodup done).resolve_right fun unset => required.2.2.1 unset.2
  · exact (copied setBy_amount nodup done).resolve_right fun unset => required.2.2.2 unset.2
  · rcases setBy_timeout.onlyLine nodup done with ⟨val, only, read⟩ | ⟨absent, unset⟩
    · exact Or.inl ⟨val, out.timeout, only, read, rfl⟩
    · refine Or.inr ⟨absent, ?_⟩
      simp only [unset]
      rfl
  · exact name
  · exact version
  rcases setBy_resource.onlyLine nodup done with ⟨val, only, bounded⟩ | ⟨absent, unset⟩
  · unfold Bounded at bounded
    split at bounded
    · exact Or.inl (bounded ▸ only)
    · exact Or.inr ⟨bounded, Or.inr ⟨val, only, by omega⟩⟩
  · exact Or.inr ⟨unset, Or.inl absent⟩

/-- A written request is read with the fields it was written from, and in any text that is
read each field stands on the only line with its key. -/
theorem no_field_injection :
    (∀ (req : PaymentReq) (resource : Option ResourceInfo) (acctname text : Str)
      (found : AuthReq), authorize req resource acctname = .ok text →
      parseauthreq text = .ok found →
      found = ⟨req.network, req.asset, req.payto, req.amount, clamp req.timeout, req.name,
        req.version, (resource.map ResourceInfo.url).getD []⟩) ∧
    ∀ (text : Str) (found : AuthReq), parseauthreq text = .ok found →
      ((fields isNewline 32 text).map Prod.fst).Nodup ∧
      found.ComesFrom (fields isNewline 32 text) :=
  ⟨fun _ _ _ _ _ allowed parsed => parseauthreq_authorize allowed parsed,
    fun _ _ parsed => parseauthreq_comesFrom parsed⟩

/-- One dollar of a token whose name has a space in it. -/
def sampleReq : PaymentReq where
  scheme := str "exact"
  network := str "eip155:8453"
  amount := str "1000000"
  asset := str "0x833589fCD6eDb6E08f4c7C32D4f71b54bdA02913"
  payto := str "0x209693bc6afc0c5328ba36faf03c514ef312287c"
  timeout := 10
  name := str "USD Coin"
  version := str "2"

def sampleText : Str := reqtext (reqlines sampleReq ++ [field "resource" (str "https://a/b")])

def sampleFound : AuthReq where
  network := sampleReq.network
  asset := sampleReq.asset
  payto := sampleReq.payto
  amount := sampleReq.amount
  timeout := 30
  tokenname := sampleReq.name
  tokenver := sampleReq.version
  resource := str "https://a/b"

theorem no_field_injection_sample :
    sampleFound = ⟨sampleReq.network, sampleReq.asset, sampleReq.payto, sampleReq.amount,
      clamp sampleReq.timeout, sampleReq.name, sampleReq.version,
      ((some ⟨str "https://a/b"⟩ : Option ResourceInfo).map ResourceInfo.url).getD []⟩ ∧
    ((fields isNewline 32 sampleText).map Prod.fst).Nodup ∧
    sampleFound.ComesFrom (fields isNewline 32 sampleText) :=
  have allowed : authorize sampleReq (some ⟨str "https://a/b"⟩) (str "main") = .ok sampleText := by
    decide +kernel
  have parsed : parseauthreq sampleText = .ok sampleFound := by decide +kernel
  ⟨no_field_injection.1 sampleReq _ _ sampleText sampleFound allowed parsed,
    no_field_injection.2 sampleText sampleFound parsed⟩

end Infernode.Authorize
