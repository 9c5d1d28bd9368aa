import Infernode.Net.Octal
import Infernode.Net.Webclient

/-!
Dialling by public requests: `dialaddr` of `appl/lib/publicnet.b`, and `dorequest`
of `appl/lib/webclient.b` up to the dialled address.

Owns: `resolveaddr`, `dialaddr`, `publicaddr`, and what the network device makes of
the addresses that they return.

Does not own: the exchange with a server once it is dialled, which is a parameter.
-/

namespace Infernode.Publicnet

open Text Strings Inet Ipaux Lib9 List

def NAMEMAX : Nat := 256

/-- What the connection server does with one query: it cannot be opened, it takes no
query, or it answers with bytes. -/
inductive Connserver where
  | absent
  | refuses
  | answers (buf : List Nat)
deriving DecidableEq, Repr

def resolveaddr (cs : Connserver) (host port : Str) : Str :=
  match cs with
  | .absent => if publicipv4 host < 0 then [] else host ++ 33 :: port
  | .refuses => []
  | .answers buf => ((c2string (buf.take NAMEMAX)).dropWhile (· != 32)).tail

/-- The text before the last `!`, after leading white space. -/
def addressof (naddr : Str) : Str :=
  let naddr := naddr.dropWhile fun c => c == 32 || c == 9 || c == 13 || c == 10
  if 33 ∈ naddr then (splitr naddr (· == 33)).1.dropLast else naddr

def dialaddr (cs : Connserver) (host port : Str) : Except String Str :=
  let naddr := resolveaddr cs host port
  if naddr = [] then .error "public net: destination denied (resolution failed)"
  else
    let resolved := addressof naddr
    if publicipv4 resolved < 0 then
      .error "public net: destination denied (non-IPv4 resolution)"
    else if publicipv4 resolved = 0 then
      .error "public net: private or reserved destination denied"
    else .ok (str "tcp!" ++ resolved ++ 33 :: port)

def answered (cs : Connserver) (host : Str) : Str :=
  match cs with
  | .absent => host
  | .refuses => []
  | .answers buf => addressof ((c2string (buf.take NAMEMAX)).dropWhile (· != 32)).tail

def PublicAddress (ip : List Nat) : Prop :=
  ∃ v, v < 2 ^ 32 ∧ ip = v4tov6 (octetsOf v) ∧ publicipv4 (dotted v) = 1 ∧ ¬Reserved4 v

def DialsPublic (addr : Str) : Prop :=
  ∃ ip, setraddrport (cstr (cvtca (Url.split addr 33).2)) = .ok ip ∧ PublicAddress ip

/-! ### The address that is checked -/

theorem publicipv4_cases (s : Str) : publicipv4 s = -1 ∨ publicipv4 s = 0 ∨ publicipv4 s = 1 := by
  unfold publicipv4
  split
  · split_ifs <;> simp
  · simp

variable {s host port : Str}

theorem addressChar_of_publicipv4 (accepted : publicipv4 s ≠ -1) :
    ∀ c ∈ s, c = dot ∨ isDigit c = true := by
  have ⟨_, _, _, _, _, _, _, _, _, read⟩ := exists_four accepted
  intro c member
  rcases mem_splitOn dot member with isDot | ⟨field, inFields, inField⟩
  · exact Or.inl isDot
  · exact Or.inr (((isDigit_of_octets read).2 field inFields).2 c inField)

theorem bang_notMem (accepted : publicipv4 s ≠ -1) : 33 ∉ s := by
  intro member
  rcases addressChar_of_publicipv4 accepted 33 member with isDot | digit
  · exact absurd isDot (by decide)
  · exact absurd digit (by decide)

theorem ne_nil_of_publicipv4 (accepted : publicipv4 s ≠ -1) : s ≠ [] := by
  rintro rfl
  exact accepted (by decide)

/-- The address before the last `!` is the host, unless it is no address. -/
theorem addressof_host (hostAccepted : publicipv4 host ≠ -1)
    (accepted : publicipv4 (addressof (host ++ 33 :: port)) ≠ -1) :
    addressof (host ++ 33 :: port) = host := by
  obtain ⟨c, rest, rfl⟩ := exists_cons_of_ne_nil (ne_nil_of_publicipv4 hostAccepted)
  have noSpace : (c :: rest ++ 33 :: port).dropWhile
      (fun c => c == 32 || c == 9 || c == 13 || c == 10) = c :: rest ++ 33 :: port := by
    rw [cons_append, dropWhile_cons_of_neg]
    rcases addressChar_of_publicipv4 hostAccepted c (by simp) with rfl | digit
    · decide
    · have bounds := isDigit_bounds digit
      simp only [Bool.or_eq_true, beq_iff_eq]
      omega
  unfold addressof at accepted ⊢
  simp only [noSpace] at accepted ⊢
  rw [if_pos (by simp)] at accepted ⊢
  by_cases inPort : 33 ∈ port
  · obtain ⟨left, right, rfl, absent⟩ :
        ∃ left right, port = left ++ 33 :: right ∧ 33 ∉ right := by
      have ⟨last, first, reversed, absent⟩ :=
        eq_append_cons_of_mem (mem_reverse.2 inPort)
      refine ⟨first.reverse, last.reverse, ?_, fun member => absent (mem_reverse.1 member)⟩
      rw [← reverse_reverse port, reversed]
      simp
    have cut : splitr (c :: rest ++ 33 :: (left ++ 33 :: right)) (· == 33) =
        (c :: rest ++ 33 :: left ++ [33], right) := by
      rw [← splitr_append absent]
      simp
    rw [cut, dropLast_concat] at accepted
    exact absurd (by simp) (bang_notMem accepted)
  · rw [splitr_append inPort, dropLast_concat]

theorem dialaddr_ok {cs : Connserver} {addr : Str} (dialled : dialaddr cs host port = .ok addr) :
    publicipv4 (answered cs host) = 1 ∧
      addr = str "tcp!" ++ answered cs host ++ 33 :: port := by
  unfold dialaddr at dialled
  simp only at dialled
  split_ifs at dialled with failed notIpv4 reserved
  cases dialled
  have public_ : publicipv4 (addressof (resolveaddr cs host port)) = 1 := by
    rcases publicipv4_cases (addressof (resolveaddr cs host port)) with bad | zero | one
    · exact absurd (by rw [bad]; decide) notIpv4
    · exact absurd zero reserved
    · exact one
  have same : addressof (resolveaddr cs host port) = answered cs host := by
    cases cs with
    | refuses => exact absurd rfl failed
    | answers _ => rfl
    | absent =>
      by_cases hostDenied : publicipv4 host < 0
      · simp [resolveaddr, hostDenied] at failed
      have shape : resolveaddr .absent host port = host ++ 33 :: port := by
        simp [resolveaddr, hostDenied]
      rw [shape] at public_ ⊢
      exact addressof_host (by omega) (by rw [public_]; decide)
  rw [same] at public_ ⊢
  exact ⟨public_, rfl⟩

/-! ### The address that is dialled -/

theorem publicipv4_octetsOf {v : Nat} (read : octets (s.splitOn dot) = some (octetsOf v)) :
    publicipv4 s = publicipv4 (dotted v) := by
  unfold publicipv4
  rw [show (46 : Nat) = dot from rfl] at *
  rw [read, show dot = 46 from rfl, octets_dotted]

/-- Four octets are the bytes of an address. -/
theorem exists_octetsOf {x0 x1 x2 x3 : Nat}
    (read : octets (s.splitOn dot) = some [x0, x1, x2, x3]) :
    octetsOf (nhgetl [x0, x1, x2, x3]) = [x0, x1, x2, x3] ∧ nhgetl [x0, x1, x2, x3] < 2 ^ 32 := by
  have small : ∀ {fields : List Str} {values : List Nat}, octets fields = some values →
      ∀ v ∈ values, v ≤ 255 := by
    intro fields
    induction fields with
    | nil =>
      intro values empty v member
      cases empty
      exact absurd member not_mem_nil
    | cons _ _ ih =>
      intro _ all
      obtain ⟨_, _, _, rfl, fieldRead, moreRead⟩ := octets_cons all
      exact forall_mem_cons.2
        ⟨(digits_of_octet fieldRead).2.2 (by decide), ih moreRead⟩
  have bounds := small read
  simp only [mem_cons, not_mem_nil, or_false, forall_eq_or_imp, forall_eq] at bounds
  have ⟨_, _, _, _⟩ := bounds
  simp only [nhgetl, foldl_cons, foldl_nil, octetsOf, List.cons.injEq, and_true]
  omega

/-- A public address without octal spellings is dialled as it was checked. -/
theorem dialsPublic_of_plain {resolved : Str} (public_ : publicipv4 resolved = 1)
    (plain : PlainDotted resolved) : DialsPublic (str "tcp!" ++ resolved ++ 33 :: port) := by
  have accepted : publicipv4 resolved ≠ -1 := by
    rw [public_]
    decide
  obtain ⟨_, second, third, fourth, x0, x1, x2, x3, fields, read⟩ := exists_four accepted
  obtain ⟨bytes, word⟩ := exists_octetsOf read
  have kernel := parseip_octets fields read rfl
  have agree := (v4bytes_octets [second, third, fourth] (fields ▸ read)).2 (fields ▸ plain)
  rw [show [second, third, fourth].length + 1 = 4 from rfl] at agree
  rw [agree] at kernel
  have same := publicipv4_octetsOf (v := nhgetl [x0, x1, x2, x3]) (by rw [bytes]; exact read)
  rw [public_] at same
  have unreserved : ¬Reserved4 (nhgetl [x0, x1, x2, x3]) := by
    intro reserved
    rw [publicipv4_dotted word, if_pos reserved] at same
    cases same
  have nonzero : nhgetl [x0, x1, x2, x3] ≠ 0 := by
    intro zero
    rw [zero] at unreserved
    exact unreserved (by decide)
  have remote : (Url.split (str "tcp!" ++ resolved ++ 33 :: port) 33).2 =
      resolved ++ 33 :: port := by
    have shape : str "tcp!" ++ resolved ++ 33 :: port =
        str "tcp" ++ 33 :: (resolved ++ 33 :: port) := by
      simp [str]
    rw [shape, Url.split_append (by decide)]
  have ascii := ascii_of_octets read
  have cstring : cstr (cvtca (resolved ++ 33 :: port)) = resolved ++ 33 :: cstr (cvtca port) := by
    have clean := cstr_cvtca_ascii ascii
    have left : cvtca resolved = resolved := by
      have whole := cstr_cvtca_ascii ascii
      rw [cstr_of_no_nul] at whole
      · exact whole
      intro member
      obtain ⟨c, inText, inBytes⟩ := mem_flatMap.1 member
      have small := ascii c inText
      rw [runetochar, if_pos (by omega), mem_singleton] at inBytes
      omega
    have bang : cvtca (33 :: port) = 33 :: cvtca port := by
      simp [cvtca, runetochar]
    rw [cvtca_append, left, bang]
    unfold cstr
    rw [takeWhile_append_of_pos, takeWhile_cons_of_pos (by decide)]
    intro c member
    have small := ascii c member
    simp only [bne_iff_ne, ne_eq]
    omega
  refine ⟨v4tov6 [x0, x1, x2, x3], ?_, nhgetl [x0, x1, x2, x3], word, by rw [bytes], same.symm,
    unreserved⟩
  rw [remote, cstring, setraddrport, if_neg (by simp)]
  have cut : (resolved ++ 33 :: cstr (cvtca port)).takeWhile (· != 33) = resolved := by
    refine takeWhile_append_stop (fun c member => ?_) (by decide)
    have other : c ≠ 33 := fun same => bang_notMem accepted (same ▸ member)
    simpa using other
  rw [cut, kernel]
  simp only [if_neg nonzero]

end Infernode.Publicnet

namespace Infernode.Webclient

open Text Url Inet Ipaux Lib9 Publicnet

def publicaddr (cs : Connserver) (host port : Str) : Except String Str := dialaddr cs host port

/-- The address that a public request for the URL dials. -/
def target (cs : Connserver) (requrl : Str) : Except String Str :=
  let u := makeurl requrl
  let port := if u.port = [] then (if u.scheme = .HTTPS then str "443" else str "80") else u.port
  publicaddr cs u.host port

section Loop

variable {Jar : Type} (jarOps : JarOps Jar) (cs : Nat → Connserver)
  (exchange : Str → Request → Except String Response)

/-- A public request; the connection server may answer each hop as it likes, and the
exchange is made with the dialled address. -/
def dorequest (redir : Nat) (request : Request) : Except String Response :=
  match target (cs redir) request.url with
  | .error err => .error err
  | .ok addr => exchange addr request

/-- Every request that is answered was sent to the address of its own hop. -/
theorem request0_dialled (left : Nat) : ∀ (redir : Nat) (method requrl : Str)
    (hdrs : List Header) (body : List Nat) (jar : Option Jar) (k : Nat) (e : Exchange),
    (request0 jarOps (dorequest cs exchange) left redir method requrl hdrs body jar).1[k]? =
        some e →
      ∀ resp, e.answer = .ok resp → ∃ addr, target (cs (redir + k)) e.request.url = .ok addr ∧
        ∃ served, exchange addr e.request = .ok served := by
  induction left with
  | zero =>
    intro redir method requrl hdrs body jar k e found
    cases found
  | succ left ih =>
    intro redir method requrl hdrs body jar k e found resp answer
    rw [request0] at found
    simp only at found
    split at found
    · cases found
    split at found
    · cases k with
      | zero =>
        cases found
        cases answer
      | succ k => cases found
    rename_i served sent
    have reached : ∃ addr, target (cs redir) requrl = .ok addr ∧
        ∃ served, exchange addr ⟨method, requrl, hdrs, jarcookie jarOps requrl jar, body⟩ =
          .ok served := by
      unfold dorequest at sent
      split at sent
      · cases sent
      · rename_i addr isTarget
        exact ⟨addr, isTarget, served, sent⟩
    by_cases stops : redirects served.statuscode = false ∨
        Response.hdrval { served with url := requrl } (str "Location") = []
    · rw [if_pos stops] at found
      cases k with
      | zero =>
        cases found
        exact reached
      | succ k => cases found
    rw [if_neg stops] at found
    cases k with
    | zero =>
      cases found
      exact reached
    | succ k =>
      have later := ih _ _ _ _ _ _ k e found resp answer
      rw [show redir + 1 + k = redir + (k + 1) by omega] at later
      exact later

end Loop

/-- The network device reads a string that the filter takes for an address as the
filter does, exactly when it has no octal spelling; and in every chain of redirects, a
hop whose address has none dials a public address. -/
theorem filter_agrees_iff {Jar : Type} (jarOps : JarOps Jar) (cs : Nat → Connserver)
    (exchange : Str → Request → Except String Response) (left : Nat) (method requrl : Str)
    (hdrs : List Header) (body : List Nat) (jar : Option Jar) :
    (∀ s, publicipv4 s ≠ -1 → (Denotes s ↔ PlainDotted s)) ∧
      (∀ cs host port addr, dialaddr cs host port = .ok addr → PlainDotted (answered cs host) →
        DialsPublic addr) ∧
      ∀ (k : Nat) (e : Exchange),
        (request0 jarOps (dorequest cs exchange) left 0 method requrl hdrs body jar).1[k]? =
            some e →
          PlainDotted (answered (cs k) (makeurl e.request.url).host) →
            (∀ addr, target (cs k) e.request.url = .ok addr → DialsPublic addr) ∧
              ∀ resp, e.answer = .ok resp →
                ∃ addr, target (cs k) e.request.url = .ok addr ∧ DialsPublic addr ∧
                  ∃ served, exchange addr e.request = .ok served := by
  have dials : ∀ cs host port addr, dialaddr cs host port = .ok addr →
      PlainDotted (answered cs host) → DialsPublic addr := by
    intro cs _ _ addr dialled plain
    obtain ⟨public_, rfl⟩ := dialaddr_ok dialled
    exact dialsPublic_of_plain public_ plain
  refine ⟨fun s accepted => denotes_iff accepted, dials, ?_⟩
  intro k e found plain
  have hop : ∀ addr, target (cs k) e.request.url = .ok addr → DialsPublic addr :=
    fun addr dialled => dials _ _ _ addr dialled plain
  refine ⟨hop, fun resp answer => ?_⟩
  have ⟨addr, dialled, served⟩ :=
    request0_dialled jarOps cs exchange left 0 method requrl hdrs body jar k e found resp answer
  rw [Nat.zero_add] at dialled
  exact ⟨addr, dialled, hop addr dialled, served⟩

/-- A connection server that knows the address of every host. -/
def resolver (_ : Nat) : Connserver := .answers (str "/net/tcp/clone 8.8.8.8!80")

theorem filter_agrees_resolved : Denotes (str "8.8.8.8") ∧
    DialsPublic (str "tcp!8.8.8.8!80") ∧
    target (resolver 1) (str "http://h/y") = .ok (str "tcp!8.8.8.8!80") ∧
    ∃ addr, target (resolver 1) (str "http://h/y") = .ok addr ∧ DialsPublic addr := by
  let moved (_ : Str) (request : Request) : Except String Response :=
    .ok ⟨302, [⟨str "Location", str "/y"⟩], [], request.url⟩
  let jarOps : JarOps Unit := ⟨fun _ _ => [], fun _ _ _ => ()⟩
  have dialled : target (resolver 1) (str "http://h/y") = .ok (str "tcp!8.8.8.8!80") := by
    decide +kernel
  have agrees := filter_agrees_iff jarOps resolver moved 2 (str "GET") (str "http://h/x") [] [] none
  refine ⟨(agrees.1 _ (by decide +kernel)).2 (by decide +kernel),
    agrees.2.1 (resolver 0) (str "h") (str "80") _ (by decide +kernel) (by decide +kernel),
    dialled, ?_⟩
  have hop := (agrees.2.2 1 ⟨⟨str "GET", str "http://h/y", [], none, []⟩,
      .ok ⟨302, [⟨str "Location", str "/y"⟩], [], str "http://h/y"⟩⟩ (by rfl)
    (by decide +kernel)).2 _ rfl
  have ⟨addr, reached, public_, _⟩ := hop
  exact ⟨addr, reached, public_⟩

/-- Without a connection server, `0177.0.0.1` passes the filter and is dialled as the
loopback address. -/
theorem filter_passes_loopback :
    publicipv4 (str "0177.0.0.1") = 1 ∧ ¬Denotes (str "0177.0.0.1") ∧
      ∃ addr, dialaddr .absent (str "0177.0.0.1") (str "80") = .ok addr ∧
        setraddrport (cstr (cvtca (Url.split addr 33).2)) = .ok (v4tov6 (octetsOf 2130706433)) ∧
        Reserved4 2130706433 ∧ ¬DialsPublic addr := by
  refine ⟨by decide +kernel, ?_, str "tcp!0177.0.0.1!80", by decide +kernel, by decide +kernel,
    by decide, ?_⟩
  · rw [denotes_iff (by decide +kernel)]
    decide +kernel
  rintro ⟨ip, dialled, v, word, same, _, unreserved⟩
  have loopback : setraddrport (cstr (cvtca (Url.split (str "tcp!0177.0.0.1!80") 33).2)) =
      .ok (v4tov6 (octetsOf 2130706433)) := by decide +kernel
  rw [loopback] at dialled
  rw [← Except.ok.inj dialled] at same
  simp only [v4tov6, octetsOf, List.append_cancel_left_eq, List.cons.injEq, and_true] at same
  have value : v = 2130706433 := by omega
  rw [value] at unreserved
  exact unreserved (by decide)

end Infernode.Webclient
