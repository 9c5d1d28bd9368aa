import Infernode.Lib.Strings
import Infernode.Order.Narrowest

/-!
The paths of Veltro grants: the predicates that `appl/veltro/tools9p.b` and
`appl/veltro/nsconstruct.b` hold in common, word for word.

Owns: `pathwithin`, `validatepath`, the components of a path, the control paths that
are never granted, and the order of paths under `pathwithin`.
-/

namespace Infernode.Veltro

open Text Strings List

def pathwithin (grant want : Str) : Bool :=
  grant == want ||
    (decide (grant.length < want.length) && want.take grant.length == grant &&
      want[grant.length]? == some 47)

/-- The characters that separate the fields of the texts in which paths travel. -/
def controldelimiter (c : Nat) : Bool :=
  c == 32 || c == 10 || c == 13 || c == 9 || c == 44 || c == 61

def validatepath (p : Str) : Option Str :=
  if p = [] then some (str "empty path")
  else if p.head? ≠ some 47 then some (str "path must be absolute")
  else if p = [47] then some (str "root path is not grantable")
  else if p.any controldelimiter then some (str "path contains control delimiter")
  else
    (p.tail.splitOn 47).findSome? fun comp =>
      if comp = [] then some (str "empty path component")
      else if comp = str "." ∨ comp = str ".." then some (str "dot path component")
      else none

/-! ### Components -/

def components (path : Str) : List Str := tokens (· == 47) path

def componentcount (path : Str) : Nat := (components path).length

def pathhascomponent (path want : Str) : Bool := (components path).contains want

/-- The path is `root` or has it, with a slash, as a prefix. -/
def atOrBelow (root path : Str) : Bool := path == root || hasprefix path (root ++ [47])

/-! ### Control paths -/

def walletcontrolpath (path : Str) : Bool :=
  hasprefix path (str "/n/wallet/") && !decide (componentcount path < 4) &&
    (pathhascomponent path (str "ctl") || pathhascomponent path (str "sign"))

def ftreecontrolpath (path : Str) : Bool := atOrBelow (str "/tmp/veltro/ftree") path

def tmpveltrointernalpath (path : Str) : Bool :=
  [str "/tmp/veltro/.ns", str "/tmp/veltro/cow", str "/tmp/veltro/tasks"].any (atOrBelow · path)

def appipccontrolpath (path : Str) : Bool :=
  [str "/mnt/charon", str "/tmp/veltro/browser", str "/tmp/veltro/editor", str "/tmp/veltro/shell",
    str "/tmp/veltro/fractal", str "/tmp/veltro/man"].any (atOrBelow · path)

def uiagentcontrolpath (path : Str) : Bool := atOrBelow (str "/mnt/ui") path

def llmctlcontrolpath (path : Str) : Bool := path == str "/llm" || atOrBelow (str "/llm/ctl") path

def auditcontrolpath (path : Str) : Bool :=
  path == str "/mnt/audit" || atOrBelow (str "/mnt/audit/ctl") path ||
    atOrBelow (str "/mnt/audit/chain") path

def calendarcontrolpath (path : Str) : Bool :=
  path == str "/mnt/cal" || path == str "/mnt/cal/ctl" || path == str "/mnt/cal/accounts" ||
    ( hasprefix path (str "/mnt/cal/accounts/") &&
      (decide (componentcount path ≤ 4) || pathhascomponent path (str "ctl")))

def fixedservicecontrolpath (path : Str) : Bool :=
  [str "/mnt/matrix", str "/mnt/wsys", str "/mnt/git", str "/n/git", str "/mnt/gpu", str "/mnt/web",
    str "/n/web", str "/mnt/wiki", str "/n/wikia", str "/mnt/keys", str "/mnt/keysrv",
    str "/mnt/registry", str "/mnt/video", str "/phone"].any (atOrBelow · path)

/-- The control files that are named one by one. -/
def dangerous : List Str :=
  [str "/tool/ctl", str "/mnt/toolctl", str "/mnt/toolctl/ctl", str "/mnt/factotum",
    str "/mnt/ui/ctl", str "/mnt/msg/ctl", str "/mnt/msg/pending", str "/mnt/msg/approve",
    str "/mnt/msg/deny", str "/n/wallet/ctl", str "/n/wallet/pending", str "/n/wallet/new"]

/-- An account shows `compose`, and a message shows `draft-reply`. -/
def mailaccountancestor (path : Str) : Bool :=
  ( hasprefix path (str "/mnt/mail/accounts/") && decide (componentcount path ≤ 4)) ||
    ( hasprefix path (str "/mnt/mail/accounts/") && pathhascomponent path (str "boxes") &&
      decide (componentcount path ≤ 7))

def directmailsendpath (path : Str) : Bool :=
  path == str "/mnt/mail" ||
    ( hasprefix path (str "/mnt/mail/") &&
      (pathhascomponent path (str "compose") || pathhascomponent path (str "draft-reply") ||
        mailaccountancestor path))

/-! ### The order of paths -/

theorem pathwithin_iff {grant want : Str} :
    pathwithin grant want = true ↔ grant = want ∨ ∃ rest, want = grant ++ 47 :: rest := by
  simp only [pathwithin, Bool.or_eq_true, Bool.and_eq_true, beq_iff_eq, decide_eq_true_eq]
  refine or_congr_right ⟨?_, ?_⟩
  · rintro ⟨⟨longer, front⟩, slash⟩
    have ⟨_, value⟩ := List.getElem?_eq_some_iff.1 slash
    refine ⟨want.drop (grant.length + 1), ?_⟩
    conv_lhs => rw [← take_append_drop grant.length want, drop_eq_getElem_cons longer]
    rw [front, value]
  · rintro ⟨rest, rfl⟩
    simp

theorem pathwithin_refl (p : Str) : pathwithin p p = true := by simp [pathwithin]

theorem pathwithin_trans {a b c : Str} (outer : pathwithin a b = true)
    (inner : pathwithin b c = true) : pathwithin a c = true := by
  rw [pathwithin_iff] at outer inner ⊢
  rcases outer with rfl | ⟨middle, rfl⟩
  · exact inner
  · rcases inner with rfl | ⟨rest, rfl⟩
    · exact Or.inr ⟨middle, rfl⟩
    · exact Or.inr ⟨middle ++ 47 :: rest, by simp⟩

theorem length_le_of_pathwithin {a b : Str} (within : pathwithin a b = true) :
    a.length ≤ b.length := by
  rcases pathwithin_iff.1 within with rfl | ⟨rest, rfl⟩
  · exact Nat.le_refl _
  · simp

/-- Of two grants that cover one path, one that is not longer covers the other. -/
theorem pathwithin_of_length_le {a b p : Str} (aWithin : pathwithin a p = true)
    (bWithin : pathwithin b p = true) (shorter : a.length ≤ b.length) : pathwithin a b = true := by
  rw [pathwithin_iff] at aWithin bWithin ⊢
  have aPrefix : a <+: p := by
    rcases aWithin with rfl | ⟨rest, rfl⟩
    · exact prefix_rfl
    · exact prefix_append ..
  have bPrefix : b <+: p := by
    rcases bWithin with rfl | ⟨rest, rfl⟩
    · exact prefix_rfl
    · exact prefix_append ..
  obtain ⟨more, rfl⟩ := prefix_of_prefix_length_le aPrefix bPrefix shorter
  cases more with
  | nil => exact Or.inl (by simp)
  | cons _ rest =>
    right
    rcases aWithin with same | ⟨others, same⟩
    · have sizes := bPrefix.length_le
      rw [← same] at sizes
      simp only [length_append, length_cons] at sizes
      omega
    have ⟨_, shape⟩ := bPrefix
    rw [same, append_assoc, append_cancel_left_eq, cons_append,
      List.cons.injEq] at shape
    exact ⟨rest, by rw [shape.1]⟩

theorem forest_pathwithin :
    Narrowest.Forest fun grant want : Str => pathwithin grant want = true where
  refl := pathwithin_refl
  trans := pathwithin_trans
  antisymm := by
    intro a b outer inner
    have sizes := Nat.le_antisymm (length_le_of_pathwithin outer) (length_le_of_pathwithin inner)
    rcases pathwithin_iff.1 outer with same | ⟨rest, rfl⟩
    · exact same
    · simp at sizes
  chain := by
    intro a b _ aWithin bWithin
    rcases Nat.le_total a.length b.length with shorter | shorter
    · exact Or.inl (pathwithin_of_length_le aWithin bWithin shorter)
    · exact Or.inr (pathwithin_of_length_le bWithin aWithin shorter)

end Infernode.Veltro
