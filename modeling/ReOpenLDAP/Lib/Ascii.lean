import Mathlib.Algebra.Order.Ring.Int
import Mathlib.Data.List.Basic

/-!
# Lib.Ascii

Octets, and the classes of `<ctype.h>` in the C locale.

* `isSpace`, `isGraph`, `isPrint`, `isAlnum` — classes.
-/

namespace ReOpenLDAP
namespace Ascii

abbrev Octet := Fin 256

instance octet_neZero : NeZero 256 := ⟨by decide⟩

def ascii (c : Char) : Octet := Fin.ofNat 256 c.toNat

def text (s : String) : List Octet := s.toList.map ascii

/-- The octets of a literal, without decoding its UTF-8. -/
theorem text_ofList (cs : List Char) : text (String.ofList cs) = cs.map ascii := by
  rw [text, String.toList_ofList]

def NL : Octet := 10

def CR : Octet := 13

def isSpace (c : Octet) : Bool := c = 32 || (9 ≤ c && c ≤ 13)

def isGraph (c : Octet) : Bool := 33 ≤ c && c ≤ 126

def isPrint (c : Octet) : Bool := 32 ≤ c && c ≤ 126

def isUpper (c : Octet) : Bool := 65 ≤ c && c ≤ 90

def isLower (c : Octet) : Bool := 97 ≤ c && c ≤ 122

def isAlpha (c : Octet) : Bool := isUpper c || isLower c

def isDigit (c : Octet) : Bool := 48 ≤ c && c ≤ 57

def isAlnum (c : Octet) : Bool := isAlpha c || isDigit c

def toLower (c : Octet) : Octet := if isUpper c then c + 32 else c

theorem octet_spec : ∀ c : Octet, (isAlnum c = true ∨ isGraph c = true → isSpace c = false) ∧
    (isPrint c = true → c ≠ NL ∧ c ≠ CR) ∧ (toLower c = 0 → c = 0) ∧ isSpace (toLower c) = isSpace c := by
  decide +kernel

theorem not_space_of_alnum {c : Octet} (h : isAlnum c = true) : isSpace c = false := (octet_spec c).1 (.inl h)

theorem not_space_of_graph {c : Octet} (h : isGraph c = true) : isSpace c = false := (octet_spec c).1 (.inr h)

theorem print_not_control {c : Octet} (h : isPrint c = true) : c ≠ NL ∧ c ≠ CR := (octet_spec c).2.1 h

/-- `strncasecmp` on strings of one length gives 0. -/
def CaseEq (a b : List Octet) : Prop := a.map toLower = b.map toLower

instance (a b : List Octet) : Decidable (CaseEq a b) := inferInstanceAs (Decidable (_ = _))

theorem CaseEq.refl (a : List Octet) : CaseEq a a := rfl

theorem CaseEq.symm {a b : List Octet} (h : CaseEq a b) : CaseEq b a := Eq.symm h

theorem CaseEq.trans {a b c : List Octet} (hab : CaseEq a b) (hbc : CaseEq b c) : CaseEq a c := Eq.trans hab hbc

theorem CaseEq.length_eq {a b : List Octet} (h : CaseEq a b) : a.length = b.length := by
  simpa using congrArg List.length h

end Ascii
end ReOpenLDAP
