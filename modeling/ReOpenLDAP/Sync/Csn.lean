import Mathlib.Algebra.Order.Ring.Int
import Mathlib.Data.List.Lex
import Mathlib.Data.Prod.Lex
import Mathlib.Data.Char

/-!
# Sync.Csn

Change sequence numbers, `YYYYmmddHHMMSS.uuuuuuZ#SSSSSS#SID#ssssss`: a timestamp, a count, the ID of the server
and the number of the modification.
-/

namespace ReOpenLDAP
namespace Sync

def SLAP_SYNC_SID_MAX : Nat := 4095

def SLAP_SYNC_RID_MAX : Nat := 999

def csnMask : List Char := "99999999999999.999999Z#FFFFFF#FFF#FFFFFF".toList

def isHexLetter (c : Char) : Bool := ('a' ≤ c ∧ c ≤ 'f') ∨ ('A' ≤ c ∧ c ≤ 'F')

def csnCharOk (x c : Char) : Bool :=
  if x = 'F' then isHexLetter c || c.isDigit || c = x
  else if x = '9' then c.isDigit || c = x
  else c = x

def csnFormat (text : List Char) : Bool :=
  decide (text.length = 40) && (csnMask.zip text).all fun p => csnCharOk p.1 p.2

def memcmp (a b : List Char) : Ordering := if a < b then .lt else if b < a then .gt else .eq

theorem memcmp_eq_cmp (a b : List Char) : memcmp a b = cmp a b := by
  unfold memcmp cmp cmpUsing
  rfl

theorem memcmp_eq_lt {a b : List Char} : memcmp a b = .lt ↔ a < b := by
  unfold memcmp
  split_ifs <;> simp_all

theorem memcmp_eq_gt {a b : List Char} : memcmp a b = .gt ↔ b < a := by
  unfold memcmp
  split_ifs with h1 h2
  · simp [h1.le]
  · simp [h2]
  · simp [h2]

theorem memcmp_eq_eq {a b : List Char} : memcmp a b = .eq ↔ a = b := by
  unfold memcmp
  split_ifs with h1 h2
  · simp [h1.ne]
  · simp [h2.ne']
  · simp [le_antisymm (not_lt.mp h2) (not_lt.mp h1)]

def slapCsnCompareTs (a b : List Char) : Ordering :=
  (memcmp (a.take 29) (b.take 29)).then (memcmp ((a.drop 34).take 6) ((b.drop 34).take 6))

/-- What `slap_csn_verify_full` depends on: the mode, and the current time as a CSN of modification 0. -/
structure Clock where
  strict : Bool
  now : List Char
  mod : (now.drop 34).take 6 = "000000".toList

def slapCsnVerifyFull (k : Clock) (text : List Char) : Bool :=
  csnFormat text && (!k.strict ||
    (decide ("19000101000000.000000".toList ≤ text.take 21) && decide (slapCsnCompareTs k.now text ≠ .lt)))

structure Csn where
  text : List Char
  format : csnFormat text = true
deriving DecidableEq

def hexDigit (c : Char) : Nat :=
  if c.isDigit then c.toNat - '0'.toNat
  else if 'A' ≤ c ∧ c ≤ 'Z' then c.toNat - 'A'.toNat + 10
  else c.toNat - 'a'.toNat + 10

def hexValue (ds : List Char) : Nat := ds.foldl (fun r d => r * 16 + hexDigit d) 0

namespace Csn

/-- `slap_csn_get_sid` -/
def sid (c : Csn) : Nat := hexValue ((c.text.drop 30).take 3)

def ts (c : Csn) : List Char ×ₗ List Char := toLex (c.text.take 29, (c.text.drop 34).take 6)

theorem compareTs_lt {a b : Csn} : slapCsnCompareTs a.text b.text = .lt ↔ a.ts < b.ts := by
  unfold slapCsnCompareTs ts
  rw [Ordering.then_eq_lt, memcmp_eq_lt, memcmp_eq_eq, memcmp_eq_lt, Prod.Lex.toLex_lt_toLex]

theorem compareTs_gt {a b : Csn} : slapCsnCompareTs a.text b.text = .gt ↔ b.ts < a.ts := by
  unfold slapCsnCompareTs ts
  rw [Ordering.then_eq_gt, memcmp_eq_gt, memcmp_eq_eq, memcmp_eq_gt, Prod.Lex.toLex_lt_toLex, eq_comm]

theorem length_text (c : Csn) : c.text.length = 40 := by
  have h := c.format
  unfold csnFormat at h
  simpa using (Bool.and_eq_true_iff.mp h).1

end Csn
end Sync
end ReOpenLDAP
