import Mathlib.Data.List.Forall2
import Mathlib.Data.List.TakeWhile
import ReOpenLDAP.Sync.Csn

/-!
# Sync.CookieText

The text form of sync cookies, `rid=001,sid=00a,csn=…;…`.

* `cookie_text_round_trip`  — a composed text reads back as the CSNs in normal form, sorted by server.
-/

namespace ReOpenLDAP
namespace Sync

open List

/-- `%03d` and `%03x` of `snprintf`. -/
def pad3 (base n : Nat) : List Char :=
  List.replicate (3 - (Nat.toDigits base n).length) '0' ++ Nat.toDigits base n

/-- A buffer that is filled from its start. `high` is the highest index that was written. -/
structure Writer where
  text : List Char
  high : Nat
deriving DecidableEq

namespace Writer

/-- `p = stpcpy(p, s)`: the terminating NUL is written behind the text. -/
def stpcpy (w : Writer) (s : List Char) : Writer := ⟨w.text ++ s, max w.high (w.text.length + s.length)⟩

/-- `*p++ = c` -/
def put (w : Writer) (c : Char) : Writer := ⟨w.text ++ [c], max w.high w.text.length⟩

/-- `*--p = 0` -/
def back (w : Writer) : Writer := ⟨w.text.dropLast, max w.high (w.text.length - 1)⟩

end Writer

/-- The contents of `buf` before the CSNs. -/
def cookiePrefix (csns : List (List Char)) (rid sid : Int) : List Char :=
  let buf := if 0 ≤ rid then "rid=".toList ++ pad3 10 rid.toNat else []
  let buf := buf ++ if 0 ≤ sid then (if buf = [] then [] else [',']) ++ "sid=".toList ++ pad3 16 sid.toNat else []
  buf ++ if csns = [] then [] else (if buf = [] then [] else [',']) ++ "csn=".toList

/-- `slap_cookie_compose`: the length it computes, which is one less than what it allocates, and what it writes. -/
def slapCookieCompose (csns : List (List Char)) (rid sid : Int) : Nat × Writer :=
  let buf := cookiePrefix csns rid sid
  let len := if csns = [] then buf.length else csns.foldl (fun len csn => len + (csn.length + 1)) (buf.length - 1)
  let w := (⟨[], 0⟩ : Writer).stpcpy buf
  (len, if csns = [] then w else (csns.foldl (fun w csn => (w.stpcpy csn).put ';') w).back)

/-- The value of a digit in `strntoi`. -/
def digitValue (c : Char) : Option Nat :=
  if c.isDigit then some (c.toNat - '0'.toNat)
  else if 'A' ≤ c ∧ c ≤ 'Z' then some (c.toNat - 'A'.toNat + 10)
  else if 'a' ≤ c ∧ c ≤ 'z' then some (c.toNat - 'a'.toNat + 10)
  else none

/-- `strntoi`: the number, and the rest of the text. A number ends before it gets too large for an `int`. -/
def strntoi (base : Nat) : Nat → List Char → Nat × List Char
  | r, [] => (r, [])
  | r, c :: cs =>
    match digitValue c with
    | none => (r, c :: cs)
    | some d => if base ≤ d ∨ 2 ^ 31 ≤ d + r * base then (r, c :: cs) else strntoi base (d + r * base) cs

/-- What `slap_cookie_parse` has found so far. -/
structure Parsed where
  rid : Int
  sid : Int
  csns : List (List Char)
deriving DecidableEq

/-- `csnNormalize` for a valid CSN: the server and the modification in lower case. -/
def csnNormalize (text : List Char) : List Char := text.take 30 ++ (text.drop 30).map Char.toLower

def stubCsn : List Char := "19000101000000.000000Z#000000#000#000000".toList

/-- One CSN of the list: `none` is `goto bailout`. `ad` tells whether the schema is loaded. -/
def parseCsn (k : Clock) (ad : Bool) (text : List Char) : Option (List Char) :=
  let csn := if ad && slapCsnVerifyFull k text then csnNormalize text else text
  if slapCsnVerifyFull k csn then some csn
  else if k.strict then none
  else some stubCsn

def isSeparator (c : Char) : Bool := c = ';' ∨ c = ','

/-- The loop behind `csn=`, which goes on to the end of the text. -/
def parseCsns (k : Clock) (ad : Bool) : Nat → List Char → List (List Char) → Option (List (List Char))
  | 0, _, _ => none
  | fuel + 1, next, csns =>
    match parseCsn k ad (next.takeWhile (!isSeparator ·)) with
    | none => none
    | some csn =>
      match (next.dropWhile (!isSeparator ·)).tail with
      | [] => some (csns ++ [csn])
      | next => parseCsns k ad fuel next (csns ++ [csn])

/-- A number of the cookie, `none` for `goto bailout`; a comma behind it is skipped. -/
def parseNumber (base max : Nat) (anchor : List Char) : Option (Nat × List Char) :=
  let (v, next) := strntoi base 0 anchor
  if next.length = anchor.length ∨ max < v then none
  else
    match next with
    | [] => some (v, [])
    | c :: cs => if c = ',' then some (v, cs) else none

/-- The loop of `slap_cookie_parse`. -/
def parseLoop (k : Clock) (ad : Bool) : Nat → List Char → Parsed → Option Parsed
  | _, [], dst => some dst
  | 0, _, _ => none
  | fuel + 1, next, dst =>
    if "rid=".toList.isPrefixOf next then
      match parseNumber 10 SLAP_SYNC_RID_MAX (next.drop 4) with
      | none => none
      | some (v, next) => parseLoop k ad fuel next { dst with rid := v }
    else if "sid=".toList.isPrefixOf next then
      match parseNumber 16 SLAP_SYNC_SID_MAX (next.drop 4) with
      | none => none
      | some (v, next) => parseLoop k ad fuel next { dst with sid := v }
    else if "csn=".toList.isPrefixOf next then
      (parseCsns k ad (next.length + 1) (next.drop 4) dst.csns).map fun csns => { dst with csns := csns }
    else if next.head? = some ' ' then parseLoop k ad fuel next.tail dst
    else none

def slapCsnCompareSr (a b : List Char) : Ordering := memcmp ((a.drop 30).take 4) ((b.drop 30).take 4)

def csnQsortCmp (a b : List Char) : Ordering := (slapCsnCompareSr a b).then (slapCsnCompareTs b a)

/-- The last loop of `slap_csns_validate_and_sort`: one CSN for each server. -/
def dropSameSid : List (List Char) → List (List Char)
  | [] => []
  | [a] => [a]
  | a :: b :: l => if slapCsnCompareSr a b = .eq then dropSameSid (a :: l) else a :: dropSameSid (b :: l)
termination_by l => l.length

def slapCsnsValidateAndSort (k : Clock) (csns : List (List Char)) : List (List Char) :=
  dropSameSid ((csns.filter (slapCsnVerifyFull k)).mergeSort fun a b => csnQsortCmp a b != .gt)

/-- `slap_csn_get_sid` of a valid CSN. -/
def sidOf (csn : List Char) : Nat := hexValue ((csn.drop 30).take 3)

/-- What `slap_cookie_parse` leaves in the cookie. -/
structure CookieText where
  rid : Int
  sid : Int
  csns : List (Nat × List Char)
deriving DecidableEq

/-- `slap_cookie_parse`; `none` is `LDAP_PROTOCOL_ERROR`. -/
def slapCookieParse (k : Clock) (ad : Bool) (src : List Char) : Option CookieText :=
  if src = [] then some ⟨-1, -1, []⟩
  else if src.length ≤ 4 ∨ '\x00' ∈ src then none
  else
    match parseLoop k ad src.length src ⟨-1, -1, []⟩ with
    | none => none
    | some p =>
      if p.rid < 0 then none
      else
        let csns := slapCsnsValidateAndSort k p.csns
        if csns.length = p.csns.length then some ⟨p.rid, p.sid, csns.map fun csn => (sidOf csn, csn)⟩
        else none

/-! ## CSNs in normal form -/

def hexDigits : List Char := "0123456789abcdef".toList

variable {n base : Nat} {c : Char} {t : List Char}

theorem mem_of_range {lo : Nat} (hlo : lo ≤ c.toNat) (hhi : c.toNat < lo + n) : c ∈ (List.range' lo n).map Char.ofNat :=
  List.mem_map.mpr ⟨c.toNat, mem_range'_1.mpr ⟨hlo, hhi⟩, Char.ofNat_toNat c⟩

theorem forall_mem_of_all {α : Type} {p : α → Prop} [DecidablePred p] {l : List α} (h : (l.all fun x => decide (p x)) = true) :
    ∀ x ∈ l, p x :=
  fun x hx => of_decide_eq_true (List.all_eq_true.mp h x hx)

theorem hex_cases (h : csnCharOk 'F' c = true) : c ∈ "0123456789abcdefABCDEF".toList := by
  have hdigit : c.isDigit = true → c ∈ "0123456789abcdefABCDEF".toList := by
    intro hc
    have hr : 48 ≤ c.toNat ∧ c.toNat < 48 + 10 := by
      simp only [Char.isDigit, Bool.and_eq_true, decide_eq_true_eq] at hc
      exact ⟨hc.1, Nat.lt_succ_of_le hc.2⟩
    have hsub : ∀ x ∈ (List.range' 48 10).map Char.ofNat, x ∈ "0123456789abcdefABCDEF".toList := forall_mem_of_all (by decide)
    exact hsub c (mem_of_range hr.1 hr.2)
  have hletter : isHexLetter c = true → c ∈ "0123456789abcdefABCDEF".toList := by
    intro hc
    simp only [isHexLetter, decide_eq_true_eq, Bool.or_eq_true, Bool.decide_or, Bool.decide_and, Bool.and_eq_true] at hc
    have hlow : ∀ x ∈ (List.range' 97 6).map Char.ofNat, x ∈ "0123456789abcdefABCDEF".toList := forall_mem_of_all (by decide)
    have hup : ∀ x ∈ (List.range' 65 6).map Char.ofNat, x ∈ "0123456789abcdefABCDEF".toList := forall_mem_of_all (by decide)
    cases hc with
    | inl hc => exact hlow c (mem_of_range hc.1 (Nat.lt_succ_of_le hc.2))
    | inr hc => exact hup c (mem_of_range hc.1 (Nat.lt_succ_of_le hc.2))
  unfold csnCharOk at h
  rw [if_pos rfl] at h
  simp only [Bool.or_eq_true, decide_eq_true_eq] at h
  rcases h with (h | h) | h
  · exact hletter h
  · exact hdigit h
  · rw [h]
    decide

theorem toLower_hex (h : csnCharOk 'F' c = true) :
    c.toLower ∈ hexDigits ∧ hexDigit c.toLower = hexDigit c ∧ hexDigit c < 16 ∧ csnCharOk 'F' c.toLower = true := by
  have hall : ∀ x ∈ "0123456789abcdefABCDEF".toList,
      x.toLower ∈ hexDigits ∧ hexDigit x.toLower = hexDigit x ∧ hexDigit x < 16 ∧ csnCharOk 'F' x.toLower = true :=
    forall_mem_of_all (by decide)
  exact hall c (hex_cases h)

theorem hexDigit_lt {x y : Char} (hx : x ∈ hexDigits) (hy : y ∈ hexDigits) :
    (x < y ↔ hexDigit x < hexDigit y) ∧ (x = y ↔ hexDigit x = hexDigit y) := by
  have hall : ∀ x ∈ hexDigits, (hexDigits.all fun y =>
      decide ((x < y ↔ hexDigit x < hexDigit y) ∧ (x = y ↔ hexDigit x = hexDigit y))) = true :=
    forall_mem_of_all (by decide)
  exact of_decide_eq_true (List.all_eq_true.mp (hall x hx) y hy)

theorem csnFormat_iff : csnFormat t = true ↔ List.Forall₂ (fun x c => csnCharOk x c = true) csnMask t := by
  unfold csnFormat
  rw [forall₂_iff_zip, Bool.and_eq_true, decide_eq_true_eq, List.all_eq_true]
  have hmask : csnMask.length = 40 := by decide
  rw [hmask]
  constructor
  · intro ⟨hlen, hall⟩
    exact ⟨hlen.symm, fun {a b} hab => hall (a, b) hab⟩
  · intro ⟨hlen, hall⟩
    exact ⟨hlen.symm, fun p hp => hall hp⟩

theorem forall₂_replicate {α β : Type} {R : α → β → Prop} {a : α} {l : List β} :
    List.Forall₂ R (List.replicate n a) l ↔ l.length = n ∧ ∀ x ∈ l, R a x := by
  induction n generalizing l with
  | zero => cases l <;> simp
  | succ n ih =>
    cases l with
    | nil => simp
    | cons x l => simp [replicate_succ, ih, and_left_comm]

theorem csn_tail (h : csnFormat t = true) :
    ∃ a b c m, t.drop 30 = a :: b :: c :: '#' :: m ∧ csnCharOk 'F' a = true ∧ csnCharOk 'F' b = true ∧
      csnCharOk 'F' c = true ∧ m.length = 6 ∧ ∀ x ∈ m, csnCharOk 'F' x = true := by
  have hdrop := forall₂_drop 30 (csnFormat_iff.mp h)
  have hmask : csnMask.drop 30 = 'F' :: 'F' :: 'F' :: '#' :: List.replicate 6 'F' := by decide
  rw [hmask] at hdrop
  obtain ⟨a, l₁, ha, hl₁, h₁⟩ := List.forall₂_cons_left_iff.mp hdrop
  obtain ⟨b, l₂, hb, hl₂, h₂⟩ := List.forall₂_cons_left_iff.mp hl₁
  obtain ⟨c, l₃, hc, hl₃, h₃⟩ := List.forall₂_cons_left_iff.mp hl₂
  obtain ⟨d, m, hd, hm, h₄⟩ := List.forall₂_cons_left_iff.mp hl₃
  have hdd : d = '#' := by simpa [csnCharOk] using hd
  obtain ⟨hlen, hall⟩ := forall₂_replicate.mp hm
  exact ⟨a, b, c, m, by rw [h₁, h₂, h₃, h₄, hdd], ha, hb, hc, hlen, hall⟩

theorem drop_csnNormalize (h : csnFormat t = true) :
    (csnNormalize t).take 30 = t.take 30 ∧ (csnNormalize t).drop 30 = (t.drop 30).map Char.toLower := by
  have hlen : (t.take 30).length = 30 := by
    rw [length_take, (Csn.mk t h).length_text]
    rfl
  unfold csnNormalize
  exact ⟨by rw [take_append_of_le_length hlen.ge, take_of_length_le hlen.le], by
    rw [drop_append_of_le_length hlen.ge, drop_of_length_le hlen.le, List.nil_append]⟩

theorem csnFormat_csnNormalize (h : csnFormat t = true) : csnFormat (csnNormalize t) = true := by
  have hall := csnFormat_iff.mp h
  obtain ⟨a, b, c, m, htail, ha, hb, hc, hm, hmall⟩ := csn_tail h
  have hmask : csnMask = csnMask.take 30 ++ 'F' :: 'F' :: 'F' :: '#' :: List.replicate 6 'F' := by decide
  rw [csnFormat_iff, hmask]
  unfold csnNormalize
  refine rel_append (forall₂_take 30 hall) ?_
  rw [htail]
  refine .cons (toLower_hex ha).2.2.2 (.cons (toLower_hex hb).2.2.2 (.cons (toLower_hex hc).2.2.2 (.cons (by decide) ?_)))
  refine forall₂_replicate.mpr ⟨by simp [hm], ?_⟩
  intro x hx
  obtain ⟨y, hy, hyx⟩ := List.mem_map.mp hx
  exact hyx ▸ (toLower_hex (hmall y hy)).2.2.2

theorem sid_csnNormalize (h : csnFormat t = true) :
    ∃ a b c, ((csnNormalize t).drop 30).take 4 = [a, b, c, '#'] ∧ a ∈ hexDigits ∧ b ∈ hexDigits ∧ c ∈ hexDigits ∧
      sidOf (csnNormalize t) = (hexDigit a * 16 + hexDigit b) * 16 + hexDigit c ∧ sidOf (csnNormalize t) = sidOf t := by
  obtain ⟨a, b, c, m, htail, ha, hb, hc, -, -⟩ := csn_tail h
  have hdrop := (drop_csnNormalize h).2
  rw [htail] at hdrop
  have hsid : sidOf (csnNormalize t) = (hexDigit a.toLower * 16 + hexDigit b.toLower) * 16 + hexDigit c.toLower := by
    simp [sidOf, hdrop, hexValue]
  refine ⟨a.toLower, b.toLower, c.toLower, ?_, (toLower_hex ha).1, (toLower_hex hb).1, (toLower_hex hc).1, hsid, ?_⟩
  · rw [hdrop]
    rfl
  · rw [hsid, (toLower_hex ha).2.1, (toLower_hex hb).2.1, (toLower_hex hc).2.1]
    simp [sidOf, htail, hexValue]

theorem zeros_lt_toLower {m : List Char} (hm : ∀ x ∈ m, csnCharOk 'F' x = true) (n : Nat) :
    List.replicate n '0' < m.map Char.toLower ↔ List.replicate n '0' < m := by
  induction m generalizing n with
  | nil => rfl
  | cons x m ih =>
    have hx : ('0' < x.toLower ↔ '0' < x) ∧ ('0' = x.toLower ↔ '0' = x) := by
      have hall : ∀ x ∈ "0123456789abcdefABCDEF".toList,
          ('0' < x.toLower ↔ '0' < x) ∧ ('0' = x.toLower ↔ '0' = x) := forall_mem_of_all (by decide)
      exact hall x (hex_cases (hm x mem_cons_self))
    cases n with
    | zero => simp
    | succ n =>
      rw [replicate_succ, map_cons, cons_lt_cons_iff, cons_lt_cons_iff, hx.1, hx.2,
        ih fun y hy => hm y (mem_cons_of_mem _ hy)]

theorem Csn.sid_le (c : Csn) : c.sid ≤ SLAP_SYNC_SID_MAX := by
  obtain ⟨x, y, z, m, htail, hx, hy, hz, -, -⟩ := csn_tail c.format
  have hx := (toLower_hex hx).2.2.1
  have hy := (toLower_hex hy).2.2.1
  have hz := (toLower_hex hz).2.2.1
  have hsid : c.sid = (hexDigit x * 16 + hexDigit y) * 16 + hexDigit z := by simp [Csn.sid, htail, hexValue]
  rw [hsid, SLAP_SYNC_SID_MAX]
  omega

theorem verify_csnNormalize {k : Clock} (h : slapCsnVerifyFull k t = true) : slapCsnVerifyFull k (csnNormalize t) = true := by
  unfold slapCsnVerifyFull at h ⊢
  obtain ⟨hfmt, hstrict⟩ := Bool.and_eq_true_iff.mp h
  rw [Bool.and_eq_true_iff]
  refine ⟨csnFormat_csnNormalize hfmt, ?_⟩
  obtain ⟨htake, hdrop⟩ := drop_csnNormalize hfmt
  obtain ⟨a, b, c, m, htail, -, -, -, hm, hmall⟩ := csn_tail hfmt
  have htake' : ∀ n ≤ 30, (csnNormalize t).take n = t.take n := by
    intro n hn
    have := congrArg (List.take n) htake
    rwa [take_take, take_take, min_eq_left hn] at this
  have hmod : (t.drop 34).take 6 = m := by
    have : t.drop 34 = (t.drop 30).drop 4 := by rw [drop_drop]
    rw [this, htail]
    exact take_of_length_le hm.le
  have hmod' : ((csnNormalize t).drop 34).take 6 = m.map Char.toLower := by
    have : (csnNormalize t).drop 34 = ((csnNormalize t).drop 30).drop 4 := by rw [drop_drop]
    rw [this, hdrop, htail]
    exact take_of_length_le (by simp [hm])
  rw [Bool.or_eq_true, Bool.and_eq_true, decide_eq_true_eq, decide_eq_true_eq] at hstrict ⊢
  refine hstrict.imp id fun ⟨hmin, hnow⟩ => ⟨by rwa [htake' 21 (by omega)], ?_⟩
  intro hlt
  apply hnow
  unfold slapCsnCompareTs at hlt ⊢
  have hzero : "000000".toList = List.replicate 6 '0' := by decide
  rw [k.mod, hmod', htake' 29 (by omega), Ordering.then_eq_lt, memcmp_eq_lt, memcmp_eq_eq, memcmp_eq_lt, hzero,
    zeros_lt_toLower hmall] at hlt
  rw [k.mod, hmod, Ordering.then_eq_lt, memcmp_eq_lt, memcmp_eq_eq, memcmp_eq_lt, hzero]
  exact hlt

/-- What `csn_qsort_cmp` compares. -/
def qsortKey (t : List Char) : List Char ×ₗ (List Char ×ₗ List Char)ᵒᵈ :=
  toLex ((t.drop 30).take 4, OrderDual.toDual (toLex (t.take 29, (t.drop 34).take 6)))

theorem compareTs_eq_gt {a b : List Char} : slapCsnCompareTs a b = .gt ↔
    toLex (b.take 29, (b.drop 34).take 6) < toLex (a.take 29, (a.drop 34).take 6) := by
  unfold slapCsnCompareTs
  rw [Ordering.then_eq_gt, memcmp_eq_gt, memcmp_eq_eq, memcmp_eq_gt, Prod.Lex.toLex_lt_toLex, eq_comm]

theorem csnQsortCmp_ne_gt {a b : List Char} : (csnQsortCmp a b != .gt) = true ↔ qsortKey a ≤ qsortKey b := by
  have hgt : csnQsortCmp a b = .gt ↔ qsortKey b < qsortKey a := by
    have hkey : qsortKey b < qsortKey a ↔ (b.drop 30).take 4 < (a.drop 30).take 4 ∨
        (b.drop 30).take 4 = (a.drop 30).take 4 ∧
          toLex (a.take 29, (a.drop 34).take 6) < toLex (b.take 29, (b.drop 34).take 6) := Prod.Lex.lt_iff
    unfold csnQsortCmp slapCsnCompareSr
    rw [hkey, Ordering.then_eq_gt, memcmp_eq_gt, memcmp_eq_eq, compareTs_eq_gt, @eq_comm _ (List.take 4 (b.drop 30))]
  rw [bne_iff_ne, ne_eq, hgt, not_lt]

theorem pairwise_sort (l : List (List Char)) :
    (l.mergeSort fun a b => csnQsortCmp a b != .gt).Pairwise fun a b => qsortKey a ≤ qsortKey b := by
  refine (pairwise_mergeSort ?_ ?_ l).imp csnQsortCmp_ne_gt.mp
  · intro a b c hab hbc
    exact csnQsortCmp_ne_gt.mpr ((csnQsortCmp_ne_gt.mp hab).trans (csnQsortCmp_ne_gt.mp hbc))
  · intro a b
    rw [Bool.or_eq_true, csnQsortCmp_ne_gt, csnQsortCmp_ne_gt]
    exact le_total _ _

theorem dropSameSid_eq_self {l : List (List Char)} (h : l.Pairwise fun a b => slapCsnCompareSr a b ≠ .eq) :
    dropSameSid l = l := by
  induction l with
  | nil => rw [dropSameSid]
  | cons a l ih =>
    obtain ⟨ha, hl⟩ := List.pairwise_cons.mp h
    cases l with
    | nil => rw [dropSameSid]
    | cons b l => rw [dropSameSid, if_neg (ha b mem_cons_self), ih hl]

theorem sid_lt_of_le {s : List Char} (hs : csnFormat s = true) (ht : csnFormat t = true)
    (hne : sidOf s ≠ sidOf t) (hle : qsortKey (csnNormalize s) ≤ qsortKey (csnNormalize t)) :
    sidOf (csnNormalize s) < sidOf (csnNormalize t) ∧ slapCsnCompareSr (csnNormalize s) (csnNormalize t) ≠ .eq := by
  obtain ⟨a, b, c, hsr, ha, hb, hc, hsid, hsame⟩ := sid_csnNormalize hs
  obtain ⟨a', b', c', hsr', ha', hb', hc', hsid', hsame'⟩ := sid_csnNormalize ht
  have hlt16 : ∀ x ∈ hexDigits, hexDigit x < 16 := forall_mem_of_all (by decide)
  have hkey : ((csnNormalize s).drop 30).take 4 < ((csnNormalize t).drop 30).take 4 := by
    obtain hlt | ⟨heq, -⟩ := (Prod.Lex.toLex_le_toLex).mp hle
    · exact hlt
    · refine absurd ?_ hne
      dsimp only at heq
      rw [hsr, hsr'] at heq
      injection heq with h1 heq
      injection heq with h2 heq
      injection heq with h3 heq
      rw [← hsame, ← hsame', hsid, hsid', h1, h2, h3]
  refine ⟨?_, ?_⟩
  · rw [hsr, hsr'] at hkey
    simp only [cons_lt_cons_iff, (hexDigit_lt ha ha').1, (hexDigit_lt ha ha').2, (hexDigit_lt hb hb').1,
      (hexDigit_lt hb hb').2, (hexDigit_lt hc hc').1, (hexDigit_lt hc hc').2, lt_irrefl, and_false, or_false] at hkey
    have h1 := hlt16 a ha
    have h2 := hlt16 b hb
    have h3 := hlt16 c hc
    have h1' := hlt16 a' ha'
    have h2' := hlt16 b' hb'
    have h3' := hlt16 c' hc'
    rw [hsid, hsid']
    omega
  · intro heq
    exact hkey.ne (memcmp_eq_eq.mp heq)

theorem validateAndSort_spec {k : Clock} {csns : List (List Char)} (hvalid : ∀ c ∈ csns, slapCsnVerifyFull k c = true)
    (hsids : (csns.map sidOf).Nodup) :
    (slapCsnsValidateAndSort k (csns.map csnNormalize)).Perm (csns.map csnNormalize) ∧
    (slapCsnsValidateAndSort k (csns.map csnNormalize)).Pairwise fun a b => sidOf a < sidOf b := by
  have hfmt : ∀ c ∈ csns, csnFormat c = true := fun c hc => (Bool.and_eq_true_iff.mp (hvalid c hc)).1
  have hfilter : (csns.map csnNormalize).filter (slapCsnVerifyFull k) = csns.map csnNormalize := by
    refine List.filter_eq_self.mpr ?_
    intro t ht
    obtain ⟨c, hc, rfl⟩ := List.mem_map.mp ht
    exact verify_csnNormalize (hvalid c hc)
  have hperm := mergeSort_perm (csns.map csnNormalize) fun a b => csnQsortCmp a b != .gt
  -- different servers also after the sort
  have hdistinct : ((csns.map csnNormalize).mergeSort fun a b => csnQsortCmp a b != .gt).Pairwise
      fun a b => sidOf a ≠ sidOf b := by
    refine List.pairwise_map.mp ?_
    refine (hperm.map sidOf).nodup_iff.mpr ?_
    rw [List.map_map]
    have hcongr : csns.map (sidOf ∘ csnNormalize) = csns.map sidOf :=
      map_congr_left fun c hc => (sid_csnNormalize (hfmt c hc)).choose_spec.choose_spec.choose_spec.2.2.2.2.2
    rw [hcongr]
    exact hsids
  have hpair : ((csns.map csnNormalize).mergeSort fun a b => csnQsortCmp a b != .gt).Pairwise
      fun a b => sidOf a < sidOf b ∧ slapCsnCompareSr a b ≠ .eq := by
    refine ((pairwise_sort _).and hdistinct).imp_of_mem ?_
    intro a b ha hb hab
    obtain ⟨s, hs, rfl⟩ := List.mem_map.mp (hperm.mem_iff.mp ha)
    obtain ⟨t, ht, rfl⟩ := List.mem_map.mp (hperm.mem_iff.mp hb)
    obtain ⟨-, -, -, -, -, -, -, -, hsame⟩ := sid_csnNormalize (hfmt s hs)
    obtain ⟨-, -, -, -, -, -, -, -, hsame'⟩ := sid_csnNormalize (hfmt t ht)
    exact sid_lt_of_le (hfmt s hs) (hfmt t ht) (hsame ▸ hsame' ▸ hab.2) hab.1
  unfold slapCsnsValidateAndSort
  rw [hfilter, dropSameSid_eq_self (hpair.imp And.right)]
  exact ⟨hperm, hpair.imp And.left⟩

/-! ## Composing and parsing -/

theorem div_div_lt (hn : n < base ^ 3) : n / base / base < base := by
  rw [Nat.div_div_eq_div_mul]
  refine Nat.div_lt_of_lt_mul ?_
  calc n < base ^ 3 := hn
    _ = base * base * base := by rw [Nat.pow_succ, Nat.pow_two]

theorem pad3_eq (hb : 2 ≤ base) (hn : n < base ^ 3) :
    pad3 base n = [Nat.digitChar (n / base / base), Nat.digitChar (n / base % base), Nat.digitChar (n % base)] := by
  have hpos : 0 < base := by omega
  have hzero : Nat.digitChar 0 = '0' := by decide
  unfold pad3
  if h₁ : n < base then
    rw [Nat.toDigits_of_lt_base h₁, Nat.div_eq_of_lt h₁, Nat.mod_eq_of_lt h₁, Nat.zero_div, Nat.zero_mod, hzero]
    rfl
  else
    rw [Nat.toDigits_of_base_le hb (not_lt.mp h₁)]
    if h₂ : n / base < base then
      rw [Nat.toDigits_of_lt_base h₂, Nat.div_eq_of_lt h₂, Nat.mod_eq_of_lt h₂, hzero]
      rfl
    else
      have h₃ : n / base / base < base := div_div_lt hn
      rw [Nat.toDigits_of_base_le hb (not_lt.mp h₂), Nat.toDigits_of_lt_base h₃]
      rfl

theorem digitValue_digitChar {d : Nat} (hd : d < 16) : digitValue (Nat.digitChar d) = some d := by
  have hall : ∀ d ∈ List.range 16, digitValue (Nat.digitChar d) = some d := by decide
  exact hall d (List.mem_range.mpr hd)

theorem strntoi_digit {d r : Nat} (cs : List Char) (hd : d < base) (hb : base ≤ 16) (hsmall : d + r * base < 2 ^ 31) :
    strntoi base r (Nat.digitChar d :: cs) = strntoi base (d + r * base) cs := by
  rw [strntoi, digitValue_digitChar (by omega)]
  exact if_neg (by omega)

def Ends (rest : List Char) : Prop := rest = [] ∨ rest.head? = some ','

theorem strntoi_pad3 {rest : List Char} (hb : 2 ≤ base) (hb' : base ≤ 16) (hn : n < base ^ 3)
    (hrest : Ends rest) : strntoi base 0 (pad3 base n ++ rest) = (n, rest) := by
  have hpos : 0 < base := by omega
  have hstop : ∀ r, strntoi base r rest = (r, rest) := by
    intro r
    cases rest with
    | nil => rw [strntoi]
    | cons c cs =>
      have hc : c = ',' := by simpa [Ends] using hrest
      have hnone : digitValue ',' = none := by decide
      rw [hc, strntoi, hnone]
  have hq : n / base / base < base := div_div_lt hn
  have hcube : base ^ 3 ≤ 16 ^ 3 := Nat.pow_le_pow_left hb' 3
  have hmid : n / base % base + n / base / base * base = n / base := by
    rw [Nat.mul_comm]
    exact Nat.mod_add_div _ _
  have hlow : n % base + n / base * base = n := by
    rw [Nat.mul_comm]
    exact Nat.mod_add_div _ _
  have hdiv : n / base ≤ n := Nat.div_le_self _ _
  rw [pad3_eq hb hn, cons_append, cons_append, cons_append, List.nil_append]
  rw [strntoi_digit _ hq hb' (by omega), Nat.zero_mul, Nat.add_zero,
    strntoi_digit _ (Nat.mod_lt _ hpos) hb' (by omega), hmid,
    strntoi_digit _ (Nat.mod_lt _ hpos) hb' (by omega), hlow]
  exact hstop n

theorem parseNumber_pad3 {max : Nat} {rest : List Char} (hb : 2 ≤ base) (hb' : base ≤ 16) (hn : n < base ^ 3)
    (hmax : n ≤ max) (hrest : Ends rest) : parseNumber base max (pad3 base n ++ rest) = some (n, rest.tail) := by
  unfold parseNumber
  rw [strntoi_pad3 hb hb' hn hrest]
  have hlen : ¬ (rest.length = (pad3 base n ++ rest).length ∨ max < n) := by
    rw [pad3_eq hb hn]
    simp only [length_append, length_cons, length_nil]
    omega
  dsimp only
  rw [if_neg hlen]
  cases rest with
  | nil => rfl
  | cons c cs =>
    have hc : c = ',' := by simpa [Ends] using hrest
    exact if_pos hc

theorem csn_chars (h : csnFormat t = true) : ∀ x ∈ t, isSeparator x = false ∧ x ≠ '\x00' := by
  intro x hx
  obtain ⟨i, hi, hix⟩ := List.mem_iff_getElem.mp hx
  have hall := csnFormat_iff.mp h
  have hget := (List.forall₂_iff_get.mp hall).2 i (hall.length_eq ▸ hi) hi
  have hno : ∀ m ∈ csnMask, csnCharOk m ';' = false ∧ csnCharOk m ',' = false ∧ csnCharOk m '\x00' = false :=
    forall_mem_of_all (by decide)
  obtain ⟨h₁, h₂, h₃⟩ := hno _ (List.get_mem csnMask ⟨i, hall.length_eq ▸ hi⟩)
  have hok : csnCharOk (csnMask.get ⟨i, hall.length_eq ▸ hi⟩) x = true := hix ▸ hget
  refine ⟨?_, ?_⟩
  · unfold isSeparator
    rw [decide_eq_false_iff_not]
    rintro (rfl | rfl)
    · exact absurd hok (by rw [h₁]; decide)
    · exact absurd hok (by rw [h₂]; decide)
  · rintro rfl
    exact absurd hok (by rw [h₃]; decide)

/-- The CSNs as `slap_cookie_compose` writes them, before the last separator is taken back. -/
def joined (csns : List (List Char)) : List Char := csns.flatMap (· ++ [';'])

theorem joined_cons (c : List Char) (csns : List (List Char)) : joined (c :: csns) = c ++ ';' :: joined csns := by
  simp [joined]

theorem foldl_len (csns : List (List Char)) (n : Nat) :
    csns.foldl (fun len csn => len + (csn.length + 1)) n = n + (joined csns).length := by
  induction csns generalizing n with
  | nil => rfl
  | cons c csns ih =>
    rw [foldl_cons, ih, joined_cons, length_append, length_cons]
    omega

theorem foldl_writer (csns : List (List Char)) (w : Writer) (hw : w.high ≤ w.text.length) :
    (csns.foldl (fun w csn => (w.stpcpy csn).put ';') w).text = w.text ++ joined csns ∧
    (csns.foldl (fun w csn => (w.stpcpy csn).put ';') w).high + (if csns = [] then 0 else 1) ≤ (w.text ++ joined csns).length := by
  induction csns generalizing w with
  | nil => simpa [joined] using hw
  | cons c csns ih =>
    have hround : ((w.stpcpy c).put ';').text = w.text ++ (c ++ [';']) ∧
        ((w.stpcpy c).put ';').high + 1 ≤ ((w.stpcpy c).put ';').text.length := by
      simp only [Writer.stpcpy, Writer.put, append_assoc, length_append, length_cons, length_nil]
      exact ⟨trivial, by omega⟩
    obtain ⟨htext, hhigh⟩ := ih ((w.stpcpy c).put ';') (by omega)
    have happ : ((w.stpcpy c).put ';').text ++ joined csns = w.text ++ joined (c :: csns) := by
      rw [hround.1, joined_cons]
      simp
    rw [happ] at htext hhigh
    rw [foldl_cons, if_neg (cons_ne_nil _ _)]
    refine ⟨htext, ?_⟩
    cases csns with
    | nil =>
      rw [← happ]
      simpa [joined] using hround.2
    | cons d csns => simpa using hhigh

theorem joined_ne_nil {csns : List (List Char)} (h : csns ≠ []) : joined csns ≠ [] := by
  cases csns with
  | nil => exact absurd rfl h
  | cons c csns =>
    rw [joined_cons]
    simp

theorem compose_spec (csns : List (List Char)) (rid sid : Int) :
    (slapCookieCompose csns rid sid).2.text = cookiePrefix csns rid sid ++ (joined csns).dropLast ∧
    (slapCookieCompose csns rid sid).1 = (slapCookieCompose csns rid sid).2.text.length ∧
    (slapCookieCompose csns rid sid).2.high ≤ (slapCookieCompose csns rid sid).1 := by
  unfold slapCookieCompose
  dsimp only
  cases csns with
  | nil =>
    rw [if_pos rfl, if_pos rfl]
    simp [Writer.stpcpy, joined]
  | cons c csns =>
    have hne := joined_ne_nil (cons_ne_nil c csns)
    have hpos : 0 < (joined (c :: csns)).length := List.length_pos_iff.mpr hne
    have hbuf : 0 < (cookiePrefix (c :: csns) rid sid).length := by
      have hcsn : "csn=".toList.length = 4 := rfl
      unfold cookiePrefix
      dsimp only
      rw [if_neg (cons_ne_nil c csns), length_append, length_append, length_append, hcsn]
      omega
    rw [if_neg (cons_ne_nil _ _), if_neg (cons_ne_nil _ _), foldl_len]
    obtain ⟨htext, hhigh⟩ := foldl_writer (c :: csns) ((⟨[], 0⟩ : Writer).stpcpy (cookiePrefix (c :: csns) rid sid))
      (by simp [Writer.stpcpy])
    rw [if_neg (cons_ne_nil _ _)] at hhigh
    have hstart : ((⟨[], 0⟩ : Writer).stpcpy (cookiePrefix (c :: csns) rid sid)).text = cookiePrefix (c :: csns) rid sid := rfl
    rw [hstart] at htext hhigh
    unfold Writer.back
    dsimp only
    rw [htext, dropLast_append_of_ne_nil hne]
    simp only [length_append, length_dropLast] at hhigh ⊢
    exact ⟨trivial, by omega, by omega⟩

section

variable {k : Clock} {ad : Bool} {csns : List (List Char)}

theorem parseCsn_valid {c : List Char} (h : slapCsnVerifyFull k c = true) (had : ad = true ∨ csnNormalize c = c) :
    parseCsn k ad c = some (csnNormalize c) := by
  unfold parseCsn
  cases ad with
  | true => simp [h, verify_csnNormalize h]
  | false =>
    have hc : csnNormalize c = c := had.resolve_left Bool.false_ne_true
    simp [h, hc]

theorem parseCsns_joined (hvalid : ∀ c ∈ csns, slapCsnVerifyFull k c = true)
    (had : ad = true ∨ ∀ c ∈ csns, csnNormalize c = c) (hne : csns ≠ []) (fuel : Nat) (hfuel : csns.length ≤ fuel)
    (acc : List (List Char)) :
    parseCsns k ad fuel (joined csns).dropLast acc = some (acc ++ csns.map csnNormalize) := by
  induction csns generalizing fuel acc with
  | nil => exact absurd rfl hne
  | cons c csns ih =>
    have hc := hvalid c mem_cons_self
    have hsep : ∀ x ∈ c, (!isSeparator x) = true := by
      intro x hx
      rw [(csn_chars (Bool.and_eq_true_iff.mp hc).1 x hx).1]
      rfl
    have hparse := parseCsn_valid hc (had.imp id fun hall => hall c mem_cons_self)
    cases fuel with
    | zero => exact absurd hfuel (by simp)
    | succ fuel =>
      cases csns with
      | nil =>
        have htext : (joined [c]).dropLast = c := by simp [joined]
        have hall : c.takeWhile (!isSeparator ·) = c := List.takeWhile_eq_self_iff.mpr hsep
        have hnone : c.dropWhile (!isSeparator ·) = [] := List.dropWhile_eq_nil_iff.mpr hsep
        rw [htext, parseCsns, hall, hparse, hnone]
        rfl
      | cons d csns =>
        have hjd : joined (d :: csns) ≠ [] := joined_ne_nil (cons_ne_nil _ _)
        have htext : (joined (c :: d :: csns)).dropLast = c ++ ';' :: (joined (d :: csns)).dropLast := by
          rw [joined_cons, dropLast_append_of_ne_nil (cons_ne_nil _ _), dropLast_cons_of_ne_nil hjd]
        have htake : (c ++ ';' :: (joined (d :: csns)).dropLast).takeWhile (!isSeparator ·) = c := by
          rw [takeWhile_append_of_pos hsep, takeWhile_cons_of_neg (by decide), List.append_nil]
        have hdrop : (c ++ ';' :: (joined (d :: csns)).dropLast).dropWhile (!isSeparator ·) =
            ';' :: (joined (d :: csns)).dropLast := by
          rw [dropWhile_append_of_pos hsep, dropWhile_cons_of_neg (by decide)]
        have hlong : (joined (d :: csns)).dropLast ≠ [] := by
          have hd := (Bool.and_eq_true_iff.mp (hvalid d (mem_cons_of_mem _ mem_cons_self))).1
          have hlen : d.length = 40 := (Csn.mk d hd).length_text
          intro hnil
          have := congrArg List.length hnil
          rw [joined_cons, length_dropLast, length_append] at this
          simp only [length_cons, length_nil] at this
          omega
        have hrest := ih (fun x hx => hvalid x (mem_cons_of_mem _ hx))
          (had.imp id fun hall x hx => hall x (mem_cons_of_mem _ hx)) (cons_ne_nil _ _) fuel
          (Nat.le_of_succ_le_succ hfuel) (acc ++ [csnNormalize c])
        rw [htext, parseCsns, htake, hparse, hdrop, tail_cons]
        dsimp only
        split
        · rename_i hnil
          exact absurd hnil hlong
        · rw [hrest]
          simp

theorem length_le_joined (csns : List (List Char)) : csns.length ≤ (joined csns).length := by
  induction csns with
  | nil => exact le_refl _
  | cons c csns ih =>
    rw [joined_cons, length_append, length_cons, length_cons]
    omega

def csnPart (csns : List (List Char)) : List Char :=
  if csns = [] then [] else ',' :: ("csn=".toList ++ (joined csns).dropLast)

/-- The part of the text behind the `rid`. -/
def sidPart (csns : List (List Char)) (sid : Int) : List Char :=
  (if 0 ≤ sid then ',' :: ("sid=".toList ++ pad3 16 sid.toNat) else []) ++ csnPart csns

theorem ends_csnPart (csns : List (List Char)) : Ends (csnPart csns) := by
  unfold csnPart Ends
  split_ifs
  · exact .inl rfl
  · exact .inr rfl

theorem ends_sidPart (csns : List (List Char)) (sid : Int) : Ends (sidPart csns sid) := by
  unfold sidPart
  if h : 0 ≤ sid then
    rw [if_pos h]
    exact .inr rfl
  else
    rw [if_neg h, List.nil_append]
    exact ends_csnPart csns

theorem parseLoop_nil (fuel : Nat) (dst : Parsed) : parseLoop k ad fuel [] dst = some dst := by
  cases fuel <;> rfl

theorem parseLoop_csnPart (hvalid : ∀ c ∈ csns, slapCsnVerifyFull k c = true)
    (had : ad = true ∨ ∀ c ∈ csns, csnNormalize c = c) (fuel : Nat) (dst : Parsed) :
    parseLoop k ad (fuel + 1) (csnPart csns).tail dst = some { dst with csns := dst.csns ++ csns.map csnNormalize } := by
  unfold csnPart
  if hne : csns = [] then
    rw [if_pos hne, tail_nil, parseLoop_nil, hne]
    simp
  else
    have hfuel : csns.length ≤ ("csn=".toList ++ (joined csns).dropLast).length + 1 := by
      have := length_le_joined csns
      rw [length_append, length_dropLast]
      omega
    have hparse := parseCsns_joined hvalid had hne _ hfuel dst.csns
    rw [if_neg hne, tail_cons]
    exact (congrArg (Option.map _) hparse).trans rfl

theorem parseLoop_sidPart (hvalid : ∀ c ∈ csns, slapCsnVerifyFull k c = true)
    (had : ad = true ∨ ∀ c ∈ csns, csnNormalize c = c) {sid : Int} (hmax : sid ≤ SLAP_SYNC_SID_MAX) (fuel : Nat)
    (dst : Parsed) :
    parseLoop k ad (fuel + 2) (sidPart csns sid).tail dst =
      some { dst with sid := if 0 ≤ sid then sid else dst.sid, csns := dst.csns ++ csns.map csnNormalize } := by
  unfold sidPart
  if h : 0 ≤ sid then
    have hnat : sid.toNat ≤ SLAP_SYNC_SID_MAX := by omega
    have hnum : parseNumber 16 SLAP_SYNC_SID_MAX (pad3 16 sid.toNat ++ csnPart csns) =
        some (sid.toNat, (csnPart csns).tail) :=
      parseNumber_pad3 (by decide) (by decide) (Nat.lt_succ_of_le hnat) hnat (ends_csnPart csns)
    have hstep : parseLoop k ad (fuel + 2) ("sid=".toList ++ (pad3 16 sid.toNat ++ csnPart csns)) dst =
        parseLoop k ad (fuel + 1) (csnPart csns).tail { dst with sid := (sid.toNat : Int) } := by
      show (match parseNumber 16 SLAP_SYNC_SID_MAX (pad3 16 sid.toNat ++ csnPart csns) with
        | none => none
        | some (v, next) => parseLoop k ad (fuel + 1) next { dst with sid := (v : Int) }) = _
      rw [hnum]
    rw [if_pos h, if_pos h, cons_append, tail_cons, append_assoc, hstep,
      parseLoop_csnPart hvalid had, Int.toNat_of_nonneg h]
  else
    rw [if_neg h, if_neg h, List.nil_append, parseLoop_csnPart hvalid had]

theorem parseLoop_compose (hvalid : ∀ c ∈ csns, slapCsnVerifyFull k c = true)
    (had : ad = true ∨ ∀ c ∈ csns, csnNormalize c = c) {rid sid : Int} (hrid : 0 ≤ rid) (hrid' : rid ≤ SLAP_SYNC_RID_MAX)
    (hmax : sid ≤ SLAP_SYNC_SID_MAX) (fuel : Nat) (dst : Parsed) :
    parseLoop k ad (fuel + 3) ("rid=".toList ++ (pad3 10 rid.toNat ++ sidPart csns sid)) dst =
      some ⟨rid, if 0 ≤ sid then sid else dst.sid, dst.csns ++ csns.map csnNormalize⟩ := by
  have hnat : rid.toNat ≤ SLAP_SYNC_RID_MAX := by omega
  have hnum : parseNumber 10 SLAP_SYNC_RID_MAX (pad3 10 rid.toNat ++ sidPart csns sid) =
      some (rid.toNat, (sidPart csns sid).tail) :=
    parseNumber_pad3 (by decide) (by decide) (Nat.lt_succ_of_le hnat) hnat (ends_sidPart csns sid)
  have hstep : parseLoop k ad (fuel + 3) ("rid=".toList ++ (pad3 10 rid.toNat ++ sidPart csns sid)) dst =
      parseLoop k ad (fuel + 2) (sidPart csns sid).tail { dst with rid := (rid.toNat : Int) } := by
    show (match parseNumber 10 SLAP_SYNC_RID_MAX (pad3 10 rid.toNat ++ sidPart csns sid) with
      | none => none
      | some (v, next) => parseLoop k ad (fuel + 2) next { dst with rid := (v : Int) }) = _
    rw [hnum]
  rw [hstep, parseLoop_sidPart hvalid had hmax, Int.toNat_of_nonneg hrid]

theorem compose_text {rid : Int} (hrid : 0 ≤ rid) (sid : Int) :
    (slapCookieCompose csns rid sid).2.text = "rid=".toList ++ (pad3 10 rid.toNat ++ sidPart csns sid) := by
  rw [(compose_spec csns rid sid).1]
  unfold cookiePrefix sidPart csnPart
  if hs : 0 ≤ sid then
    if hc : csns = [] then
      simp [hrid, hs, hc, joined]
    else
      simp [hrid, hs, hc]
  else
    if hc : csns = [] then
      simp [hrid, hs, hc, joined]
    else
      simp [hrid, hs, hc]

theorem pad3_no_nul {base n : Nat} (hb : 2 ≤ base) (hb' : base ≤ 16) (hn : n < base ^ 3) : '\x00' ∉ pad3 base n := by
  have hpos : 0 < base := by omega
  have hdigit : ∀ d < base, '\x00' ≠ Nat.digitChar d := by
    intro d hd heq
    have hnone : digitValue '\x00' = none := by decide
    rw [heq, digitValue_digitChar (by omega)] at hnone
    cases hnone
  rw [pad3_eq hb hn]
  simp only [mem_cons, not_mem_nil, or_false, not_or]
  exact ⟨hdigit _ (div_div_lt hn), hdigit _ (Nat.mod_lt _ hpos), hdigit _ (Nat.mod_lt _ hpos)⟩

theorem joined_no_nul (hvalid : ∀ c ∈ csns, slapCsnVerifyFull k c = true) : '\x00' ∉ joined csns := by
  intro hmem
  obtain ⟨c, hc, hmem⟩ := List.mem_flatMap.mp hmem
  cases List.mem_append.mp hmem with
  | inl hmem => exact (csn_chars (Bool.and_eq_true_iff.mp (hvalid c hc)).1 _ hmem).2 rfl
  | inr hmem => exact absurd hmem (by decide)

theorem compose_no_nul (hvalid : ∀ c ∈ csns, slapCsnVerifyFull k c = true) {rid sid : Int}
    (hrid : rid ≤ SLAP_SYNC_RID_MAX) (hsid : sid ≤ SLAP_SYNC_SID_MAX) :
    '\x00' ∉ "rid=".toList ++ (pad3 10 rid.toNat ++ sidPart csns sid) := by
  have hr : '\x00' ∉ pad3 10 rid.toNat :=
    pad3_no_nul (by decide) (by decide) (by simp only [SLAP_SYNC_RID_MAX] at hrid; omega)
  have hs : '\x00' ∉ pad3 16 sid.toNat :=
    pad3_no_nul (by decide) (by decide) (by simp only [SLAP_SYNC_SID_MAX] at hsid; omega)
  have hj : '\x00' ∉ (joined csns).dropLast := fun h => joined_no_nul hvalid ((dropLast_sublist _).mem h)
  have hc : '\x00' ∉ csnPart csns := by
    unfold csnPart
    split_ifs
    · exact not_mem_nil
    · simpa using hj
  have hsp : '\x00' ∉ sidPart csns sid := by
    unfold sidPart
    split_ifs
    · simpa using ⟨hs, hc⟩
    · simpa using hc
  simpa using ⟨hr, hsp⟩

theorem parse_compose (hvalid : ∀ c ∈ csns, slapCsnVerifyFull k c = true)
    (had : ad = true ∨ ∀ c ∈ csns, csnNormalize c = c) (hsids : (csns.map sidOf).Nodup) {rid sid : Int}
    (hrid : 0 ≤ rid ∧ rid ≤ SLAP_SYNC_RID_MAX) (hsid : -1 ≤ sid ∧ sid ≤ SLAP_SYNC_SID_MAX) :
    slapCookieParse k ad (slapCookieCompose csns rid sid).2.text =
      some ⟨rid, sid, (slapCsnsValidateAndSort k (csns.map csnNormalize)).map fun csn => (sidOf csn, csn)⟩ := by
  obtain ⟨hperm, -⟩ := validateAndSort_spec hvalid hsids
  have hnul := compose_no_nul hvalid hrid.2 hsid.2
  have hlen : 4 + 3 ≤ ("rid=".toList ++ (pad3 10 rid.toNat ++ sidPart csns sid)).length := by
    rw [pad3_eq (by decide) (by have := hrid.2; simp only [SLAP_SYNC_RID_MAX] at this; omega)]
    simp
  obtain ⟨fuel, hfuel⟩ := Nat.exists_eq_add_of_le' (le_trans (Nat.le_add_left 3 4) hlen)
  have hloop := parseLoop_compose hvalid had hrid.1 hrid.2 hsid.2 fuel ⟨-1, -1, []⟩
  have hside : (if 0 ≤ sid then sid else -1) = sid := by
    split_ifs <;> omega
  rw [hside, List.nil_append] at hloop
  unfold slapCookieParse
  rw [compose_text hrid.1, if_neg (ne_nil_of_length_pos (by omega)), if_neg (not_or.mpr ⟨by omega, hnul⟩), hfuel,
    hloop]
  dsimp only
  rw [if_neg (not_lt.mpr hrid.1), if_pos hperm.length_eq]

end

/-- A composed cookie reads back as the same numbers and the same CSNs in normal form, sorted by their servers. -/
theorem cookie_text_round_trip {k : Clock} {ad : Bool} {csns : List (List Char)} {rid sid : Int}
    (hrid : 0 ≤ rid ∧ rid ≤ SLAP_SYNC_RID_MAX) (hsid : -1 ≤ sid ∧ sid ≤ SLAP_SYNC_SID_MAX)
    (hvalid : ∀ c ∈ csns, slapCsnVerifyFull k c = true) (hsids : (csns.map sidOf).Nodup)
    (had : ad = true ∨ ∀ c ∈ csns, csnNormalize c = c) :
    (slapCookieCompose csns rid sid).1 = (slapCookieCompose csns rid sid).2.text.length ∧
    (slapCookieCompose csns rid sid).2.high ≤ (slapCookieCompose csns rid sid).1 ∧
    ∃ l, slapCookieParse k ad (slapCookieCompose csns rid sid).2.text = some ⟨rid, sid, l⟩ ∧
      (l.map Prod.snd).Perm (csns.map csnNormalize) ∧ (l.map Prod.fst).Perm (csns.map sidOf) ∧
      (l.map Prod.fst).Pairwise (· < ·) ∧ ∀ p ∈ l, p.1 = sidOf p.2 := by
  obtain ⟨hperm, hpair⟩ := validateAndSort_spec hvalid hsids
  obtain ⟨-, hlen, hhigh⟩ := compose_spec csns rid sid
  have hsid' : (csns.map csnNormalize).map sidOf = csns.map sidOf := by
    rw [List.map_map]
    refine map_congr_left ?_
    intro c hc
    obtain ⟨-, -, -, -, -, -, -, -, hsame⟩ := sid_csnNormalize (Bool.and_eq_true_iff.mp (hvalid c hc)).1
    exact hsame
  refine ⟨hlen, hhigh, _, parse_compose hvalid had hsids hrid hsid, ?_, ?_, ?_, ?_⟩
  · rw [List.map_map]
    exact (List.map_id _).symm ▸ hperm
  · rw [List.map_map]
    exact hsid' ▸ hperm.map sidOf
  · rw [List.map_map]
    exact List.pairwise_map.mpr hpair
  · intro p hp
    obtain ⟨c, -, rfl⟩ := List.mem_map.mp hp
    rfl

def laxClock : Clock := ⟨false, "20200101000000.000000Z#000000#000#000000".toList, by rw [String.toList_ofList]; decide⟩

def lowerCsn : List Char := "20200101000000.000000Z#000000#00b#000000".toList

def upperCsn : List Char := "20200101000000.000000Z#000000#00A#000000".toList

theorem cookie_text_round_trip_twoServers :
    ∃ l, slapCookieParse laxClock true (slapCookieCompose [lowerCsn, upperCsn] 1 (-1)).2.text = some ⟨1, -1, l⟩ ∧
      (l.map Prod.fst).Pairwise (· < ·) ∧ (l.map Prod.fst).Perm [11, 10] := by
  obtain ⟨-, -, l, hparse, -, hsids, hpair, -⟩ := @cookie_text_round_trip laxClock true [lowerCsn, upperCsn] 1 (-1)
    (by decide) (by decide) (by decide) (by decide) (.inl rfl)
  exact ⟨l, hparse, hpair, hsids⟩

/-- A server ID in upper case does not come back as it was. -/
theorem cookie_text_case_lost :
    slapCsnVerifyFull laxClock upperCsn = true ∧
    ¬ ∃ l, slapCookieParse laxClock true (slapCookieCompose [upperCsn] 1 (-1)).2.text = some ⟨1, -1, l⟩ ∧
      (l.map Prod.snd).Perm [upperCsn] := by
  have hvalid : ∀ c ∈ [upperCsn], slapCsnVerifyFull laxClock c = true := by decide
  refine ⟨by decide, ?_⟩
  intro ⟨l, hparse, hperm⟩
  rw [parse_compose hvalid (.inl rfl) (by decide) (by decide) (by decide)] at hparse
  have hl := CookieText.mk.inj (Option.some.inj hparse)
  rw [← hl.2.2, List.map_map] at hperm
  have hnorm := (validateAndSort_spec hvalid (by decide)).1
  have hsame : ([upperCsn].map csnNormalize).Perm [upperCsn] := hnorm.symm.trans (List.map_id (slapCsnsValidateAndSort _ _) ▸ hperm)
  exact absurd (List.perm_singleton.mp hsame) (by decide)

end Sync
end ReOpenLDAP
