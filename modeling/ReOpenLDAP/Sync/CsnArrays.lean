import ReOpenLDAP.Sync.CookieState

/-!
# Sync.CsnArrays

Arrays of CSNs as texts. The server of a CSN is read from its text in two ways: the functions here compare its characters, others
the number.
-/

namespace ReOpenLDAP
namespace Sync
namespace CsnArrays

open List

/-- The characters that `slap_csn_compare_sr` compares. -/
def srOf (t : List Char) : List Char := (t.drop 30).take 4

/-- What `slap_csn_compare_ts` compares. -/
def tsOf (t : List Char) : List Char ×ₗ List Char := toLex (t.take 29, (t.drop 34).take 6)

section

variable {a b c d : List Char}

theorem compareSr_lt : slapCsnCompareSr a b = .lt ↔ srOf a < srOf b := memcmp_eq_lt

theorem compareSr_eq : slapCsnCompareSr a b = .eq ↔ srOf a = srOf b := memcmp_eq_eq

theorem compareTs_gt : slapCsnCompareTs a b = .gt ↔ tsOf b < tsOf a := compareTs_eq_gt

theorem compareTs_lt : slapCsnCompareTs a b = .lt ↔ tsOf a < tsOf b := by
  rw [slapCsnCompareTs, tsOf, tsOf, Ordering.then_eq_lt, memcmp_eq_lt, memcmp_eq_eq, memcmp_eq_lt, Prod.Lex.toLex_lt_toLex]

theorem sidOf_eq (h : srOf a = srOf b) : sidOf a = sidOf b := by
  have hsid : ∀ t, sidOf t = hexValue ((srOf t).take 3) := by
    intro t
    rw [srOf, take_take]
    rfl
  rw [hsid, hsid, h]

theorem qsortKey_le : qsortKey a ≤ qsortKey b ↔ srOf a < srOf b ∨ srOf a = srOf b ∧ tsOf b ≤ tsOf a := Prod.Lex.toLex_le_toLex

def csnArray (vals : List (List Char)) : List (List Char) := vals.takeWhile (· ≠ [])

/-- `slap_csns_validate_and_sort`, and `end - vals`. CSNs that compare as equal are equal, so that any sort gives the same. -/
def validateAndSort (k : Clock) (vals : List (List Char)) : List (List Char) × ℕ :=
  let kept := slapCsnsValidateAndSort k (csnArray vals)
  (kept, kept.length)

/-- The elements that `slap_csn_verify_full` accepts. -/
def accepted (k : Clock) (vals : List (List Char)) : List (List Char) := (csnArray vals).filter (slapCsnVerifyFull k)

theorem dropSameSid_spec {l : List (List Char)} (h : l.Pairwise fun a b => qsortKey a ≤ qsortKey b) :
    (dropSameSid l).Pairwise (fun a b => srOf a < srOf b) ∧ (∀ c ∈ dropSameSid l, c ∈ l) ∧
      ∀ c ∈ l, ∃ d ∈ dropSameSid l, srOf d = srOf c ∧ tsOf c ≤ tsOf d := by
  induction l using dropSameSid.induct with
  | case1 => simp [dropSameSid]
  | case2 a => simp [dropSameSid]
  | case3 a b l heq ih =>
    obtain ⟨ha, hbl⟩ := List.pairwise_cons.mp h
    have hal : (a :: l).Pairwise fun a b => qsortKey a ≤ qsortKey b :=
      List.pairwise_cons.mpr ⟨fun c hc => ha c (mem_cons_of_mem _ hc), hbl.tail⟩
    obtain ⟨hp, hm, hall⟩ := ih hal
    rw [dropSameSid, if_pos heq]
    refine ⟨hp, fun c hc => ?_, fun c hc => ?_⟩
    · rcases List.mem_cons.mp (hm c hc) with rfl | hl
      · exact mem_cons_self ..
      · exact mem_cons_of_mem _ (mem_cons_of_mem _ hl)
    · rcases List.mem_cons.mp hc with rfl | hc
      · exact hall c (mem_cons_self ..)
      rcases List.mem_cons.mp hc with rfl | hc
      · -- `c` goes, and `a` stands for it
        obtain ⟨d, hd, hsr, hts⟩ := hall a (mem_cons_self ..)
        have hsame := compareSr_eq.mp heq
        rcases qsortKey_le.mp (ha c (mem_cons_self ..)) with hlt | ⟨-, hle⟩
        · exact absurd hsame hlt.ne
        · exact ⟨d, hd, hsr.trans hsame, hle.trans hts⟩
      · exact hall c (mem_cons_of_mem _ hc)
  | case4 a b l hne ih =>
    obtain ⟨ha, hbl⟩ := List.pairwise_cons.mp h
    obtain ⟨hp, hm, hall⟩ := ih hbl
    have hle : ∀ c ∈ b :: l, srOf a ≤ srOf c := fun c hc => (qsortKey_le.mp (ha c hc)).elim le_of_lt fun h => h.1.le
    have hab : srOf a < srOf b := lt_of_le_of_ne (hle b (mem_cons_self ..)) fun h => hne (compareSr_eq.mpr h)
    rw [dropSameSid, if_neg hne]
    refine ⟨List.pairwise_cons.mpr ⟨fun c hc => ?_, hp⟩, fun c hc => ?_, fun c hc => ?_⟩
    · rcases List.mem_cons.mp (hm c hc) with rfl | hl
      · exact hab
      · have hbc := (List.pairwise_cons.mp hbl).1 c hl
        exact hab.trans_le ((qsortKey_le.mp hbc).elim le_of_lt fun h => h.1.le)
    · rcases List.mem_cons.mp hc with rfl | hc
      · exact mem_cons_self ..
      · exact mem_cons_of_mem _ (hm c hc)
    · rcases List.mem_cons.mp hc with rfl | hc
      · exact ⟨c, mem_cons_self .., rfl, le_refl _⟩
      · obtain ⟨d, hd, hdc⟩ := hall c hc
        exact ⟨d, mem_cons_of_mem _ hd, hdc⟩

theorem validateAndSort_kept (k : Clock) (vals : List (List Char)) :
    (validateAndSort k vals).1.Pairwise (fun a b => srOf a < srOf b) ∧ (∀ c ∈ (validateAndSort k vals).1, c ∈ accepted k vals) ∧
      ∀ c ∈ accepted k vals, ∃ d ∈ (validateAndSort k vals).1, srOf d = srOf c ∧ tsOf c ≤ tsOf d := by
  have hperm := mergeSort_perm (accepted k vals) fun a b => csnQsortCmp a b != .gt
  obtain ⟨hp, hm, hall⟩ := dropSameSid_spec (pairwise_sort (accepted k vals))
  exact ⟨hp, fun c hc => hperm.mem_iff.mp (hm c hc), fun c hc => hall c (hperm.mem_iff.mpr hc)⟩

theorem eq_of_srOf_eq {l : List (List Char)} (h : l.Pairwise fun a b => srOf a < srOf b) (ha : a ∈ l) (hb : b ∈ l) (heq : srOf a = srOf b) :
    a = b := by
  induction l with
  | nil => cases ha
  | cons c l ih =>
    obtain ⟨hc, hl⟩ := List.pairwise_cons.mp h
    rcases List.mem_cons.mp ha with rfl | hal
    · rcases List.mem_cons.mp hb with rfl | hbl
      · rfl
      · exact absurd heq (hc b hbl).ne
    · rcases List.mem_cons.mp hb with rfl | hbl
      · exact absurd heq (hc a hal).ne'
      · exact ih hl hal hbl

structure NewestPerSid (k : Clock) (vals : List (List Char)) (res : List (List Char) × ℕ) : Prop where
  mem : ∀ c ∈ res.1, c ∈ accepted k vals
  sorted : res.1.Pairwise fun a b => sidOf a < sidOf b
  complete : ∀ c ∈ accepted k vals, ∃ d ∈ res.1, sidOf d = sidOf c
  newest : ∀ d ∈ res.1, ∀ c ∈ accepted k vals, sidOf c = sidOf d → slapCsnCompareTs c d ≠ .gt
  count : res.2 = res.1.length

def SidsAsWritten (k : Clock) (vals : List (List Char)) : Prop :=
  ∀ a ∈ accepted k vals, ∀ b ∈ accepted k vals, slapCsnCompareSr a b = .lt → sidOf a < sidOf b

theorem NewestPerSid.sid_lt {k : Clock} {vals : List (List Char)} (h : NewestPerSid k vals (validateAndSort k vals))
    (ha : a ∈ accepted k vals) (hb : b ∈ accepted k vals) (hlt : srOf a < srOf b) : sidOf a < sidOf b := by
  obtain ⟨hp, -, hall⟩ := validateAndSort_kept k vals
  obtain ⟨a', ha', hsa, -⟩ := hall a ha
  obtain ⟨b', hb', hsb, -⟩ := hall b hb
  rw [← sidOf_eq hsa, ← sidOf_eq hsb]
  rw [← hsa, ← hsb] at hlt
  -- `a'` is in front of `b'`
  have hpos := List.pairwise_iff_getElem.mp (hp.and h.sorted)
  obtain ⟨i, hi, rfl⟩ := List.mem_iff_getElem.mp ha'
  obtain ⟨j, hj, rfl⟩ := List.mem_iff_getElem.mp hb'
  rcases lt_trichotomy i j with hij | rfl | hji
  · exact (hpos i j hi hj hij).2
  · exact absurd hlt (lt_irrefl _)
  · exact absurd hlt (hpos j i hj hi hji).1.asymm

theorem validate_and_sort_iff (k : Clock) (vals : List (List Char)) : NewestPerSid k vals (validateAndSort k vals) ↔ SidsAsWritten k vals := by
  obtain ⟨hp, hm, hall⟩ := validateAndSort_kept k vals
  constructor
  · intro h a ha b hb hlt
    exact h.sid_lt ha hb (compareSr_lt.mp hlt)
  · intro h
    refine ⟨hm, hp.imp_of_mem fun ha hb hlt => h _ (hm _ ha) _ (hm _ hb) (compareSr_lt.mpr hlt), fun c hc => ?_, fun d hd c hc hsid => ?_, rfl⟩
    · obtain ⟨d, hd, hsr, -⟩ := hall c hc
      exact ⟨d, hd, sidOf_eq hsr⟩
    · obtain ⟨d', hd', hsr, hts⟩ := hall c hc
      have hcd : srOf c = srOf d := by
        rcases lt_trichotomy (srOf c) (srOf d) with hlt | heq | hgt
        · exact absurd hsid (h c hc d (hm d hd) (compareSr_lt.mpr hlt)).ne
        · exact heq
        · exact absurd hsid (h d (hm d hd) c hc (compareSr_lt.mpr hgt)).ne'
      rw [eq_of_srOf_eq hp hd' hd (hsr.trans hcd)] at hts
      rw [ne_eq, compareTs_gt]
      exact hts.not_gt

def lowerA : List Char := "20200101000000.000000Z#000000#00a#000000".toList

def firstB : List Char := "20200101000000.000000Z#000000#00b#000000".toList

def upperA : List Char := "20200101000000.000000Z#000000#00A#000000".toList

theorem validate_and_sort_cases : ¬ NewestPerSid laxClock [lowerA, upperA] (validateAndSort laxClock [lowerA, upperA]) := by
  intro h
  have hlower : lowerA ∈ accepted laxClock [lowerA, upperA] := List.mem_filter.mpr (by decide)
  have hupper : upperA ∈ accepted laxClock [lowerA, upperA] := List.mem_filter.mpr (by decide)
  exact absurd (h.sid_lt hupper hlower (by decide)) (by decide)

/-! ## Comparing -/

def INT_MAX : ℤ := 2 ^ 31 - 1

def INT_MIN : ℤ := -2 ^ 31

/-- The loop of `slap_csns_compare`. -/
def csnsCompareFrom : ℤ → ℤ → List (List Char) → List (List Char) → ℤ
  | _, res, [], [] => res
  | _, _, [], _ :: _ => INT_MIN
  | _, _, _ :: _, [] => INT_MAX
  | n, res, x :: next, y :: base =>
    match slapCsnCompareSr x y with
    -- a base's sid is absent in the next
    | .gt => INT_MIN
    -- a new sid in the next
    | .lt => csnsCompareFrom (n + 1) INT_MAX next (y :: base)
    | .eq =>
      match slapCsnCompareTs x y with
      | .lt => -n
      | .gt => csnsCompareFrom (n + 1) (if res = 0 then n else res) next base
      | .eq => csnsCompareFrom (n + 1) res next base

def slapCsnsCompare (next base : List (List Char)) : ℤ := csnsCompareFrom 1 0 next base

/-- `slap_cookie_pull` on the CSNs of the cookie, and `vector`. -/
def slapCookiePull (k : Clock) (dst src : List (List Char)) : List (List Char) × ℤ :=
  let src := (validateAndSort k src).1
  let vector := slapCsnsCompare src dst
  (if 0 < vector then src else dst, vector)

def SidSorted (l : List (List Char)) : Prop := l.Pairwise fun a b => sidOf a < sidOf b

/-- Every server of `base` is in `next`, at no older timestamp. -/
def Covers (next base : List (List Char)) : Prop := ∀ p ∈ base, ∃ q ∈ next, sidOf q = sidOf p ∧ tsOf p ≤ tsOf q

def Same (next base : List (List Char)) : Prop :=
  (∀ p ∈ base, ∃ q ∈ next, sidOf q = sidOf p ∧ tsOf p = tsOf q) ∧ ∀ q ∈ next, ∃ p ∈ base, sidOf p = sidOf q

theorem Same.covers {next base : List (List Char)} (h : Same next base) : Covers next base := by
  intro p hp
  obtain ⟨q, hq, hsid, hts⟩ := h.1 p hp
  exact ⟨q, hq, hsid, hts.le⟩

structure Decides (next base : List (List Char)) : Prop where
  zero : slapCsnsCompare next base = 0 ↔ Same next base
  pos : 0 < slapCsnsCompare next base ↔ Covers next base ∧ ¬ Same next base
  neg : slapCsnsCompare next base < 0 ↔ ¬ Covers next base

/-- The server ID of each element of `next` compares with the first one in `base` that is not smaller, as the numbers do. -/
def ReadsAlike (next base : List (List Char)) : Prop :=
  ∀ q ∈ next, ∀ p, base.find? (fun p => decide (sidOf q ≤ sidOf p)) = some p → slapCsnCompareSr q p = compare (sidOf q) (sidOf p)

variable {n res : ℤ} {next base : List (List Char)} {x y : List Char}

theorem csnsCompareFrom_covers (hn : 0 < n) (h : 0 ≤ csnsCompareFrom n res next base) : Covers next base := by
  fun_induction csnsCompareFrom n res next base with
  | case1 => exact fun p hp => absurd hp not_mem_nil
  | case2 => exact absurd h (by decide)
  | case3 => exact fun p hp => absurd hp not_mem_nil
  | case4 => exact absurd h (by decide)
  | case5 n res x next y base hsr ih =>
    intro p hp
    obtain ⟨q, hq, hqp⟩ := ih (by omega) h p hp
    exact ⟨q, mem_cons_of_mem _ hq, hqp⟩
  | case6 => omega
  | case7 n res x next y base hsr hts ih =>
    intro p hp
    rcases List.mem_cons.mp hp with rfl | hp
    · exact ⟨x, mem_cons_self .., sidOf_eq (compareSr_eq.mp hsr), (compareTs_gt.mp hts).le⟩
    · obtain ⟨q, hq, hqp⟩ := ih (by omega) h p hp
      exact ⟨q, mem_cons_of_mem _ hq, hqp⟩
  | case8 n res x next y base hsr hts ih =>
    intro p hp
    rcases List.mem_cons.mp hp with rfl | hp
    · have hle : tsOf p ≤ tsOf x := by
        rw [← not_lt, ← compareTs_lt, hts]
        simp
      exact ⟨x, mem_cons_self .., sidOf_eq (compareSr_eq.mp hsr), hle⟩
    · obtain ⟨q, hq, hqp⟩ := ih (by omega) h p hp
      exact ⟨q, mem_cons_of_mem _ hq, hqp⟩

theorem compareTs_eq (h : slapCsnCompareTs x y = .eq) : tsOf x = tsOf y := by
  refine le_antisymm (not_lt.mp fun hlt => ?_) (not_lt.mp fun hlt => ?_)
  · rw [compareTs_gt.mpr hlt] at h
    cases h
  · rw [compareTs_lt.mpr hlt] at h
    cases h

theorem Covers.tail (h : Covers (x :: next) base) (hne : ∀ p ∈ base, sidOf x ≠ sidOf p) : Covers next base := by
  intro p hp
  obtain ⟨q, hq, hsid, hts⟩ := h p hp
  rcases List.mem_cons.mp hq with rfl | hq
  · exact absurd hsid (hne p hp)
  · exact ⟨q, hq, hsid, hts⟩

theorem same_cons (hsid : sidOf x = sidOf y) (hts : tsOf x = tsOf y) (hnext : SidSorted (x :: next)) (hbase : SidSorted (y :: base)) :
    Same (x :: next) (y :: base) ↔ Same next base := by
  have hx := (List.pairwise_cons.mp hnext).1
  have hy := (List.pairwise_cons.mp hbase).1
  constructor
  · rintro ⟨h1, h2⟩
    refine ⟨fun p hp => ?_, fun q hq => ?_⟩
    · obtain ⟨q, hq, hqp, heq⟩ := h1 p (mem_cons_of_mem _ hp)
      rcases List.mem_cons.mp hq with rfl | hq
      · exact absurd (hsid.symm.trans hqp) (hy p hp).ne
      · exact ⟨q, hq, hqp, heq⟩
    · obtain ⟨p, hp, hpq⟩ := h2 q (mem_cons_of_mem _ hq)
      rcases List.mem_cons.mp hp with rfl | hp
      · exact absurd (hsid.trans hpq) (hx q hq).ne
      · exact ⟨p, hp, hpq⟩
  · rintro ⟨h1, h2⟩
    refine ⟨List.forall_mem_cons.mpr ⟨⟨x, mem_cons_self .., hsid, hts.symm⟩, fun p hp => ?_⟩,
      List.forall_mem_cons.mpr ⟨⟨y, mem_cons_self .., hsid.symm⟩, fun q hq => ?_⟩⟩
    · obtain ⟨q, hq, hqp⟩ := h1 p hp
      exact ⟨q, mem_cons_of_mem _ hq, hqp⟩
    · obtain ⟨p, hp, hpq⟩ := h2 q hq
      exact ⟨p, mem_cons_of_mem _ hp, hpq⟩

theorem csnsCompareFrom_same (hnext : SidSorted next) (hbase : SidSorted base) (hn : 0 < n) (hres : 0 ≤ res) (h : 0 ≤ csnsCompareFrom n res next base) :
    csnsCompareFrom n res next base = 0 ↔ res = 0 ∧ Same next base := by
  fun_induction csnsCompareFrom n res next base with
  | case1 => simp [Same]
  | case2 => exact absurd h (by decide)
  | case3 n res x next =>
    constructor
    · intro hmax
      exact absurd hmax (by decide)
    · rintro ⟨-, hsame⟩
      obtain ⟨p, hp, -⟩ := hsame.2 x (mem_cons_self ..)
      cases hp
  | case4 => exact absurd h (by decide)
  | case5 n res x next y base hsr ih =>
    obtain ⟨hx, hnext⟩ := List.pairwise_cons.mp hnext
    have hcov := csnsCompareFrom_covers (by omega) h
    rw [ih hnext hbase (by omega) (by decide) h]
    constructor
    · rintro ⟨hmax, -⟩
      exact absurd hmax (by decide)
    · rintro ⟨-, hsame⟩
      -- `x` is in `base`, and what is in `base` is in the rest
      obtain ⟨p, hp, hpx⟩ := hsame.2 x (mem_cons_self ..)
      obtain ⟨q, hq, hqp, -⟩ := hcov p hp
      exact absurd (hpx.symm.trans hqp.symm) (hx q hq).ne
  | case6 => omega
  | case7 n res x next y base hsr hts ih =>
    obtain ⟨hx, hnext⟩ := List.pairwise_cons.mp hnext
    have hpos : (if res = 0 then n else res) ≠ 0 := by
      split <;> omega
    rw [ih hnext hbase.tail (by omega) (by split <;> omega) h]
    constructor
    · rintro ⟨hzero, -⟩
      exact absurd hzero hpos
    · rintro ⟨-, hsame⟩
      obtain ⟨q, hq, hsid, heq⟩ := hsame.1 y (mem_cons_self ..)
      have hxy := sidOf_eq (compareSr_eq.mp hsr)
      rcases List.mem_cons.mp hq with rfl | hq
      · exact absurd heq (compareTs_gt.mp hts).ne
      · exact absurd (hxy.trans hsid.symm) (hx q hq).ne
  | case8 n res x next y base hsr hts ih =>
    have hrest := same_cons (sidOf_eq (compareSr_eq.mp hsr)) (compareTs_eq hts) hnext hbase
    rw [ih hnext.tail hbase.tail (by omega) hres h, hrest]

theorem Covers.rest (h : Covers (x :: next) (y :: base)) (hsid : sidOf x = sidOf y) (hbase : SidSorted (y :: base)) : Covers next base := by
  refine Covers.tail (fun p hp => h p (mem_cons_of_mem _ hp)) fun p hp heq => ?_
  exact absurd (hsid.symm.trans heq) ((List.pairwise_cons.mp hbase).1 p hp).ne

theorem Covers.head_le (h : Covers (x :: next) (y :: base)) (hnext : SidSorted (x :: next)) : sidOf x ≤ sidOf y := by
  obtain ⟨q, hq, hsid, -⟩ := h y (mem_cons_self ..)
  rcases List.mem_cons.mp hq with rfl | hq
  · exact hsid.le
  · exact (((List.pairwise_cons.mp hnext).1 q hq).trans_eq hsid).le

theorem readsAlike_cons (hle : sidOf x ≤ sidOf y) :
    ReadsAlike (x :: next) (y :: base) ↔ slapCsnCompareSr x y = compare (sidOf x) (sidOf y) ∧ ReadsAlike next (y :: base) := by
  have hfind : (y :: base).find? (fun p => decide (sidOf x ≤ sidOf p)) = some y := by simp [hle]
  constructor
  · intro h
    exact ⟨h x (mem_cons_self ..) y hfind, fun q hq => h q (mem_cons_of_mem _ hq)⟩
  · rintro ⟨hx, h⟩ q hq p hp
    rcases List.mem_cons.mp hq with rfl | hq
    · rw [hfind] at hp
      obtain rfl := Option.some.inj hp
      exact hx
    · exact h q hq p hp

theorem readsAlike_rest (h : ∀ q ∈ next, sidOf y < sidOf q) : ReadsAlike next (y :: base) ↔ ReadsAlike next base := by
  refine forall₂_congr fun q hq => ?_
  rw [List.find?_cons_of_neg (by simp [h q hq])]

theorem readsAlike_eq (hsr : slapCsnCompareSr x y = .eq) (hnext : SidSorted (x :: next)) :
    ReadsAlike (x :: next) (y :: base) ↔ ReadsAlike next base := by
  have hsid := sidOf_eq (compareSr_eq.mp hsr)
  rw [readsAlike_cons hsid.le, hsr, hsid, compare_eq_iff_eq.mpr rfl, readsAlike_rest]
  · simp
  · exact fun q hq => hsid ▸ (List.pairwise_cons.mp hnext).1 q hq

theorem csnsCompareFrom_nonneg (hnext : SidSorted next) (hbase : SidSorted base) (hn : 0 < n) (hres : 0 ≤ res) (hcov : Covers next base) :
    0 ≤ csnsCompareFrom n res next base ↔ ReadsAlike next base := by
  fun_induction csnsCompareFrom n res next base with
  | case1 => simp [ReadsAlike, hres]
  | case2 n res y base =>
    obtain ⟨q, hq, -⟩ := hcov y (mem_cons_self ..)
    cases hq
  | case3 => simp [ReadsAlike, INT_MAX]
  | case4 n res x next y base hsr =>
    -- the text of `x` is behind that of `y`, its number is not
    have hle := hcov.head_le hnext
    rw [readsAlike_cons hle, hsr]
    constructor
    · intro h
      exact absurd h (by decide)
    · rintro ⟨hgt, -⟩
      exact absurd hle (not_le.mpr (compare_gt_iff_gt.mp hgt.symm))
  | case5 n res x next y base hsr ih =>
    have hle := hcov.head_le hnext
    rw [readsAlike_cons hle, hsr]
    rcases hle.lt_or_eq with hlt | heq
    · have hrest : Covers next (y :: base) := by
        refine hcov.tail fun p hp => ?_
        rcases List.mem_cons.mp hp with rfl | hp
        · exact hlt.ne
        · exact (hlt.trans ((List.pairwise_cons.mp hbase).1 p hp)).ne
      rw [ih hnext.tail hbase (by omega) (by decide) hrest, compare_lt_iff_lt.mpr hlt]
      simp
    · -- the server of `y` is not in the rest
      constructor
      · intro h
        obtain ⟨q, hq, hqy, -⟩ := csnsCompareFrom_covers (by omega) h y (mem_cons_self ..)
        exact absurd (heq.trans hqy.symm) ((List.pairwise_cons.mp hnext).1 q hq).ne
      · rintro ⟨hcmp, -⟩
        exact absurd heq (compare_lt_iff_lt.mp hcmp.symm).ne
  | case6 n res x next y base hsr hts =>
    have hsid := sidOf_eq (compareSr_eq.mp hsr)
    obtain ⟨q, hq, hqy, hle⟩ := hcov y (mem_cons_self ..)
    rcases List.mem_cons.mp hq with rfl | hq
    · exact absurd (compareTs_lt.mp hts) hle.not_gt
    · exact absurd (hsid.trans hqy.symm) ((List.pairwise_cons.mp hnext).1 q hq).ne
  | case7 n res x next y base hsr hts ih =>
    have hsid := sidOf_eq (compareSr_eq.mp hsr)
    have hres' : 0 ≤ if res = 0 then n else res := by
      split <;> omega
    rw [ih hnext.tail hbase.tail (by omega) hres' (hcov.rest hsid hbase), readsAlike_eq hsr hnext]
  | case8 n res x next y base hsr hts ih =>
    have hsid := sidOf_eq (compareSr_eq.mp hsr)
    rw [ih hnext.tail hbase.tail (by omega) hres (hcov.rest hsid hbase), readsAlike_eq hsr hnext]

/-- `next` and `base` in the order of their servers. The first part is the comparison, the second one what a pull leaves. -/
theorem csns_compare_iff (hnext : SidSorted next) (hbase : SidSorted base) :
    (Decides next base ∧ ∀ k src, Covers (slapCookiePull k base src).1 base) ↔ (Covers next base → ReadsAlike next base) := by
  have hpull : ∀ k src, Covers (slapCookiePull k base src).1 base := by
    intro k src
    rw [slapCookiePull]
    simp only
    split
    · rename_i hpos
      exact csnsCompareFrom_covers Int.one_pos hpos.le
    · exact fun p hp => ⟨p, hp, rfl, le_refl _⟩
  have hcov : 0 ≤ slapCsnsCompare next base → Covers next base := csnsCompareFrom_covers Int.one_pos
  have hsame : 0 ≤ slapCsnsCompare next base → (slapCsnsCompare next base = 0 ↔ Same next base) := by
    intro h
    rw [slapCsnsCompare, csnsCompareFrom_same hnext hbase Int.one_pos (le_refl 0) h]
    simp
  have hread : Covers next base → (0 ≤ slapCsnsCompare next base ↔ ReadsAlike next base) :=
    csnsCompareFrom_nonneg hnext hbase Int.one_pos (le_refl 0)
  constructor
  · rintro ⟨h, -⟩ hc
    refine (hread hc).mp (not_lt.mp fun hneg => ?_)
    exact h.neg.mp hneg hc
  · intro h
    refine ⟨⟨⟨fun hz => (hsame hz.ge).mp hz, fun hs => ?_⟩, ⟨fun hpos => ?_, fun hc => ?_⟩, ⟨fun hneg hc => ?_, fun hno => ?_⟩⟩, hpull⟩
    · exact (hsame ((hread hs.covers).mpr (h hs.covers))).mpr hs
    · exact ⟨hcov hpos.le, fun hs => hpos.ne' ((hsame hpos.le).mpr hs)⟩
    · have hnn := (hread hc.1).mpr (h hc.1)
      exact lt_of_le_of_ne hnn fun hz => hc.2 ((hsame hnn).mp hz.symm)
    · exact hneg.not_ge ((hread hc).mpr (h hc))
    · exact not_le.mp fun hnn => hno (hcov hnn)

theorem csns_compare_iff_behind : SidSorted [firstB] ∧ SidSorted [lowerA, firstB] ∧
    ((Decides [firstB] [lowerA, firstB] ∧ ∀ k src, Covers (slapCookiePull k [lowerA, firstB] src).1 [lowerA, firstB]) ↔
      (Covers [firstB] [lowerA, firstB] → ReadsAlike [firstB] [lowerA, firstB])) :=
  ⟨by simp [SidSorted], List.pairwise_pair.mpr (by decide), csns_compare_iff (by simp [SidSorted]) (List.pairwise_pair.mpr (by decide))⟩

/-- The same CSN in two letter cases. -/
theorem csns_compare_cases : SidSorted [upperA] ∧ SidSorted [lowerA] ∧ slapCsnsCompare [upperA] [lowerA] = INT_MIN ∧ ¬ Decides [upperA] [lowerA] := by
  have hmin : slapCsnsCompare [upperA] [lowerA] = INT_MIN := by decide
  refine ⟨by simp [SidSorted], by simp [SidSorted], hmin, fun h => ?_⟩
  have hsame : Same [upperA] [lowerA] := by
    refine ⟨fun p hp => ⟨upperA, by simp, ?_⟩, fun q hq => ⟨lowerA, by simp, ?_⟩⟩
    · obtain rfl := List.mem_singleton.mp hp
      exact ⟨by decide, by decide⟩
    · obtain rfl := List.mem_singleton.mp hq
      decide
  have hzero := h.zero.mpr hsame
  rw [hmin] at hzero
  exact absurd hzero (by decide)

end

end CsnArrays
end Sync
end ReOpenLDAP
