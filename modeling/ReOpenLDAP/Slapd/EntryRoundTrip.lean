import Mathlib.Data.List.TakeWhile
import ReOpenLDAP.Slapd.EntryLines
import ReOpenLDAP.Slapd.SortValsSpec

/-!
# Slapd.EntryRoundTrip

An entry that is written with `entry2str` and read with `str2entry`.
-/

namespace ReOpenLDAP
namespace Slapd
namespace EntryText

open Ascii Libreldap SortVals List

section

variable {ls : List Line} {i j k m : ℕ}

def Grouped (ls : List Line) : Prop := ∀ i j k, i < j → j < k → sameType ls i k = true → sameType ls i j = true

theorem gatherFrom_of_grouped (h : Grouped ls) (hij : i < j) (hno : ∀ k, i < k → k < j → sameType ls i k = false) :
    (gatherFrom m i j ls).1 = ls := by
  induction m generalizing i j with
  | zero => rfl
  | succ m ih =>
    rw [gatherFrom]
    split
    · rename_i hsame
      -- a line between them would be of another type
      have hj : j = i + 1 := by
        by_contra hne
        have hnext := h i (i + 1) j (by omega) (by omega) hsame
        rw [hno (i + 1) (by omega) (by omega)] at hnext
        cases hnext
      rw [if_neg (by omega)]
      exact ih (by omega) (fun k hk hkj => by omega)
    · rename_i hdiff
      refine ih (by omega) (fun k hk hkj => ?_)
      by_cases hkj' : k = j
      · rw [hkj']
        exact Bool.eq_false_of_not_eq_true hdiff
      · exact hno k hk (by omega)

theorem gather_of_grouped (h : Grouped ls) (rounds i : ℕ) : gather rounds i ls = ls := by
  induction rounds generalizing i with
  | zero => rfl
  | succ rounds ih =>
    rw [gather]
    split
    · simp only [gatherFrom_of_grouped h (Nat.lt_succ_self i) (fun k hk hki => by omega), ih]
    · rfl

theorem sameType_iff : sameType ls i j = true ↔ ∃ a b, ls[i]? = some a ∧ ls[j]? = some b ∧ CaseEq a.type b.type := by
  rw [sameType]
  split
  · rename_i a b ha hb
    simp [ha, hb]
  · rename_i hnone
    constructor
    · intro h
      cases h
    · rintro ⟨a, b, ha, hb, -⟩
      exact absurd hb (hnone a b ha)

theorem Grouped.append {type : List Octet} {run rest : List Line} (hrun : ∀ l ∈ run, l.type = type)
    (hrest : ∀ l ∈ rest, ¬ CaseEq type l.type) (h : Grouped rest) : Grouped (run ++ rest) := by
  intro i j k hij hjk hsame
  obtain ⟨a, b, ha, hb, hab⟩ := sameType_iff.mp hsame
  by_cases hi : i < run.length
  · have hatype := hrun a (by rw [List.getElem?_append_left hi] at ha; exact mem_of_getElem? ha)
    have hk : k < run.length := by
      by_contra hk
      rw [List.getElem?_append_right (by omega)] at hb
      exact hrest b (mem_of_getElem? hb) (hatype ▸ hab)
    have hj : (run ++ rest)[j]? = some run[j] := by
      rw [List.getElem?_append_left (by omega), List.getElem?_eq_getElem]
    refine sameType_iff.mpr ⟨a, _, ha, hj, ?_⟩
    rw [hatype, hrun _ (getElem_mem _)]
    exact .refl type
  · have hshift : ∀ m, i < m → sameType (run ++ rest) i m = sameType rest (i - run.length) (m - run.length) := by
      intro m hm
      rw [sameType, sameType, List.getElem?_append_right (by omega), List.getElem?_append_right (by omega)]
    rw [hshift j hij]
    rw [hshift k (by omega)] at hsame
    exact h _ _ _ (by omega) (by omega) hsame

end

section

variable {δ : Type*} (S : Schema δ)

/-- The equality rule normalizes the values to `ns`; there are none without a normalizer. -/
def Normalized (d : δ) (vals ns : List (List Octet)) : Prop :=
  match S.normalize d with
  | none => ns = []
  | some f => List.Forall₂ (fun v n => f v = .ok n) vals ns

/-- `a_nvals` -/
def nvalsOf (d : δ) (ns : List (List Octet)) : Option (List (List Octet)) := if (S.normalize d).isSome then some ns else none

def Attribute.compared (a : Attribute δ) : List (List Octet) := a.nvals.getD a.vals

structure Writable (a : Attribute δ) : Prop where
  canonical : str2ad S (S.cname a.desc) = .ok a.desc
  not_dn : ¬ CaseEq (S.cname a.desc) (text "dn")
  vals_ne : a.vals ≠ []
  binary : S.syntaxBinary a.desc = true → S.adBinary a.desc = true
  norms : ∃ ns, Normalized S a.desc a.vals ns ∧ a.nvals = nvalsOf S a.desc ns
  sorted : S.sortedVal a.desc = true → ∃ cmp, Std.TransCmp cmp ∧ (∀ x y, S.valueMatch a.desc x y = (0, cmp x y)) ∧
    a.compared.Pairwise fun x y => cmp x y ≠ .eq

/-- The attribute that is read for `a`. -/
structure ReadBack (a a' : Attribute δ) : Prop where
  desc : a'.desc = a.desc
  normalized : a'.nvals.isSome = a.nvals.isSome
  perm : (a'.vals.zip a'.compared).Perm (a.vals.zip a.compared)
  length : a'.vals.length = a.vals.length ∧ a'.compared.length = a.compared.length
  same : S.sortedVal a.desc = false → a'.vals = a.vals ∧ a'.nvals = a.nvals
  inc : S.sortedVal a.desc = true → a'.compared.Pairwise fun x y => S.valueMatch a.desc x y = (0, .lt)
  sorted : a'.sorted = S.sortedVal a.desc

variable {S} {a : Attribute δ} {ns : List (List Octet)}

theorem Normalized.length_eq (h : Normalized S a.desc a.vals ns) (hnvals : a.nvals = nvalsOf S a.desc ns) :
    a.compared.length = a.vals.length := by
  rw [Normalized] at h
  rw [Attribute.compared, hnvals, nvalsOf]
  cases hf : S.normalize a.desc with
  | none => simp
  | some f =>
    rw [hf] at h
    simpa using h.length_eq.symm

theorem ofFn_getD {α : Type*} {n : ℕ} {l : List α} (h : l.length = n) (x : α) : List.ofFn (fun i : Fin n => l.getD i x) = l := by
  subst h
  simp [getD_eq_getElem?_getD]

theorem zip_ofFn {α β : Type*} {n : ℕ} (f : Fin n → α) (g : Fin n → β) : (List.ofFn f).zip (List.ofFn g) = List.ofFn fun i => (f i, g i) := by
  rw [ofFn_eq_map, ofFn_eq_map, ofFn_eq_map, zip_map']

theorem closeAttr_sorted (hw : Writable S a) (hn : a.vals.length ≤ maxVals) (hlen : a.compared.length = a.vals.length)
    (hsorted : S.sortedVal a.desc = true) : ∃ r, slapSortVals (S.valueMatch a.desc) true a.vals.get
      (a.nvals.map fun nvals (i : Fin a.vals.length) => nvals.getD i []) = .ok r ∧ r.rc = 0 ∧
      ReadBack S a ⟨a.desc, List.ofFn r.vals, r.nvals.map List.ofFn, true⟩ := by
  obtain ⟨cmp, hcmp, hmatch, hdistinct⟩ := hw.sorted hsorted
  obtain ⟨r, heq, hr⟩ := slapSortVals_spec hmatch hn true a.vals.get (a.nvals.map fun nvals (i : Fin a.vals.length) => nvals.getD i [])
  have hcv : (a.nvals.map fun nvals (i : Fin a.vals.length) => nvals.getD i []).getD a.vals.get = fun i =>
      a.compared.getD i.val [] := by
    funext i
    rw [Attribute.compared]
    cases a.nvals with
    | none => simp
    | some nvals => rfl
  rw [SortedTo, hcv] at hr
  refine ⟨r, heq, ?_⟩
  rcases hr with ⟨-, d, -, q, hqd, htwin⟩ | ⟨-, σ, hr, -, hinc⟩
  · exfalso
    rw [← ofFn_getD hlen [], pairwise_ofFn] at hdistinct
    rcases lt_or_gt_of_ne hqd with hlt | hgt
    · exact hdistinct hlt (Std.OrientedCmp.eq_symm htwin)
    · exact hdistinct hgt htwin
  · have hcompared : (⟨a.desc, List.ofFn r.vals, r.nvals.map List.ofFn, true⟩ : Attribute δ).compared =
        List.ofFn fun i => a.compared.getD (σ i).val [] := by
      rw [hr, Attribute.compared, Attribute.compared]
      cases a.nvals with
      | none => simp [Function.comp_def]
      | some nvals => simp [Function.comp_def]
    have hvals : List.ofFn r.vals = List.ofFn fun i => a.vals.get (σ i) := by
      rw [hr]
      rfl
    refine ⟨by rw [hr], rfl, by rw [hr]; simp, ?_, ⟨by simp, by rw [hcompared, length_ofFn, hlen]⟩, ?_, fun _ => ?_, hsorted.symm⟩
    · have hzip : (List.ofFn fun i => (a.vals.get i, a.compared.getD i.val [])) = a.vals.zip a.compared := by
        rw [← zip_ofFn, ofFn_get, ofFn_getD hlen]
      have hperm := σ.ofFn_comp_perm fun i => (a.vals.get i, a.compared.getD i.val [])
      rw [hzip] at hperm
      rw [hcompared]
      simp only [hvals, zip_ofFn]
      exact hperm
    · intro h
      rw [hsorted] at h
      cases h
    · rw [hcompared, pairwise_ofFn]
      intro i j hij
      rw [hmatch, hinc rfl i j hij]

theorem closeAttr_spec (hw : Writable S a) (hn : a.vals.length ≤ maxVals) (hns : Normalized S a.desc a.vals ns)
    (hnvals : a.nvals = nvalsOf S a.desc ns) : ∃ a', closeAttr S a.desc a.vals ns = .ok a' ∧ ReadBack S a a' := by
  rw [closeAttr, ← nvalsOf, ← hnvals]
  cases hsorted : S.sortedVal a.desc with
  | false =>
    refine ⟨⟨a.desc, a.vals, a.nvals, false⟩, rfl, rfl, rfl, .refl _, ⟨rfl, rfl⟩, fun _ => ⟨rfl, rfl⟩, fun h => ?_, hsorted.symm⟩
    rw [hsorted] at h
    cases h
  | true =>
    obtain ⟨r, heq, hrc, hback⟩ := closeAttr_sorted hw hn (hns.length_eq hnvals) hsorted
    refine ⟨_, ?_, hback⟩
    simp only [heq, hrc, if_true]
    rfl

end

/-! ## The attributes -/

section

variable {δ : Type*} {S : Schema δ} {d d' : δ} {a : Attribute δ} {vs ns : List (List Octet)}

theorem str2ad_case {x y : List Octet} (hx : adKeystring S.rangeHack x = true) (hy : adKeystring S.rangeHack y = true) (h : CaseEq x y) :
    str2ad S x = str2ad S y := by
  have hne : x ≠ [] ∧ y ≠ [] := by
    constructor <;> rintro rfl <;> contradiction
  simp only [str2ad, hne.1, hne.2, hx, hy, S.findAd_case x y h, S.undefAd_case x y h]

theorem cname_apart (hd : str2ad S (S.cname d) = .ok d) (hd' : str2ad S (S.cname d') = .ok d') (hne : d ≠ d') :
    ¬ CaseEq (S.cname d) (S.cname d') := by
  intro hcase
  rw [str2ad_case (str2ad_keystring hd) (str2ad_keystring hd') hcase, hd'] at hd
  exact hne (Except.ok.inj hd).symm

theorem pushValue_cons {v : List Octet} (h : Normalized S d (v :: vs) ns) (nvals : List (List Octet)) :
    ∃ n ns', ns = n ++ ns' ∧ Normalized S d vs ns' ∧ pushValue S d (some v) nvals = .ok (v, nvals ++ n) := by
  rw [Normalized] at h
  simp only [pushValue, Normalized]
  cases hf : S.normalize d with
  | none =>
    rw [hf] at h
    exact ⟨[], ns, rfl, h, by simp⟩
  | some f =>
    rw [hf] at h
    cases h with
    | @cons _ n _ ns' hv hvs => exact ⟨[n], ns', rfl, hvs, by simp [hv]⟩

theorem lineAd_same (d : δ) : lineAd S (some d) (S.cname d) = .ok d := by simp [lineAd, CaseEq.refl]

theorem lineAd_fresh (hw : Writable S a) {prev : Option δ} (hprev : ∀ d ∈ prev, ¬ CaseEq (S.cname a.desc) (S.cname d)) :
    lineAd S prev (S.cname a.desc) = .ok a.desc := by
  have hbinary : (S.syntaxBinary a.desc && !S.adBinary a.desc) = false := by
    cases hsyn : S.syntaxBinary a.desc with
    | false => rfl
    | true => simp [hw.binary hsyn]
  cases prev with
  | none => simp [lineAd, hw.canonical, hbinary]
  | some d => simp [lineAd, hw.canonical, hbinary, hprev d rfl]

def linesOf (S : Schema δ) (attrs : List (Attribute δ)) : List Line := attrs.flatMap fun a => a.vals.map fun v => ⟨S.cname a.desc, some v⟩

theorem linesOf_grouped {todo : List (Attribute δ)} (hw : ∀ a ∈ todo, Writable S a) (hnodup : (todo.map Attribute.desc).Nodup) :
    Grouped (linesOf S todo) := by
  induction todo with
  | nil =>
    intro i j k hij hjk hsame
    obtain ⟨a, -, ha, -⟩ := sameType_iff.mp hsame
    cases ha
  | cons a todo ih =>
    obtain ⟨hwa, hw⟩ := List.forall_mem_cons.mp hw
    obtain ⟨hmem, hnodup⟩ := List.nodup_cons.mp hnodup
    rw [linesOf, flatMap_cons]
    have hrun : ∀ l ∈ a.vals.map (fun v => (⟨S.cname a.desc, some v⟩ : Line)), l.type = S.cname a.desc := by
      intro l hl
      obtain ⟨v, -, rfl⟩ := List.mem_map.mp hl
      rfl
    refine Grouped.append hrun (fun l hl => ?_) (ih hw hnodup)
    obtain ⟨b, hb, hl⟩ := List.mem_flatMap.mp hl
    obtain ⟨v, -, rfl⟩ := List.mem_map.mp hl
    refine cname_apart hwa.canonical (hw b hb).canonical ?_
    intro heq
    exact hmem (heq ▸ List.mem_map_of_mem hb)

variable [DecidableEq δ]

theorem attrLoop_cons (line : Line) (lines : List Line) (adPrev : Option δ) (vals nvals : List (List Octet))
    (attrs : List (Attribute δ)) : attrLoop S (line :: lines) adPrev vals nvals attrs =
      match lineAd S adPrev line.type with
      | .error e => .error e
      | .ok ad =>
        match adPrev with
        | none =>
          match pushValue S ad line.value nvals with
          | .error e => .error e
          | .ok (v, nvals) => attrLoop S lines (some ad) (vals ++ [v]) nvals attrs
        | some prev =>
          if ad ≠ prev then
            match closeAttr S prev vals nvals with
            | .error e => .error e
            | .ok a =>
              match pushValue S ad line.value [] with
              | .error e => .error e
              | .ok (v, nvals) => attrLoop S lines (some ad) [v] nvals (attrs ++ [a])
          else
            match pushValue S ad line.value nvals with
            | .error e => .error e
            | .ok (v, nvals) => attrLoop S lines (some ad) (vals ++ [v]) nvals attrs := rfl

theorem attrLoop_run (h : Normalized S d vs ns) (rest : List Line) (vals nvals : List (List Octet)) (attrs : List (Attribute δ)) :
    attrLoop S (vs.map (fun v => ⟨S.cname d, some v⟩) ++ rest) (some d) vals nvals attrs =
      attrLoop S rest (some d) (vals ++ vs) (nvals ++ ns) attrs := by
  induction vs generalizing ns vals nvals with
  | nil =>
    have hns : ns = [] := by
      rw [Normalized] at h
      split at h
      · exact h
      · exact List.forall₂_nil_left_iff.mp h
    simp [hns]
  | cons v vs ih =>
    obtain ⟨n, ns', rfl, hvs, hpush⟩ := pushValue_cons h nvals
    rw [map_cons, cons_append, attrLoop_cons, lineAd_same]
    simp [hpush, ih hvs]

theorem attrLoop_next {a0 : Attribute δ} {vals nvals : List (List Octet)} (hw : Writable S a) (hns : Normalized S a.desc a.vals ns)
    (hd : str2ad S (S.cname d) = .ok d) (hne : a.desc ≠ d) (hclose : closeAttr S d vals nvals = .ok a0) (rest : List Line)
    (attrs : List (Attribute δ)) : attrLoop S (a.vals.map (fun v => ⟨S.cname a.desc, some v⟩) ++ rest) (some d) vals nvals attrs =
      attrLoop S rest (some a.desc) a.vals ns (attrs ++ [a0]) := by
  obtain ⟨v, vs, hvals⟩ := exists_cons_of_ne_nil hw.vals_ne
  rw [hvals] at hns ⊢
  obtain ⟨n, ns', rfl, hvs, hpush⟩ := pushValue_cons hns []
  have hfresh : lineAd S (some d) (S.cname a.desc) = .ok a.desc := by
    refine lineAd_fresh hw ?_
    rintro _ ⟨⟩
    exact cname_apart hw.canonical hd hne
  rw [map_cons, cons_append, attrLoop_cons, hfresh]
  simp only [if_pos hne, hclose, hpush]
  exact attrLoop_run hvs rest [v] n _

theorem attrLoop_attrs {todo : List (Attribute δ)} {a0 : Attribute δ} {vals nvals : List (List Octet)} (hw : ∀ a ∈ todo, Writable S a)
    (hn : ∀ a ∈ todo, a.vals.length ≤ maxVals) (hd : str2ad S (S.cname d) = .ok d) (hnodup : (d :: todo.map Attribute.desc).Nodup)
    (hclose : closeAttr S d vals nvals = .ok a0) (attrs : List (Attribute δ)) : ∃ attrs',
      attrLoop S (linesOf S todo) (some d) vals nvals attrs = .ok (attrs ++ a0 :: attrs') ∧ List.Forall₂ (ReadBack S) todo attrs' := by
  induction todo generalizing d vals nvals a0 attrs with
  | nil =>
    refine ⟨[], ?_, .nil⟩
    change (closeAttr S d vals nvals).map (fun a => attrs ++ [a]) = _
    rw [hclose]
    rfl
  | cons a todo ih =>
    obtain ⟨hwa, hw⟩ := List.forall_mem_cons.mp hw
    obtain ⟨hna, hn⟩ := List.forall_mem_cons.mp hn
    obtain ⟨hdmem, hnodup⟩ := List.nodup_cons.mp hnodup
    obtain ⟨ns, hns, hnvals⟩ := hwa.norms
    obtain ⟨a', hclose', hback⟩ := closeAttr_spec hwa hna hns hnvals
    have hne : a.desc ≠ d := by
      rintro rfl
      exact hdmem (mem_cons_self ..)
    obtain ⟨attrs', heq, hall⟩ := ih hw hn hwa.canonical hnodup hclose' (attrs ++ [a0])
    refine ⟨a' :: attrs', ?_, .cons hback hall⟩
    rw [linesOf, flatMap_cons, attrLoop_next hwa hns hd hne hclose, ← linesOf, heq]
    simp

theorem attrLoop_start {todo : List (Attribute δ)} (hw : ∀ a ∈ todo, Writable S a) (hn : ∀ a ∈ todo, a.vals.length ≤ maxVals)
    (hnodup : (todo.map Attribute.desc).Nodup) :
    ∃ attrs', attrLoop S (linesOf S todo) none [] [] [] = .ok attrs' ∧ List.Forall₂ (ReadBack S) todo attrs' := by
  cases todo with
  | nil => exact ⟨[], rfl, .nil⟩
  | cons a todo =>
    obtain ⟨hwa, hw⟩ := List.forall_mem_cons.mp hw
    obtain ⟨hna, hn⟩ := List.forall_mem_cons.mp hn
    obtain ⟨ns, hns, hnvals⟩ := hwa.norms
    obtain ⟨a', hclose, hback⟩ := closeAttr_spec hwa hna hns hnvals
    obtain ⟨attrs', heq, hall⟩ := attrLoop_attrs hw hn hwa.canonical hnodup hclose []
    refine ⟨a' :: attrs', ?_, .cons hback hall⟩
    obtain ⟨v, vs, hvals⟩ := exists_cons_of_ne_nil hwa.vals_ne
    rw [hvals] at hns heq
    obtain ⟨n, ns', rfl, hvs, hpush⟩ := pushValue_cons hns []
    rw [linesOf, flatMap_cons, hvals, map_cons, cons_append, attrLoop_cons, lineAd_fresh hwa (by simp)]
    simp only [hpush]
    rw [attrLoop_run hvs]
    exact heq

end

section

variable {δ : Type*} [DecidableEq δ] {S : Schema δ} (registered : List MustB64Encode) (fetchUrl : List Octet → Option (List Octet))

theorem lineOk_dn {dn : List Octet} (h : dn.length < 2 ^ 31) : LineOk (text "dn", dn) := by
  have hname : IsName (text "dn") ∧ 0 ∉ text "dn" := isName_of_keystring (show adKeystring false (text "dn") = true by decide)
  exact ⟨hname.1, hname.2, h⟩

theorem mem_sizeNeeded {lines : List (List Octet × List Octet)} {p : List Octet × List Octet} (hp : p ∈ lines) :
    p.2.length ≤ sizeNeeded lines := by
  induction lines with
  | nil => cases hp
  | cons q lines ih =>
    rw [sizeNeeded_cons, LDIF_SIZE_NEEDED, LDIF_BASE64_LEN]
    rcases List.mem_cons.mp hp with rfl | hp
    · omega
    · have := ih hp
      omega

theorem length_sizeNeeded (lines : List (List Octet × List Octet)) : 2 * lines.length ≤ sizeNeeded lines := by
  induction lines with
  | nil => exact le_refl 0
  | cons q lines ih =>
    rw [sizeNeeded_cons, length_cons, LDIF_SIZE_NEEDED]
    omega

theorem str2entry_eq {lines : List (List Octet × List Octet)} (h : ∀ p ∈ lines, LineOk p) :
    str2entry S fetchUrl (textOf registered lines) =
      match readLines S fetchUrl lines.length (some (textOf registered lines)) [] none with
      | .error e => .error e
      | .ok (_, none) => .error (.rc LDAP_INVALID_SYNTAX)
      | .ok (ls, some (name, nname)) => (attrLoop S (gather ls.length 0 ls) none [] [] []).map fun attrs => ⟨some name, some nname, attrs⟩ := by
  have hnul : (textOf registered lines).takeWhile (· ≠ 0) = textOf registered lines := by
    refine List.takeWhile_eq_self_iff.mpr fun c hc => ?_
    simp only [decide_eq_true_eq]
    rintro rfl
    exact textOf_no_nul registered h hc
  rw [str2entry, str2entry2, hnul, countlines_textOf registered h]
  rfl

variable {lines : List (List Octet × List Octet)} {dn name nname : List Octet}

theorem str2entry_text (hdn : dn.length < 2 ^ 31) (h : ∀ p ∈ lines, LineOk p) (hno : ∀ p ∈ lines, ¬ CaseEq p.1 (text "dn"))
    (hpretty : S.dnPrettyNormal dn = .ok (name, nname)) : str2entry S fetchUrl (textOf registered ((text "dn", dn) :: lines)) =
      (attrLoop S (gather lines.length 0 (lines.map toLine)) none [] [] []).map fun attrs => ⟨some name, some nname, attrs⟩ := by
  rw [str2entry_eq registered fetchUrl (List.forall_mem_cons.mpr ⟨lineOk_dn hdn, h⟩),
    readLines_line registered fetchUrl (lineOk_dn hdn) h (Nat.succ_pos _), if_pos (.refl _)]
  simp only [hpretty]
  rw [readLines_text registered fetchUrl h hno (by simp)]
  simp

theorem str2entry_dns {p : List Octet × List Octet} (hdn : dn.length < 2 ^ 31) (hp : LineOk p) (h : ∀ p ∈ lines, LineOk p)
    (hsame : CaseEq p.1 (text "dn")) (hpretty : S.dnPrettyNormal dn = .ok (name, nname)) :
    str2entry S fetchUrl (textOf registered ((text "dn", dn) :: p :: lines)) = .error (.rc LDAP_INVALID_SYNTAX) := by
  have hlines : ∀ q ∈ p :: lines, LineOk q := List.forall_mem_cons.mpr ⟨hp, h⟩
  rw [str2entry_eq registered fetchUrl (List.forall_mem_cons.mpr ⟨lineOk_dn hdn, hlines⟩),
    readLines_line registered fetchUrl (lineOk_dn hdn) hlines (Nat.succ_pos _), if_pos (.refl _)]
  simp only [hpretty]
  rw [readLines_line registered fetchUrl hp h (Nat.succ_pos _), if_pos hsame]

theorem entry_text_round_trip (emaxsize : ℕ) {e : Entry δ} {ndn : List Octet} (hname : e.name = some dn) (hnname : e.nname = some ndn)
    (hdn : S.dnPrettyNormal dn = .ok (dn, ndn)) (hattrs : ∀ a ∈ e.attrs, Writable S a) (hdistinct : (e.attrs.map Attribute.desc).Nodup)
    (hsize : SizeInt S e) : ∃ out attrs, entry2str S registered emaxsize e = some (out, (out.length : ℤ)) ∧
      str2entry S fetchUrl out = .ok ⟨e.name, e.nname, attrs⟩ ∧ List.Forall₂ (ReadBack S) e.attrs attrs := by
  have hint : sizeNeeded (entryLines S e) < 2 ^ 31 := by
    rw [SizeInt] at hsize
    omega
  have hlines : entryLines S e = (text "dn", dn) :: e.attrs.flatMap fun a => a.vals.map fun v => (S.cname a.desc, v) := by
    simp [entryLines, hname]
  have hmem : ∀ a ∈ e.attrs, ∀ v ∈ a.vals, (S.cname a.desc, v) ∈ entryLines S e := by
    intro a ha v hv
    rw [hlines]
    exact mem_cons_of_mem _ (List.mem_flatMap.mpr ⟨a, ha, List.mem_map.mpr ⟨v, hv, rfl⟩⟩)
  have hcount : ∀ a ∈ e.attrs, a.vals.length ≤ maxVals := by
    intro a ha
    have hsub : (a.vals.map fun v => (S.cname a.desc, v)).Sublist (entryLines S e) := by
      rw [hlines, flatMap_def]
      exact (sublist_flatten_of_mem (List.mem_map_of_mem (f := fun a => a.vals.map fun v => (S.cname a.desc, v)) ha)).trans
        (sublist_cons_self ..)
    have hle := hsub.length_le
    have hlen := length_sizeNeeded (entryLines S e)
    rw [length_map] at hle
    rw [maxVals]
    omega
  obtain ⟨attrs', hloop, hback⟩ := attrLoop_start hattrs hcount hdistinct
  refine ⟨_, attrs', entry2str_eq registered emaxsize hsize, ?_, hback⟩
  have hdnlen : dn.length < 2 ^ 31 := lt_of_le_of_lt (mem_sizeNeeded (show (text "dn", dn) ∈ entryLines S e by rw [hlines]; simp)) hint
  have hok : ∀ p ∈ e.attrs.flatMap (fun a => a.vals.map fun v => (S.cname a.desc, v)), LineOk p ∧ ¬ CaseEq p.1 (text "dn") := by
    intro p hp
    obtain ⟨a, ha, hp⟩ := List.mem_flatMap.mp hp
    obtain ⟨v, hv, rfl⟩ := List.mem_map.mp hp
    have hw := hattrs a ha
    obtain ⟨hn, hnul⟩ := isName_of_keystring (str2ad_keystring hw.canonical)
    exact ⟨⟨hn, hnul, lt_of_le_of_lt (mem_sizeNeeded (hmem a ha v hv)) hint⟩, hw.not_dn⟩
  have hmap : (e.attrs.flatMap fun a => a.vals.map fun v => (S.cname a.desc, v)).map toLine = linesOf S e.attrs := by
    simp [linesOf, map_flatMap, Function.comp_def, toLine]
  rw [hlines, str2entry_text registered fetchUrl hdnlen (fun p hp => (hok p hp).1) (fun p hp => (hok p hp).2) hdn, hmap,
    gather_of_grouped (linesOf_grouped hattrs hdistinct), hloop, hname, hnname]
  rfl

end

section

inductive Desc where
  | cn
  | member
  | userCertificate
  | dn
  | unknown
deriving DecidableEq

def Desc.name : Desc → List Octet
  | .cn => text "cn"
  | .member => text "member"
  | .userCertificate => text "userCertificate"
  | .dn => text "dn"
  | .unknown => text "UNKNOWN"

def Desc.find (name : List Octet) : Except ℕ Desc :=
  match [Desc.cn, .member, .userCertificate, .dn].find? fun d => decide (CaseEq d.name name) with
  | some d => .ok d
  | none => .error 0x11

theorem Desc.find_case {a b : List Octet} (h : CaseEq a b) : Desc.find a = Desc.find b := by
  have hsame : (fun d : Desc => decide (CaseEq d.name a)) = fun d => decide (CaseEq d.name b) :=
    funext fun d => decide_eq_decide.mpr ⟨fun ha => ha.trans h, fun hb => hb.trans h.symm⟩
  rw [Desc.find, Desc.find, hsame]

/-- `octetStringMatch` -/
def octetOrder : List Octet → List Octet → Ordering := compareLex (compareOn List.length) compare

instance : Std.TransCmp octetOrder := inferInstanceAs (Std.TransCmp (compareLex _ _))

def leafSchema : Schema Desc where
  rangeHack := false
  wtool := false
  cname := Desc.name
  findAd := Desc.find
  findAd_case _ _ := Desc.find_case
  undefAd _ := .unknown
  undefAd_case _ _ _ := rfl
  syntaxBinary d := d = .userCertificate
  adBinary _ := false
  sortedVal d := d = .member
  normalize d := if d = .cn then some fun v => .ok (v.map toLower) else none
  valueMatch _ x y := (0, octetOrder x y)
  dnPrettyNormal v := .ok (v, v)

def leafEntry (attrs : List (Attribute Desc)) : Entry Desc := ⟨some (text "cn=a"), some (text "cn=a"), attrs⟩

/-- A DN, an empty value, and sorted values. -/
theorem entry_text_round_trip_leaf : ∃ out attrs, entry2str leafSchema defaultMustB64Encode 0 (leafEntry
      [⟨.cn, [text "A", []], some [text "a", []], false⟩, ⟨.member, [text "ab", text "b"], none, false⟩]) =
        some (out, (out.length : ℤ)) ∧
    str2entry leafSchema (fun _ => none) out = .ok (leafEntry attrs) ∧ List.Forall₂ (ReadBack leafSchema)
      [⟨.cn, [text "A", []], some [text "a", []], false⟩, ⟨.member, [text "ab", text "b"], none, false⟩] attrs := by
  refine entry_text_round_trip (S := leafSchema) defaultMustB64Encode (fun _ => none) 0 rfl rfl rfl ?_ ?_ ?_
  · intro a ha
    simp only [leafEntry, mem_cons, not_mem_nil, or_false] at ha
    rcases ha with rfl | rfl
    · refine ⟨rfl, by decide, by simp, by decide, ⟨[text "a", []], ?_, rfl⟩, fun h => absurd h (by decide)⟩
      exact .cons rfl (.cons rfl .nil)
    · refine ⟨rfl, by decide, by simp, by decide, ⟨[], rfl, rfl⟩, fun _ => ⟨octetOrder, inferInstance, fun _ _ => rfl, ?_⟩⟩
      exact List.pairwise_pair.mpr (by decide)
  · decide
  · rw [SizeInt]
    decide

theorem leaf_text {lines : List (List Octet × List Octet)} (h : ∀ p ∈ lines, adKeystring false p.1 = true ∧ p.2.length < 2 ^ 31)
    (hno : ∀ p ∈ lines, ¬ CaseEq p.1 (text "dn")) :
    str2entry leafSchema (fun _ => none) (textOf defaultMustB64Encode ((text "dn", text "cn=a") :: lines)) =
      (attrLoop leafSchema (gather lines.length 0 (lines.map toLine)) none [] [] []).map leafEntry := by
  have hok : ∀ p ∈ lines, LineOk p := by
    intro p hp
    obtain ⟨hname, hnul⟩ := isName_of_keystring (h p hp).1
    exact ⟨hname, hnul, (h p hp).2⟩
  exact str2entry_text defaultMustB64Encode _ (by decide) hok hno rfl

theorem leaf_written (attrs : List (Attribute Desc)) (h : SizeInt leafSchema (leafEntry attrs)) :
    entry2str leafSchema defaultMustB64Encode 0 (leafEntry attrs) =
      some (textOf defaultMustB64Encode (entryLines leafSchema (leafEntry attrs)),
        ((textOf defaultMustB64Encode (entryLines leafSchema (leafEntry attrs))).length : ℤ)) := entry2str_eq defaultMustB64Encode 0 h

/-- What `str2entry` gives for the text of an entry. -/
def written (attrs : List (Attribute Desc)) (res : Except Error (Entry Desc)) : Prop :=
  ∃ out, entry2str leafSchema defaultMustB64Encode 0 (leafEntry attrs) = some (out, (out.length : ℤ)) ∧
    str2entry leafSchema (fun _ => none) out = res

/-- An attribute with the name of the DN, one without values, one that needs `;binary`, and a sorted one with a value twice. -/
theorem str2entry_refuses :
    written [⟨.dn, [text "x"], none, false⟩] (.error (.rc LDAP_INVALID_SYNTAX)) ∧
    written [⟨.cn, [], some [], false⟩] (.ok (leafEntry [])) ∧
    written [⟨.userCertificate, [text "x"], none, false⟩] (.error (.rc LDAP_INVALID_SYNTAX)) ∧
    written [⟨.member, [text "x", text "x"], none, false⟩] (.error (.rc LDAP_TYPE_OR_VALUE_EXISTS)) := by
  refine ⟨⟨_, leaf_written _ (by rw [SizeInt]; decide), ?_⟩, ⟨_, leaf_written _ (by rw [SizeInt]; decide), ?_⟩,
    ⟨_, leaf_written _ (by rw [SizeInt]; decide), ?_⟩, ⟨_, leaf_written _ (by rw [SizeInt]; decide), ?_⟩⟩
  · exact str2entry_dns defaultMustB64Encode _ (by decide) (lineOk_dn (by decide)) (by simp) (.refl _) rfl
  · exact (leaf_text (by decide) (by decide)).trans rfl
  · exact (leaf_text (by decide) (by decide)).trans rfl
  · exact (leaf_text (by decide) (by decide)).trans rfl

end

end EntryText
end Slapd
end ReOpenLDAP
