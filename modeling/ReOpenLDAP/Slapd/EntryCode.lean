import ReOpenLDAP.Lib.BerOctets
import ReOpenLDAP.Libreldap.LdifLine
import ReOpenLDAP.Slapd.EntryBlock
import ReOpenLDAP.Slapd.SortVals

/-!
# Slapd.EntryCode

Flattened entries: `entry_encode`, `entry_header` and `entry_decode`. The decoder sees nothing but the encoding; what it would read or
point to outside of it is `none`, as is an `int` that overflows and a use of the attribute after the last one.
-/

namespace ReOpenLDAP
namespace Slapd
namespace EntryBlock

open Ascii Bytes Ber Layout Libreldap SortVals List Option

/-- What `entry_decode` needs of the schema. -/
structure Schema (δ : Type) where
  cname : δ → List Octet
  /-- `slap_bv2ad`, or else `slap_bv2undef_ad` -/
  bv2ad : List Octet → Option δ
  /-- `SLAP_AT_SORTED_VAL` -/
  sortedVal : δ → Bool
  /-- `ordered_value_match` with the equality rule. -/
  valueMatch : δ → List Octet → List Octet → Nat × Ordering

section
variable {δ : Type} (S : Schema δ)

def entryPutlen (len : Nat) : List Octet :=
  let lenlen := entryLenlen len
  if lenlen = 1 then [Fin.ofNat 256 len]
  else Fin.ofNat 256 (0x80 ||| (lenlen - 1)) :: (beBytes (lenlen - 1) len).map (Fin.ofNat 256)

/-- The loop of `entry_getlen`. -/
def getBytes : Nat → Nat → List Octet → Option (Nat × List Octet)
  | 0, len, t => some (len, t)
  | _ + 1, _, [] => none
  | i + 1, len, b :: t => getBytes i ((len * 256 + b.val) % 2 ^ 64) t

def entryGetlen : List Octet → Option (Nat × List Octet)
  | [] => none
  | b :: t => if b.val ≤ 0x7f then some (b.val, t) else getBytes (b.val &&& 0x7f) 0 t

def encodeString (s : List Octet) : List Octet := entryPutlen s.length ++ (s ++ [0])

/-- The number of the normalized values is `i`, that of the values. -/
def encodeAttr (a : Attribute δ) : List Octet :=
  encodeString (S.cname a.desc) ++ (entryPutlen a.vals.length ++ (a.vals.flatMap encodeString ++
    match a.nvals with
    | none => entryPutlen 0
    | some ns => entryPutlen a.vals.length ++ ns.flatMap encodeString))

def entryEncode (e : Entry δ) : List Octet :=
  let z := entryPartsize S.cname e true
  entryPutlen z.nattrs ++ (entryPutlen z.nvals ++ (encodeString e.name ++ (encodeString e.nname ++ e.attrs.flatMap (encodeAttr S))))

/-- `i` octets and a NUL. A negative `i` is a `bv_len` of almost `2 ^ 64`. -/
def stringAt (i : Nat) (t : List Octet) : Option (List Octet × List Octet) :=
  if 0 ≤ castInt i ∧ castInt i ≤ t.length then some (t.take (castInt i).toNat, t.drop ((castInt i).toNat + 1)) else none

def decodeString (t : List Octet) : Option (List Octet × List Octet) := do
  let (i, t) ← entryGetlen t
  stringAt i t

/-- `while (j)` -/
def decodeVals : Nat → List Octet → Option (List (List Octet) × List Octet)
  | 0, t => some ([], t)
  | j + 1, t => do
    let (v, t) ← decodeString t
    let (vs, t) ← decodeVals j t
    some (v :: vs, t)

def decodeArray (t : List Octet) : Option (List (List Octet) × List Octet) := do
  let (j, t) ← entryGetlen t
  if castInt j < 0 then none else decodeVals (castInt j).toNat t

/-- `slap_sort_vals`: the values, and what `a_nvals` points to. -/
def sortVals (desc : δ) (vals : List (List Octet)) (nvals : Option (List (List Octet))) :
    Option (List (List Octet) × List (List Octet)) :=
  if S.sortedVal desc then
    match slapSortVals (S.valueMatch desc) true vals.get (nvals.map fun ns i => ns.getD i []) with
    | .error _ => none
    | .ok r =>
      if r.rc = LDAP_TYPE_OR_VALUE_EXISTS then none
      else some (List.ofFn r.vals, List.ofFn (r.nvals.getD r.vals))
  else some (vals, nvals.getD vals)

/-- The attribute with a name of `i` octets, and how many bervals it takes. -/
def decodeAttr (i : Nat) (t : List Octet) : Option (AttributeView δ × Nat × List Octet) := do
  let (name, t) ← stringAt i t
  let desc ← S.bv2ad name
  let (vals, t) ← decodeArray t
  let (ns, t) ← decodeArray t
  let slots := vals.length + 1 + if ns = [] then 0 else ns.length + 1
  let (vals', nvals') ← sortVals S desc vals (if ns = [] then none else some ns)
  some (⟨desc, vals', some nvals', vals.length⟩, slots, t)

/-- The loop of `entry_decode`, with `nattrs` attributes allocated: `nattrs` is looked at behind the first of them. -/
def decodeAttrs : Nat → List Octet → Option (List (AttributeView δ) × Nat)
  | 0, t => do
    let (i, _) ← entryGetlen t
    if castInt i = 0 then some ([], 0) else none
  | n + 1, t => do
    let (i, t) ← entryGetlen t
    if castInt i = 0 then some ([], 0)
    else
      let (a, slots, t) ← decodeAttr S i t
      if n = 0 then some ([a], slots)
      else
        let (as, rest) ← decodeAttrs n t
        some (a :: as, slots + rest)

structure EntryHeader where
  nattrs : Int
  nvals : Int
  data : List Octet

structure Decoded (δ : Type) where
  name : List Octet
  nname : List Octet
  attrs : List (AttributeView δ)
  slots : Nat

def entryHeader (bv : List Octet) : Option EntryHeader := do
  let (nattrs, t) ← entryGetlen bv
  let (nvals, t) ← entryGetlen t
  some ⟨castInt nattrs, castInt nvals, t⟩

def entryDecode (eh : EntryHeader) : Option (Decoded δ) := do
  let (name, t) ← decodeString eh.data
  let (nname, t) ← decodeString t
  let (attrs, slots) ← decodeAttrs S eh.nattrs.toNat t
  some ⟨name, nname, attrs, slots⟩

/-- The encoding has the computed length, and is read back as the plain copy of the entry, with as many bervals as the header says. -/
structure DecodeRight (e : Entry δ) : Prop where
  len : (entryEncode S e).length = (entryPartsize S.cname e true).len
  back : ∃ eh d, entryHeader (entryEncode S e) = some eh ∧ entryDecode S eh = some d ∧
    d.name = e.name ∧ d.nname = e.nname ∧ d.attrs = (entryDup e).attrs ∧
    d.slots = (entryPartsize S.cname e true).nvals ∧ (d.slots : Int) = eh.nvals

/-- An attribute that is read back. -/
structure AttrGood (a : Attribute δ) : Prop where
  named : S.cname a.desc ≠ []
  found : S.bv2ad (S.cname a.desc) = some a.desc
  short : ∀ s ∈ S.cname a.desc :: a.strings, s.length < 2 ^ 31
  sorted : sortVals S a.desc a.vals a.nvals = some (a.vals, a.nvals.getD a.vals)
  valued : a.nvals ≠ some []

end

section
variable {δ : Type} {S : Schema δ} {a : Attribute δ} {as : List (Attribute δ)} {s t : List Octet}

theorem castInt_neg {n : Nat} (h : 2 ^ 31 ≤ n) (hn : n < 2 ^ 32) : castInt n < 0 := by
  unfold castInt
  rw [Int.bmod_def]
  norm_num
  omega

theorem castInt_ne_zero {n : Nat} (h : 0 < n) (hn : n < 2 ^ 32) : castInt n ≠ 0 := by
  rcases Nat.lt_or_ge n (2 ^ 31) with hlt | hge
  · rw [castInt_eq hlt]
    omega
  · exact (castInt_neg hge hn).ne

theorem getBytes_beBytes (n v : Nat) {len : Nat} (h : (len + 1) * 256 ^ n ≤ 2 ^ 64) (t : List Octet) :
    getBytes n len ((beBytes n v).map (Fin.ofNat 256) ++ t) = some (len * 256 ^ n + v % 256 ^ n, t) := by
  induction n generalizing len with
  | zero => simp [getBytes, beBytes, Nat.mod_one]
  | succ n ih =>
    have hd : v / 256 ^ n % 256 < 256 := Nat.mod_lt _ (by omega)
    have hpos : 0 < 256 ^ n := Nat.pow_pos (by omega)
    have hnext : (len * 256 + v / 256 ^ n % 256 + 1) * 256 ^ n ≤ 2 ^ 64 :=
      calc _ ≤ (len + 1) * 256 * 256 ^ n := Nat.mul_le_mul_right _ (by omega)
        _ = (len + 1) * 256 ^ (n + 1) := by rw [pow_succ]; ring
        _ ≤ 2 ^ 64 := h
    have hlt : len * 256 + v / 256 ^ n % 256 < 2 ^ 64 :=
      Nat.lt_of_lt_of_le (Nat.lt_succ_self _) (Nat.le_trans (Nat.le_mul_of_pos_right _ hpos) hnext)
    have hval : ((Fin.ofNat 256 (v / 256 ^ n % 256) : Octet) : Nat) = v / 256 ^ n % 256 := Nat.mod_eq_of_lt hd
    rw [beBytes, map_cons, cons_append, getBytes, hval, Nat.mod_eq_of_lt hlt, ih hnext, pow_succ, Nat.mod_mul]
    congr 2
    ring

@[simp] theorem length_putlen (l : Nat) : (entryPutlen l).length = entryLenlen l := by
  unfold entryPutlen entryLenlen
  split_ifs <;> simp

theorem getlen_long {k : Nat} (h0 : 0 < k) (hk : k ≤ 4) (l : Nat) (t : List Octet) :
    entryGetlen (Fin.ofNat 256 (0x80 ||| k) :: ((beBytes k l).map (Fin.ofNat 256) ++ t)) = some (l % 256 ^ k, t) := by
  have hpow : (0 + 1) * 256 ^ k ≤ 2 ^ 64 := by
    have : 256 ^ k ≤ 256 ^ 4 := Nat.pow_le_pow_right (by omega) hk
    omega
  have hhead : ¬ ((Fin.ofNat 256 (0x80 ||| k) : Octet) : Nat) ≤ 0x7f ∧ ((Fin.ofNat 256 (0x80 ||| k) : Octet) : Nat) &&& 0x7f = k := by
    interval_cases k <;> decide
  rw [entryGetlen, if_neg hhead.1, hhead.2, getBytes_beBytes k l hpow, Nat.zero_mul, Nat.zero_add]

theorem getlen_putlen (l : Nat) (t : List Octet) : entryGetlen (entryPutlen l ++ t) = some (l % 2 ^ 32, t) := by
  unfold entryPutlen entryLenlen
  split_ifs with h1 h2 h3 h4
  · have hval : ((Fin.ofNat 256 l : Octet) : Nat) = l := Nat.mod_eq_of_lt (by omega)
    simp only [if_true, singleton_append, entryGetlen, hval, if_pos (Nat.le_of_lt_succ h1)]
    rw [Nat.mod_eq_of_lt (by omega)]
  · refine (getlen_long (by omega) (by omega) l t).trans ?_
    rw [Nat.mod_eq_of_lt (by omega), Nat.mod_eq_of_lt (by omega)]
  · refine (getlen_long (by omega) (by omega) l t).trans ?_
    rw [Nat.mod_eq_of_lt (by omega), Nat.mod_eq_of_lt (by omega)]
  · refine (getlen_long (by omega) (by omega) l t).trans ?_
    rw [Nat.mod_eq_of_lt (by omega), Nat.mod_eq_of_lt (by omega)]
  · exact getlen_long (by omega) (by omega) l t

theorem getlen_of_lt {l : Nat} (h : l < 2 ^ 32) (t : List Octet) : entryGetlen (entryPutlen l ++ t) = some (l, t) := by
  rw [getlen_putlen, Nat.mod_eq_of_lt h]

theorem bind_ite {α β : Type} {p : Prop} [Decidable p] (x : α) (f : α → Option β) :
    (if p then some x else none).bind f = if p then f x else none := by
  split_ifs <;> rfl

theorem stringAt_encode (h : s.length < 2 ^ 32) (t : List Octet) :
    stringAt s.length (s ++ [0] ++ t) = if s.length < 2 ^ 31 then some (s, t) else none := by
  unfold stringAt
  split_ifs with hint hlt hlt
  · rw [castInt_eq hlt]
    simp
  · exact absurd (castInt_neg (Nat.le_of_not_lt hlt) h) (by omega)
  · rw [castInt_eq hlt] at hint
    exact absurd (by simp; omega) hint
  · rfl

theorem decodeString_encode (h : s.length < 2 ^ 32) (t : List Octet) :
    decodeString (encodeString s ++ t) = if s.length < 2 ^ 31 then some (s, t) else none := by
  rw [decodeString, encodeString, append_assoc, getlen_of_lt h, bind_eq_bind, bind_some]
  exact stringAt_encode h t

theorem decodeVals_encode {vs : List (List Octet)} (h : ∀ v ∈ vs, v.length < 2 ^ 32) (t : List Octet) :
    decodeVals vs.length (vs.flatMap encodeString ++ t) = if ∀ v ∈ vs, v.length < 2 ^ 31 then some (vs, t) else none := by
  induction vs with
  | nil => rfl
  | cons v vs ih =>
    obtain ⟨hv, hvs⟩ := List.forall_mem_cons.mp h
    rw [length_cons, decodeVals, flatMap_cons, append_assoc, decodeString_encode hv, bind_eq_bind, bind_ite]
    simp only [ih hvs, bind_eq_bind, bind_ite, forall_mem_cons, ite_and]

/-! ## Attributes -/

def encodeArray (vs : List (List Octet)) : List Octet := entryPutlen vs.length ++ vs.flatMap encodeString

theorem encodeAttr_eq (S : Schema δ) (a : Attribute δ) : encodeAttr S a =
    encodeString (S.cname a.desc) ++ (encodeArray a.vals ++ encodeArray (a.nvals.getD [])) := by
  have hvals := a.numvals_eq
  have hnvals := a.nvals_eq
  unfold encodeAttr encodeArray
  cases hn : a.nvals with
  | none => simp
  | some ns => simp [← hvals, hnvals ns hn]

theorem decodeArray_encode {vs : List (List Octet)} (h : ∀ v ∈ vs, v.length < 2 ^ 32) (hn : vs.length < 2 ^ 31) (t : List Octet) :
    decodeArray (encodeArray vs ++ t) = if ∀ v ∈ vs, v.length < 2 ^ 31 then some (vs, t) else none := by
  have hpos : ¬ (vs.length : Int) < 0 := by omega
  rw [decodeArray, encodeArray, append_assoc, getlen_of_lt (by omega), bind_eq_bind, bind_some]
  simp only [castInt_eq hn, if_neg hpos, Int.toNat_natCast]
  exact decodeVals_encode h t

def attrBody (S : Schema δ) (a : Attribute δ) : List Octet :=
  S.cname a.desc ++ [0] ++ (encodeArray a.vals ++ encodeArray (a.nvals.getD []))

theorem length_nvals (a : Attribute δ) : (a.nvals.getD []).length ≤ a.vals.length := by
  have hvals := a.numvals_eq
  have hnvals := a.nvals_eq
  cases hn : a.nvals with
  | none => simp
  | some ns => simp [← hvals, hnvals ns hn]

def readBack (S : Schema δ) (a : Attribute δ) : Option (AttributeView δ × Nat) := do
  let ns := a.nvals.getD []
  let desc ← S.bv2ad (S.cname a.desc)
  let (vals', nvals') ← sortVals S desc a.vals (if ns = [] then none else some ns)
  some (⟨desc, vals', some nvals', a.vals.length⟩, a.vals.length + 1 + if ns = [] then 0 else ns.length + 1)

theorem decodeAttr_encode (h : ∀ s ∈ S.cname a.desc :: a.strings, s.length < 2 ^ 32) (hn : a.vals.length < 2 ^ 31)
    (t : List Octet) : decodeAttr S (S.cname a.desc).length (attrBody S a ++ t) =
      if ∀ s ∈ S.cname a.desc :: a.strings, s.length < 2 ^ 31 then (readBack S a).map fun r => (r.1, r.2, t) else none := by
  obtain ⟨hname, hstrings⟩ := List.forall_mem_cons.mp h
  obtain ⟨hv, hns⟩ := List.forall_mem_append.mp hstrings
  have hlen := Nat.lt_of_le_of_lt (length_nvals a) hn
  rw [decodeAttr, attrBody, append_assoc, stringAt_encode hname, readBack, bind_eq_bind, bind_ite]
  simp only [append_assoc, decodeArray_encode hv hn, decodeArray_encode hns hlen, forall_mem_cons, Attribute.strings,
    forall_mem_append, ite_and, bind_eq_bind, bind_ite, Option.map_bind, Function.comp_def, map_some]
  cases S.bv2ad (S.cname a.desc) <;> simp

theorem readBack_of_good (hg : AttrGood S a) : readBack S a = some (attrDup a, a.bervals) := by
  have hsorted := hg.sorted
  have hvalued := hg.valued
  rw [readBack, hg.found, attrDup_eq, a.numvals_eq, Attribute.bervals]
  cases hns : a.nvals with
  | none =>
    rw [hns] at hsorted
    simp [hsorted]
  | some ns =>
    rw [hns] at hsorted hvalued
    have hne : ns ≠ [] := fun hnil => hvalued (congrArg some hnil)
    simp [hsorted, hne]

/-- An array of no normalized values takes a berval in the entry, and none when it is read. -/
theorem good_of_readBack (hnamed : S.cname a.desc ≠ []) (hshort : ∀ s ∈ S.cname a.desc :: a.strings, s.length < 2 ^ 31)
    {slots : Nat} (h : readBack S a = some (attrDup a, slots)) : slots ≤ a.bervals ∧ (a.bervals ≤ slots → AttrGood S a) := by
  obtain ⟨desc, hdesc, h⟩ := Option.bind_eq_some_iff.mp h
  obtain ⟨⟨vals', nvals'⟩, hsort, h⟩ := Option.bind_eq_some_iff.mp h
  rw [attrDup_eq] at h
  simp only [Option.some.injEq, Prod.mk.injEq, AttributeView.mk.injEq] at h
  obtain ⟨⟨rfl, rfl, rfl, -⟩, rfl⟩ := h
  unfold Attribute.bervals
  cases hns : a.nvals with
  | none =>
    rw [hns] at hsort
    exact ⟨by simp, fun _ => ⟨hnamed, hdesc, hshort, by rw [hns]; simpa using hsort, by simp [hns]⟩⟩
  | some ns =>
    by_cases hnil : ns = []
    · simp [hnil]
    · rw [hns] at hsort
      refine ⟨by simp [hnil], fun _ => ⟨hnamed, hdesc, hshort, by rw [hns]; simpa [hnil] using hsort, ?_⟩⟩
      rw [hns]
      exact fun h => hnil (Option.some.inj h)

theorem encodeAttr_append (S : Schema δ) (a : Attribute δ) (t : List Octet) :
    encodeAttr S a ++ t = entryPutlen (S.cname a.desc).length ++ (attrBody S a ++ t) := by
  simp only [encodeAttr_eq, encodeString, attrBody, append_assoc]

theorem decodeAttrs_end (n : Nat) : decodeAttrs S n [] = none := by cases n <;> rfl

theorem decodeAttrs_cons (hnamed : S.cname a.desc ≠ []) (hname : (S.cname a.desc).length < 2 ^ 32) (n : Nat) (t : List Octet) :
    decodeAttrs S (n + 1) (encodeAttr S a ++ t) = (do
      let (b, slots, t) ← decodeAttr S (S.cname a.desc).length (attrBody S a ++ t)
      if n = 0 then some ([b], slots)
      else
        let (bs, rest) ← decodeAttrs S n t
        some (b :: bs, slots + rest)) := by
  rw [encodeAttr_append, decodeAttrs, getlen_of_lt hname, bind_eq_bind, bind_some]
  exact if_neg (castInt_ne_zero (List.length_pos_iff.mpr hnamed) hname)

theorem decodeAttrs_unnamed (h : S.cname a.desc = []) (n : Nat) (t : List Octet) :
    decodeAttrs S (n + 1) (encodeAttr S a ++ t) = some ([], 0) := by
  rw [encodeAttr_append, decodeAttrs, h, getlen_of_lt (by decide)]
  rfl

theorem decodeAttrs_of_good (hne : as ≠ []) (hg : ∀ a ∈ as, AttrGood S a) (hn : ∀ a ∈ as, a.vals.length < 2 ^ 31)
    (t : List Octet) : decodeAttrs S as.length (as.flatMap (encodeAttr S) ++ t) =
      some (as.map attrDup, (as.map Attribute.bervals).sum) := by
  induction as with
  | nil => exact absurd rfl hne
  | cons a as ih =>
    obtain ⟨hga, hgas⟩ := List.forall_mem_cons.mp hg
    obtain ⟨hna, hnas⟩ := List.forall_mem_cons.mp hn
    have hlt : ∀ s ∈ S.cname a.desc :: a.strings, s.length < 2 ^ 32 := fun s hs => Nat.lt_trans (hga.short s hs) (by omega)
    rw [length_cons, flatMap_cons, append_assoc, decodeAttrs_cons hga.named (hlt _ mem_cons_self),
      decodeAttr_encode hlt hna, if_pos hga.short, readBack_of_good hga]
    cases as with
    | nil => simp
    | cons b bs =>
      have hrest := ih (cons_ne_nil _ _) hgas hnas
      simp only [map_some, bind_eq_bind, bind_some, length_cons, Nat.add_eq_zero_iff, one_ne_zero, and_false,
        if_false]
      rw [length_cons] at hrest
      simp only [hrest, bind_some, map_cons, sum_cons]

theorem good_of_decodeAttrs (hne : as ≠ []) (hs : ∀ a ∈ as, ∀ s ∈ S.cname a.desc :: a.strings, s.length < 2 ^ 32)
    (hn : ∀ a ∈ as, a.vals.length < 2 ^ 31) {slots : Nat}
    (h : decodeAttrs S as.length (as.flatMap (encodeAttr S) ++ t) = some (as.map attrDup, slots)) :
    slots ≤ (as.map Attribute.bervals).sum ∧ ((as.map Attribute.bervals).sum ≤ slots → ∀ a ∈ as, AttrGood S a) := by
  induction as generalizing slots with
  | nil => exact absurd rfl hne
  | cons a as ih =>
    obtain ⟨hsa, hsas⟩ := List.forall_mem_cons.mp hs
    obtain ⟨hna, hnas⟩ := List.forall_mem_cons.mp hn
    rw [length_cons, flatMap_cons, append_assoc] at h
    have hnamed : S.cname a.desc ≠ [] := by
      intro hnil
      rw [decodeAttrs_unnamed hnil] at h
      cases (Prod.mk.inj (Option.some.inj h)).1
    rw [decodeAttrs_cons hnamed (hsa _ mem_cons_self)] at h
    obtain ⟨r, hr, h⟩ := Option.bind_eq_some_iff.mp h
    rw [decodeAttr_encode hsa hna] at hr
    obtain ⟨hshort, hr⟩ := Option.ite_none_right_eq_some.mp hr
    obtain ⟨⟨a', used⟩, hback, rfl⟩ := Option.map_eq_some_iff.mp hr
    cases as with
    | nil =>
      simp only [length_nil, if_true, Option.some.injEq, Prod.mk.injEq, map_cons, map_nil, List.cons.injEq,
        and_true] at h
      obtain ⟨rfl, rfl⟩ := h
      obtain ⟨hle, hgood⟩ := good_of_readBack hnamed hshort hback
      simpa using ⟨hle, hgood⟩
    | cons b bs =>
      simp only [length_cons, Nat.add_eq_zero_iff, one_ne_zero, and_false, if_false] at h
      obtain ⟨⟨as', rest⟩, hrest, h⟩ := Option.bind_eq_some_iff.mp h
      simp only [Option.some.injEq, Prod.mk.injEq, map_cons, List.cons.injEq] at h
      obtain ⟨⟨rfl, rfl⟩, rfl⟩ := h
      obtain ⟨hle, hgood⟩ := good_of_readBack hnamed hshort hback
      obtain ⟨hles, hgoods⟩ := ih (cons_ne_nil _ _) hsas hnas hrest
      rw [map_cons, sum_cons]
      exact ⟨by omega, fun hsum => List.forall_mem_cons.mpr ⟨hgood (by omega), hgoods (by omega)⟩⟩

@[simp] theorem length_encodeString (s : List Octet) : (encodeString s).length = stringLen s := by
  rw [encodeString, stringLen, length_append, length_putlen, length_append, length_singleton, Nat.add_comm]

theorem length_encodeArray (vs : List (List Octet)) : (encodeArray vs).length = arrayLen vs := by
  simp [encodeArray, arrayLen, stringsLen, length_flatMap]

theorem length_encodeAttr (a : Attribute δ) : (encodeAttr S a).length = a.codeLen S.cname := by
  simp only [encodeAttr_eq, length_append, length_encodeString, length_encodeArray, Attribute.codeLen]

theorem length_entryEncode (S : Schema δ) (e : Entry δ) : (entryEncode S e).length = (entryPartsize S.cname e true).len := by
  have hattrs : (e.attrs.flatMap (encodeAttr S)).length = (e.attrs.map (Attribute.codeLen S.cname)).sum := by
    rw [length_flatMap]
    exact congrArg List.sum (map_congr_left fun a _ => length_encodeAttr a)
  simp only [entryEncode, entryPartsize_eq, length_append, length_putlen, length_encodeString, hattrs]
  omega

def Entry.strings (S : Schema δ) (e : Entry δ) : List (List Octet) :=
  e.name :: e.nname :: e.attrs.flatMap fun a => S.cname a.desc :: a.strings

theorem counts_le (ha : a ∈ as) : a.vals.length < (as.map Attribute.bervals).sum ∧ as.length ≤ (as.map Attribute.bervals).sum := by
  have hpos : ∀ b : Attribute δ, b.vals.length < b.bervals := fun b => Nat.lt_of_lt_of_le (Nat.lt_succ_self _) (Nat.le_add_right _ _)
  have hone : ∀ n ∈ as.map Attribute.bervals, 1 ≤ n := by
    intro n hn
    obtain ⟨b, -, rfl⟩ := List.mem_map.mp hn
    exact Nat.lt_of_le_of_lt (Nat.zero_le _) (hpos b)
  refine ⟨Nat.lt_of_lt_of_le (hpos a) (single_le_sum (fun _ _ => Nat.zero_le _) _ (List.mem_map_of_mem ha)), ?_⟩
  simpa using length_le_sum_of_one_le _ hone

theorem lt_of_castInt {n : Nat} (h : (n : Int) = castInt (n % 2 ^ 32)) : n < 2 ^ 31 := by
  have hint : castInt (n % 2 ^ 32) < 2 ^ 31 := Int.bmod_lt (by norm_num)
  omega

theorem entryHeader_encode (S : Schema δ) (e : Entry δ) : entryHeader (entryEncode S e) =
    some ⟨castInt (e.attrs.length % 2 ^ 32), castInt ((e.attrs.map Attribute.bervals).sum % 2 ^ 32),
      encodeString e.name ++ (encodeString e.nname ++ e.attrs.flatMap (encodeAttr S))⟩ := by
  rw [entryHeader, entryEncode, getlen_putlen, bind_eq_bind, bind_some]
  simp only [getlen_putlen, bind_some, entryPartsize_eq]

theorem entryDecode_encode {s s' : List Octet} (hs : s.length < 2 ^ 32) (hs' : s'.length < 2 ^ 32) (n z : Int) (t : List Octet) :
    entryDecode S ⟨n, z, encodeString s ++ (encodeString s' ++ t)⟩ = if s.length < 2 ^ 31 ∧ s'.length < 2 ^ 31 then
      (decodeAttrs S n.toNat t).map fun r => ⟨s, s', r.1, r.2⟩ else none := by
  simp only [entryDecode, decodeString_encode hs, decodeString_encode hs', bind_eq_bind, bind_ite, ite_and,
    map_eq_bind, Function.comp_def]

theorem entry_decode_iff (S : Schema δ) (e : Entry δ) (h : ∀ s ∈ e.strings S, s.length < 2 ^ 32) : DecodeRight S e ↔
    e.attrs ≠ [] ∧ (entryPartsize S.cname e true).nvals < 2 ^ 31 ∧ e.name.length < 2 ^ 31 ∧ e.nname.length < 2 ^ 31 ∧
      ∀ a ∈ e.attrs, AttrGood S a := by
  obtain ⟨hname, h⟩ := List.forall_mem_cons.mp h
  obtain ⟨hnname, h⟩ := List.forall_mem_cons.mp h
  have hstrings : ∀ a ∈ e.attrs, ∀ s ∈ S.cname a.desc :: a.strings, s.length < 2 ^ 32 :=
    fun a ha s hs => h s (List.mem_flatMap.mpr ⟨a, ha, hs⟩)
  constructor
  · rintro ⟨-, eh, d, heh, hd, -, -, hattrs, hslots, hint⟩
    rw [entryHeader_encode] at heh
    obtain rfl := Option.some.inj heh
    rw [entryDecode_encode hname hnname] at hd
    obtain ⟨⟨hn, hnn⟩, hd⟩ := Option.ite_none_right_eq_some.mp hd
    obtain ⟨⟨views, slots⟩, hread, rfl⟩ := Option.map_eq_some_iff.mp hd
    simp only [entryPartsize_eq] at hattrs hslots hint hread ⊢
    subst hattrs hslots
    have hcount := lt_of_castInt hint
    have hne : e.attrs ≠ [] := by
      intro hnil
      rw [hnil, flatMap_nil, decodeAttrs_end] at hread
      cases hread
    obtain ⟨b, hb⟩ := exists_mem_of_ne_nil _ hne
    have hlen := (counts_le hb).2
    rw [Nat.mod_eq_of_lt (by omega), castInt_eq (by omega), Int.toNat_natCast, ← List.append_nil (e.attrs.flatMap _)] at hread
    have hgood := (good_of_decodeAttrs hne hstrings (fun a ha => Nat.lt_trans (counts_le ha).1 hcount) hread).2 (Nat.le_refl _)
    exact ⟨hne, hcount, hn, hnn, hgood⟩
  · rintro ⟨hne, hcount, hn, hnn, hgood⟩
    simp only [entryPartsize_eq] at hcount
    obtain ⟨b, hb⟩ := exists_mem_of_ne_nil _ hne
    have hlen := (counts_le hb).2
    have hread := decodeAttrs_of_good hne hgood (fun a ha => Nat.lt_trans (counts_le ha).1 hcount) []
    rw [List.append_nil] at hread
    refine ⟨length_entryEncode S e, _, ⟨e.name, e.nname, e.attrs.map attrDup, (e.attrs.map Attribute.bervals).sum⟩,
      entryHeader_encode S e, ?_, rfl, rfl, rfl, by rw [entryPartsize_eq], ?_⟩
    · rw [Nat.mod_eq_of_lt (by omega), castInt_eq (by omega), entryDecode_encode hname hnname, if_pos ⟨hn, hnn⟩, Int.toNat_natCast,
        hread]
      rfl
    · simp only
      rw [Nat.mod_eq_of_lt (by omega), castInt_eq hcount]

end

def bareSchema : Schema (List Octet) := ⟨id, some, fun _ => false, fun _ _ _ => (0, .eq)⟩

def cnEntry : Entry (List Octet) := ⟨1, [99, 110, 61, 65], [99, 110, 61, 97], [⟨[99, 110], [[65]], some [[97]], 1, rfl, by simp⟩], 0, by simp⟩

theorem entry_decode_cn : DecodeRight bareSchema cnEntry :=
  (entry_decode_iff bareSchema cnEntry (by decide)).mpr ⟨by decide, by decide, by decide, by decide, fun a ha => by
    obtain rfl := List.mem_singleton.mp ha
    exact ⟨by decide, rfl, by decide, rfl, by decide⟩⟩

/-- The empty entry: the decoder looks for the name of an attribute behind the encoding. -/
theorem entry_decode_no_attrs : ¬ DecodeRight bareSchema ⟨0, [], [], [], 0, by simp⟩ := by
  rintro ⟨-, eh, d, heh, hd, -⟩
  rw [entryHeader_encode] at heh
  obtain rfl := Option.some.inj heh
  rw [entryDecode_encode (by decide) (by decide), flatMap_nil, decodeAttrs_end] at hd
  cases hd

end EntryBlock
end Slapd
end ReOpenLDAP
