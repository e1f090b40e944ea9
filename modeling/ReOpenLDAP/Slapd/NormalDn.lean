import ReOpenLDAP.BackMdb.Dn
import ReOpenLDAP.Libreldap.DnPretty

/-!
# Slapd.NormalDn

`dnNormalize`, and what its texts are made of.

The reader of DNs and the schema are parameters.
-/

namespace ReOpenLDAP
namespace Slapd
namespace DnStrings

open Ascii Libreldap.Getdn BackMdb List

/-- What is read of a description and of its type. A matching rule that is used here need not normalize. -/
structure AttributeDescription where
  ad_cname : List Octet
  orderedVal : Bool
  ssyn_validate : Option (List Octet → Bool)
  smr_normalize : Option (List Octet → Option (List Octet))

section

variable (bv2ad : List Octet → Option AttributeDescription)

/-- The loop of `LDAPRDN_rewrite`. -/
def rewriteAva (ava : LDAPAVA) : Option LDAPAVA :=
  (bv2ad ava.la_attr).bind fun ad =>
    if ava.la_flags = .binary then none
    else if ad.orderedVal then none
    else if ad.ssyn_validate.any fun validate => !validate ava.la_value then none
    else
      (ad.smr_normalize.elim (some ava.la_value) fun normalize => normalize ava.la_value).bind fun value =>
        if value = [] then none else some ⟨ad.ad_cname, value, ava.la_flags⟩

/-- The inner loop of `AVA_Sort`, over the AVAs that are sorted, the last one first. -/
def insertAva (ava : LDAPAVA) : LDAPRDN → Option LDAPRDN
  | [] => some [ava]
  | x :: xs =>
    if ava.la_attr = x.la_attr then none
    else if x.la_attr < ava.la_attr then some (ava :: x :: xs)
    else (insertAva ava xs).map (x :: ·)

def avaSort (rdn : LDAPRDN) : Option LDAPRDN := (rdn.foldlM (fun sorted ava => insertAva ava sorted) []).map List.reverse

/-- `LDAPRDN_rewrite` -/
def rdnRewrite (rdn : LDAPRDN) : Option LDAPRDN := (rdn.mapM (rewriteAva bv2ad)).bind avaSort

/-- `dnNormalize`; `bv2dn` is `ldap_bv2dn_x` with `LDAP_DN_FORMAT_LDAP`. -/
def dnNormalize (bv2dn : List Octet → Option LDAPDN) (val : List Octet) : Option (List Octet) :=
  if val = [] then some [] else (bv2dn val).bind fun dn => (dn.mapM (rdnRewrite bv2ad)).bind dn2bvV3

end

/-! ## Normal DNs -/

def attrLeadchar (c : Octet) : Bool := isAlpha c || isDigit c

def adChar (c : Octet) : Bool := isAlnum c || c = ascii '-' || c = ascii '.' || c = ascii ';'

/-- `ad_keystring` -/
structure Keystring (bv : List Octet) : Prop where
  lead : ∃ c t, bv = c :: t ∧ attrLeadchar c = true
  chars : ∀ c ∈ bv, adChar c = true

@[ext] structure NormalAva where
  la_attr : List Octet
  la_value : List Octet
  keystring : Keystring la_attr
  nonempty : la_value ≠ []
  utf8 : ∃ l, strLength true 0 la_value = some l

def NormalAva.text (ava : NormalAva) : List Octet := ava.la_attr ++ ascii '=' :: strText true 0 ava.la_value

@[ext] structure NormalRdn where
  avas : List NormalAva
  nonempty : avas ≠ []

def NormalRdn.bytes (rdn : NormalRdn) : List Octet := joined (ascii '+') (rdn.avas.map NormalAva.text)

abbrev NormalDn := List NormalRdn

theorem adChar_spec {c : Octet} (h : adChar c = true) : c ≠ ascii ',' ∧ c ≠ ascii '+' ∧ c ≠ ascii '=' := by
  refine ⟨?_, ?_, ?_⟩ <;> rintro rfl <;> exact absurd h (by decide)

theorem NormalAva.no_sep (ava : NormalAva) : ∀ c ∈ ava.text, c ≠ ascii ',' ∧ c ≠ ascii '+' := by
  obtain ⟨l, hl⟩ := ava.utf8
  refine List.forall_mem_append.mpr ⟨fun c hc => ?_, List.forall_mem_cons.mpr ⟨by decide, strText_no_sep hl⟩⟩
  obtain ⟨hcomma, hplus, -⟩ := adChar_spec (ava.keystring.chars c hc)
  exact ⟨hcomma, hplus⟩

theorem NormalAva.ne_nil (ava : NormalAva) : ava.text ≠ [] := by simp [NormalAva.text]

theorem mem_joined {sep : Octet} {ts : List (List Octet)} {c : Octet} (h : c ∈ joined sep ts) : c = sep ∨ ∃ t ∈ ts, c ∈ t := by
  induction ts with
  | nil => cases h
  | cons t ts ih =>
    cases ts with
    | nil => exact .inr ⟨t, mem_cons_self, h⟩
    | cons u ts =>
      rw [joined, mem_append, mem_cons] at h
      rcases h with ht | rfl | hc
      · exact .inr ⟨t, mem_cons_self, ht⟩
      · exact .inl rfl
      · refine (ih hc).imp id ?_
        rintro ⟨v, hv, hcv⟩
        exact ⟨v, mem_cons_of_mem t hv, hcv⟩

theorem NormalRdn.comma_notMem (rdn : NormalRdn) : comma ∉ rdn.bytes := by
  intro h
  rcases mem_joined h with hsep | ⟨t, ht, hc⟩
  · exact absurd hsep (by decide)
  · obtain ⟨ava, -, rfl⟩ := List.mem_map.mp ht
    exact (ava.no_sep comma hc).1 rfl

theorem NormalRdn.bytes_ne_nil (rdn : NormalRdn) : rdn.bytes ≠ [] := by
  obtain ⟨ava, avas, havas⟩ := exists_cons_of_ne_nil rdn.nonempty
  rw [NormalRdn.bytes, havas, map_cons]
  cases avas with
  | nil => exact ava.ne_nil
  | cons ava' avas => simp [joined]

def NormalRdn.toRdn (rdn : NormalRdn) : Rdn := ⟨rdn.bytes, rdn.bytes_ne_nil, rdn.comma_notMem⟩

def text (a : NormalDn) : List Byte := Dn.str [] (a.map NormalRdn.toRdn)

theorem joined_comma (ts : List (List Octet)) : joined (ascii ',') ts = joinRdns ts := by
  induction ts with
  | nil => rfl
  | cons t ts ih =>
    cases ts with
    | nil => rfl
    | cons u ts =>
      rw [joined, joinRdns, ih]
      rfl

theorem text_eq (a : NormalDn) : text a = joined (ascii ',') (a.map NormalRdn.bytes) := by
  rw [joined_comma, text, Dn.str, Dn.parts, if_pos rfl, List.append_nil, List.map_map]
  rfl

theorem insertAva_perm {ava : LDAPAVA} {xs ys : LDAPRDN} (h : insertAva ava xs = some ys) : ys.Perm (ava :: xs) := by
  induction xs generalizing ys with
  | nil =>
    obtain rfl := Option.some.inj h
    exact List.Perm.refl _
  | cons x xs ih =>
    rw [insertAva] at h
    split_ifs at h
    · obtain rfl := Option.some.inj h
      exact List.Perm.refl _
    · obtain ⟨zs, hzs, rfl⟩ := Option.map_eq_some_iff.mp h
      exact ((ih hzs).cons x).trans (List.Perm.swap ava x xs)

theorem avaSort_perm {rdn sorted : LDAPRDN} (h : avaSort rdn = some sorted) : sorted.Perm rdn := by
  obtain ⟨zs, hzs, rfl⟩ := Option.map_eq_some_iff.mp h
  have hfold : ∀ (rdn acc zs : LDAPRDN), rdn.foldlM (fun sorted ava => insertAva ava sorted) acc = some zs →
      zs.Perm (rdn ++ acc) := by
    intro rdn
    induction rdn with
    | nil =>
      intro acc zs h
      obtain rfl : acc = zs := Option.some.inj h
      exact List.Perm.refl _
    | cons ava rdn ih =>
      intro acc zs h
      rw [foldlM_cons] at h
      obtain ⟨acc', hacc, h⟩ := Option.bind_eq_some_iff.mp h
      have hperm := ih acc' zs h
      refine hperm.trans (((insertAva_perm hacc).append_left rdn).trans ?_)
      exact perm_middle
  exact (reverse_perm zs).trans (by simpa using hfold rdn [] zs hzs)

theorem mem_mapM {α β : Type*} {f : α → Option β} {xs : List α} {ys : List β} (h : xs.mapM f = some ys) :
    (∀ y ∈ ys, ∃ x ∈ xs, f x = some y) ∧ ys.length = xs.length := by
  induction xs generalizing ys with
  | nil =>
    obtain rfl : [] = ys := Option.some.inj h
    exact ⟨by simp, rfl⟩
  | cons x xs ih =>
    rw [mapM_cons] at h
    obtain ⟨y, hy, h⟩ := Option.bind_eq_some_iff.mp h
    obtain ⟨zs, hzs, h⟩ := Option.bind_eq_some_iff.mp h
    obtain rfl : y :: zs = ys := Option.some.inj h
    obtain ⟨hmem, hlen⟩ := ih hzs
    refine ⟨List.forall_mem_cons.mpr ⟨⟨x, mem_cons_self, hy⟩, fun z hz => ?_⟩, congrArg (· + 1) hlen⟩
    obtain ⟨w, hw, hfw⟩ := hmem z hz
    exact ⟨w, mem_cons_of_mem x hw, hfw⟩

/-- What `LDAPRDN_rewrite` leaves. -/
structure Rewritten (ava : LDAPAVA) : Prop where
  keystring : Keystring ava.la_attr
  nonempty : ava.la_value ≠ []
  string : ava.la_flags ≠ .binary

variable {bv2ad : List Octet → Option AttributeDescription} (hname : ∀ {attr ad}, bv2ad attr = some ad → Keystring ad.ad_cname)

include hname

theorem rewriteAva_rewritten {ava ava' : LDAPAVA} (h : rewriteAva bv2ad ava = some ava') : Rewritten ava' := by
  obtain ⟨ad, had, h⟩ := Option.bind_eq_some_iff.mp h
  split_ifs at h with hbin
  obtain ⟨value, -, h⟩ := Option.bind_eq_some_iff.mp h
  split_ifs at h with hempty
  obtain rfl := Option.some.inj h
  exact ⟨hname had, hempty, hbin⟩

theorem rdnRewrite_rewritten {rdn rdn' : LDAPRDN} (hne : rdn ≠ []) (h : rdnRewrite bv2ad rdn = some rdn') :
    rdn' ≠ [] ∧ ∀ ava ∈ rdn', Rewritten ava := by
  obtain ⟨avas, havas, hsort⟩ := Option.bind_eq_some_iff.mp h
  obtain ⟨hmem, hlen⟩ := mem_mapM havas
  have hperm := avaSort_perm hsort
  constructor
  · rintro rfl
    have hpos := length_pos_of_ne_nil hne
    have hzero := hperm.length_eq
    rw [length_nil] at hzero
    omega
  · intro ava hava
    obtain ⟨x, -, hx⟩ := hmem ava (hperm.mem_iff.mp hava)
    exact rewriteAva_rewritten hname hx

omit hname

theorem avaV3_normal {ava : LDAPAVA} (h : Rewritten ava) {l : ℕ} (hl : avaLengthV3 ava = some l) : ∃ a : NormalAva, a.text = avaV3 ava := by
  rw [avaLengthV3, if_neg h.string] at hl
  exact ⟨⟨ava.la_attr, ava.la_value, h.keystring, h.nonempty, l, hl⟩, by rw [NormalAva.text, avaV3, avaTextV3, if_neg h.string]⟩

theorem rdnV3_normal {rdn : LDAPRDN} (hne : rdn ≠ []) (h : ∀ ava ∈ rdn, Rewritten ava) {l : ℕ} (hl : rdn2strlenV3 rdn = some l) :
    ∃ r : NormalRdn, r.bytes = rdnV3 rdn := by
  have havas : ∃ avas : List NormalAva, avas.map NormalAva.text = rdn.map avaV3 := by
    clear hne
    induction rdn generalizing l with
    | nil => exact ⟨[], rfl⟩
    | cons ava rdn ih =>
      obtain ⟨hava, hrdn⟩ := List.forall_mem_cons.mp h
      obtain ⟨vl, hvl, hl⟩ := Option.bind_eq_some_iff.mp hl
      obtain ⟨l', hl', -⟩ := Option.map_eq_some_iff.mp hl
      obtain ⟨a, ha⟩ := avaV3_normal hava hvl
      obtain ⟨avas, havas⟩ := ih hrdn hl'
      exact ⟨a :: avas, by rw [map_cons, map_cons, ha, havas]⟩
  obtain ⟨avas, havas⟩ := havas
  refine ⟨⟨avas, ?_⟩, by rw [NormalRdn.bytes, havas, rdnV3]⟩
  rintro rfl
  exact hne (List.map_eq_nil_iff.mp havas.symm)

theorem rdns_normal {dn : LDAPDN} (h : ∀ rdn ∈ dn, rdn ≠ [] ∧ ∀ ava ∈ rdn, Rewritten ava) {len : ℕ} (hlen : sumLengthsV3 dn = some len) :
    ∃ a : NormalDn, a.map NormalRdn.bytes = dn.map rdnV3 := by
  induction dn generalizing len with
  | nil => exact ⟨[], rfl⟩
  | cons rdn dn ih =>
    obtain ⟨⟨hne, havas⟩, hdn⟩ := List.forall_mem_cons.mp h
    obtain ⟨l, hl, hlen⟩ := Option.bind_eq_some_iff.mp hlen
    obtain ⟨len', hlen', -⟩ := Option.map_eq_some_iff.mp hlen
    obtain ⟨r, hr⟩ := rdnV3_normal hne havas hl
    obtain ⟨a, ha⟩ := ih hdn hlen'
    exact ⟨r :: a, by rw [map_cons, map_cons, hr, ha]⟩

theorem joined_eq_intercalate (sep : Octet) (ts : List (List Octet)) : joined sep ts = [sep].intercalate ts := by
  induction ts with
  | nil => rfl
  | cons t ts ih =>
    cases ts with
    | nil => rw [joined, intercalate_singleton]
    | cons u ts => rw [joined, intercalate_cons_cons, ih, append_assoc]; rfl

theorem NormalAva.text_injective {a b : NormalAva} (h : a.text = b.text) : a = b := by
  have hpos (x : NormalAva) : ∀ c ∈ x.la_attr, decide (c ≠ ascii '=') = true := fun c hc => by
    simpa using (adChar_spec (x.keystring.chars c hc)).2.2
  have hattr := congrArg (List.takeWhile fun c => decide (c ≠ ascii '=')) h
  have hvalue := congrArg (List.dropWhile fun c => decide (c ≠ ascii '=')) h
  simp only [NormalAva.text, takeWhile_append_of_pos (hpos _)] at hattr
  simp only [NormalAva.text, dropWhile_append_of_pos (hpos _)] at hvalue
  have hattr : a.la_attr = b.la_attr := by simpa using hattr
  have hvalue : a.la_value = b.la_value := strText_injective (by simpa using hvalue)
  exact NormalAva.ext hattr hvalue

theorem bytes_injective {r s : NormalRdn} (h : r.bytes = s.bytes) : r = s := by
  have hsplit (x : NormalRdn) : x.bytes.splitOn (ascii '+') = x.avas.map NormalAva.text := by
    rw [NormalRdn.bytes, joined_eq_intercalate]
    refine splitOn_intercalate (ascii '+') (fun t ht hplus => ?_) (by simpa using x.nonempty)
    obtain ⟨ava, -, rfl⟩ := List.mem_map.mp ht
    exact (ava.no_sep _ hplus).2 rfl
  have havas : r.avas = s.avas := by
    refine List.map_injective_iff.mpr (fun a b => NormalAva.text_injective) ?_
    rw [← hsplit r, ← hsplit s, h]
  exact NormalRdn.ext havas

end DnStrings
end Slapd
end ReOpenLDAP
