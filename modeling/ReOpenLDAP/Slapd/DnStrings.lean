import ReOpenLDAP.Slapd.NormalDn

/-!
# Slapd.DnStrings

The functions of dn.c that look at the text of a normalized DN.
-/

namespace ReOpenLDAP
namespace Slapd
namespace DnStrings

open Ascii Libreldap.Getdn BackMdb List

/-- `dnIsSuffix`. The difference of the lengths is an `int`. -/
def dnIsSuffix (dn suffix : List Byte) : Bool :=
  let d : ℤ := Int.bmod (dn.length - suffix.length) 4294967296
  if suffix = [] then true
  else if d < 0 then false
  else if 1 < d ∧ ¬ DN_SEPARATOR (dn.getD (d.toNat - 1) 0) then false
  else if d = 1 then false
  else (dn.drop d.toNat).take suffix.length = suffix

def LDAP_SCOPE_DEFAULT : ℤ := -1

def LDAP_SCOPE_BASE : ℤ := 0

def LDAP_SCOPE_ONELEVEL : ℤ := 1

def LDAP_SCOPE_SUBTREE : ℤ := 2

def LDAP_SCOPE_SUBORDINATE : ℤ := 3

def dnIsWithinScope (ndn nbase : List Byte) (scope : ℤ) : ℤ :=
  if scope = LDAP_SCOPE_DEFAULT ∨ scope = LDAP_SCOPE_SUBTREE then 1
  else if scope = LDAP_SCOPE_BASE then if ndn.length ≠ nbase.length then 0 else 1
  else if scope = LDAP_SCOPE_ONELEVEL then if (dnParent ndn).length ≠ nbase.length then 0 else 1
  else if scope = LDAP_SCOPE_SUBORDINATE then if ndn.length = nbase.length then 0 else 1
  else -1

def dnIsSuffixScope (ndn nbase : List Byte) (scope : ℤ) : ℤ := if dnIsSuffix ndn nbase then dnIsWithinScope ndn nbase scope else 0

/-- `memcmp` over areas of one length. -/
def memcmp (a b : List Byte) : ℤ := if a = b then 0 else if a < b then -1 else 1

def dnIsOneLevelRDN (rdn : List Byte) : Bool := !rdn.any fun c => DN_SEPARATOR c

inductive RelativeRule where
  | dnSubtreeMatch
  | dnOneLevelMatch
  | dnSubordinateMatch
  | dnSuperiorMatch
deriving DecidableEq

def tailMatch (value asserted : List Byte) : ℤ :=
  if DN_SEPARATOR (value.getD (value.length - asserted.length - 1) 0) then
    memcmp (value.drop (value.length - asserted.length)) asserted
  else 1

def subordinateMatch (value asserted : List Byte) : ℤ :=
  if value.length ≤ asserted.length then -1 else tailMatch value asserted

def dnRelativeMatch (rule : RelativeRule) (value asserted : List Byte) : ℤ :=
  match rule with
  | .dnSubtreeMatch =>
    if value.length < asserted.length then -1
    else if asserted.length = value.length then memcmp value asserted
    else tailMatch value asserted
  | .dnSuperiorMatch => subordinateMatch asserted value
  | .dnSubordinateMatch => subordinateMatch value asserted
  | .dnOneLevelMatch =>
    if value.length ≤ asserted.length then -1
    else if tailMatch value asserted = 0 then
      if dnIsOneLevelRDN (value.take (value.length - asserted.length - 1)) then 0 else 1
    else tailMatch value asserted

def Asks (scope : ℤ) (extra : ℕ) : Prop :=
  scope = LDAP_SCOPE_DEFAULT ∨ scope = LDAP_SCOPE_SUBTREE ∨ scope = LDAP_SCOPE_BASE ∧ extra = 0 ∨
    scope = LDAP_SCOPE_ONELEVEL ∧ extra = 1 ∨ scope = LDAP_SCOPE_SUBORDINATE ∧ 1 ≤ extra

instance (scope : ℤ) (extra : ℕ) : Decidable (Asks scope extra) :=
  inferInstanceAs (Decidable (_ ∨ _ ∨ _ ∧ _ ∨ _ ∧ _ ∨ _ ∧ _))

def Related : RelativeRule → NormalDn → NormalDn → Prop
  | .dnSubtreeMatch, a, b => b <:+ a
  | .dnOneLevelMatch, a, b => ∃ r, a = r :: b
  | .dnSubordinateMatch, a, b => b <:+ a ∧ b ≠ a
  | .dnSuperiorMatch, a, b => a <:+ b ∧ a ≠ b

def Gap : RelativeRule → NormalDn → NormalDn → Prop
  | .dnSubtreeMatch, a, b => b = [] ∧ a ≠ []
  | .dnOneLevelMatch, a, b => b = [] ∧ a.length = 1
  | .dnSubordinateMatch, a, b => b = [] ∧ a ≠ []
  | .dnSuperiorMatch, a, b => a = [] ∧ b ≠ []

@[simp] theorem text_nil : text [] = [] := rfl

theorem text_cons (r : NormalRdn) (a : NormalDn) : text (r :: a) = buildNewDn (text a) r.bytes := Dn.str_cons r.toRdn _

variable {a low b : NormalDn}

theorem text_eq_nil : text a = [] ↔ a = [] := by
  rw [text, Dn.str_eq_nil]
  simp

theorem text_singleton (r : NormalRdn) : text [r] = r.bytes := by
  rw [text_cons, buildNewDn, if_pos text_nil]

theorem text_cons_of_ne_nil (r : NormalRdn) (h : a ≠ []) : text (r :: a) = r.bytes ++ comma :: text a := by
  rw [text_cons, buildNewDn, if_neg (mt text_eq_nil.mp h)]

theorem text_append {up : NormalDn} (hlow : low ≠ []) (hup : up ≠ []) : text (low ++ up) = text low ++ comma :: text up := by
  induction low with
  | nil => exact absurd rfl hlow
  | cons r low ih =>
    cases low with
    | nil => rw [singleton_append, text_cons_of_ne_nil r hup, text_singleton]
    | cons s low =>
      have htail := ih (by simp)
      rw [cons_append, text_cons_of_ne_nil r (by simp), htail, text_cons_of_ne_nil r (by simp), append_assoc]
      rfl

theorem text_split {x y : List Byte} (h : text a = x ++ comma :: y) :
    ∃ low up, a = low ++ up ∧ low ≠ [] ∧ up ≠ [] ∧ text low = x ∧ text up = y := by
  induction a generalizing x with
  | nil =>
    rw [text_nil] at h
    simp at h
  | cons r a ih =>
    by_cases ha : a = []
    case pos =>
      subst ha
      rw [text_singleton] at h
      exact absurd (h ▸ by simp : comma ∈ r.bytes) r.comma_notMem
    rw [text_cons_of_ne_nil r ha] at h
    rcases List.append_eq_append_iff.mp h with ⟨z, hx, hz⟩ | ⟨z, hr, hz⟩
    · cases z with
      | nil =>
        rw [List.append_nil] at hx
        exact ⟨[r], a, rfl, by simp, ha, by rw [text_singleton, hx], (List.cons.inj hz).2⟩
      | cons c z =>
        obtain ⟨rfl, hz'⟩ := List.cons.inj hz
        obtain ⟨low, up, rfl, hlow, hup, hxlow, hyup⟩ := ih hz'
        exact ⟨r :: low, up, rfl, by simp, hup, by rw [text_cons_of_ne_nil r hlow, hxlow, hx], hyup⟩
    · cases z with
      | nil =>
        rw [List.append_nil] at hr
        exact ⟨[r], a, rfl, by simp, ha, by rw [text_singleton, hr], (List.cons.inj hz).2.symm⟩
      | cons c z =>
        obtain ⟨rfl, -⟩ := List.cons.inj hz
        exact absurd (hr ▸ by simp : comma ∈ r.bytes) r.comma_notMem

theorem text_injective (h : text a = text b) : a = b := by
  have hbytes := Dn.map_bytes_eq_of_str_eq h
  rw [List.map_map, List.map_map] at hbytes
  exact List.map_injective_iff.mpr (fun r s hrs => bytes_injective hrs) hbytes

theorem below_iff : (∃ x, text a = x ++ comma :: text b) ↔ b ≠ [] ∧ ∃ low, low ≠ [] ∧ a = low ++ b := by
  constructor
  · rintro ⟨x, hx⟩
    obtain ⟨low, up, rfl, hlow, hup, -, hy⟩ := text_split hx
    obtain rfl := text_injective hy
    exact ⟨hup, low, hlow, rfl⟩
  · rintro ⟨hb, low, hlow, rfl⟩
    exact ⟨text low, text_append hlow hb⟩

theorem length_text_append {low up : NormalDn} (hlow : low ≠ []) : (text up).length < (text (low ++ up)).length := by
  by_cases hup : up = []
  · subst hup
    rw [List.append_nil]
    exact length_pos_of_ne_nil (mt text_eq_nil.mp hlow)
  · rw [text_append hlow hup, length_append, length_cons]
    omega

theorem suffix_iff : b <:+ a ↔ a = b ∨ ∃ low, low ≠ [] ∧ a = low ++ b := by
  constructor
  · rintro ⟨low, rfl⟩
    by_cases hlow : low = []
    · exact .inl (by rw [hlow, List.nil_append])
    · exact .inr ⟨low, hlow, rfl⟩
  · rintro (rfl | ⟨low, -, rfl⟩)
    · exact suffix_refl a
    · exact suffix_append low b

theorem strict_suffix_iff : b <:+ a ∧ b ≠ a ↔ ∃ low, low ≠ [] ∧ a = low ++ b := by
  rw [suffix_iff]
  constructor
  · rintro ⟨rfl | h, hne⟩
    · exact absurd rfl hne
    · exact h
  · rintro ⟨low, hlow, rfl⟩
    refine ⟨.inr ⟨low, hlow, rfl⟩, fun heq => hlow ?_⟩
    exact List.self_eq_append_left.mp heq

/-! ## Suffixes and scopes -/

theorem dropTake_iff {a b : List Byte} (h : b.length < a.length) :
    (DN_SEPARATOR (a.getD (a.length - b.length - 1) 0) ∧ a.drop (a.length - b.length) = b) ↔ ∃ x, a = x ++ comma :: b := by
  constructor
  · rintro ⟨hsep, hdrop⟩
    refine ⟨a.take (a.length - b.length - 1), ?_⟩
    have hlt : a.length - b.length - 1 < a.length := by omega
    rw [getD_eq_getElem?_getD, List.getElem?_eq_getElem hlt, Option.getD_some] at hsep
    have hcons := drop_eq_getElem_cons hlt
    rw [hsep, show a.length - b.length - 1 + 1 = a.length - b.length by omega, hdrop] at hcons
    rw [← hcons, take_append_drop]
  · rintro ⟨x, rfl⟩
    have hlen : (x ++ comma :: b).length - b.length = x.length + 1 := by
      rw [length_append, length_cons]
      omega
    rw [hlen, Nat.add_sub_cancel]
    exact ⟨by simp, by simp [drop_append]⟩

theorem dnIsSuffix_iff (ha : (text a).length < 2147483648) (hb : (text b).length < 2147483648) :
    dnIsSuffix (text a) (text b) = true ↔ b <:+ a := by
  have hd : Int.bmod ((text a).length - (text b).length) 4294967296 = ((text a).length : ℤ) - (text b).length := by
    apply Int.bmod_eq_of_le <;> omega
  unfold dnIsSuffix
  simp only [hd]
  by_cases hnil : b = []
  case pos => simp [hnil]
  rw [if_neg (mt text_eq_nil.mp hnil)]
  by_cases hlt : (text a).length < (text b).length
  · rw [if_pos (by omega)]
    refine iff_of_false Bool.false_ne_true fun hsuffix => ?_
    rcases suffix_iff.mp hsuffix with rfl | ⟨low, hlow, rfl⟩
    · omega
    · have := @length_text_append _ b hlow
      omega
  rw [if_neg (by omega)]
  by_cases heq : (text a).length = (text b).length
  · have hd0 : ((text a).length : ℤ) - (text b).length = 0 := by omega
    rw [hd0, if_neg (by omega), if_neg (by omega), Int.toNat_zero, drop_zero, ← heq, take_length, decide_eq_true_eq,
      suffix_iff]
    constructor
    · exact fun h => .inl (text_injective h)
    · rintro (rfl | ⟨low, hlow, rfl⟩)
      · rfl
      · exact absurd heq (length_text_append hlow).ne'
  · have hgt : (text b).length < (text a).length := by omega
    have htoNat : (((text a).length : ℤ) - (text b).length).toNat = (text a).length - (text b).length := by omega
    have htake : ((text a).drop ((text a).length - (text b).length)).take (text b).length =
        (text a).drop ((text a).length - (text b).length) := by
      refine take_of_length_le ?_
      rw [length_drop]
      omega
    rw [htoNat, htake, suffix_iff]
    have hne : a ≠ b := by
      rintro rfl
      exact heq rfl
    have hbelow := dropTake_iff hgt
    rw [below_iff] at hbelow
    have htail : (b ≠ [] ∧ ∃ low, low ≠ [] ∧ a = low ++ b) ↔ (a = b ∨ ∃ low, low ≠ [] ∧ a = low ++ b) := by simp [hnil, hne]
    rw [htail] at hbelow
    by_cases hone : (text a).length - (text b).length = 1
    · -- a separator alone
      rw [if_neg (by omega), if_pos (by omega), ← htail, ← below_iff]
      refine iff_of_false Bool.false_ne_true ?_
      rintro ⟨x, hx⟩
      obtain ⟨low, up, -, hlow, -, rfl, -⟩ := text_split hx
      have hpos := length_pos_of_ne_nil (mt text_eq_nil.mp hlow)
      rw [hx, length_append, length_cons] at hone
      omega
    · by_cases hsep : DN_SEPARATOR ((text a).getD ((text a).length - (text b).length - 1) 0)
      · rw [if_neg (fun h => h.2 hsep), if_neg (by omega), decide_eq_true_eq, ← hbelow]
        simp only [hsep, true_and]
      · rw [if_pos ⟨by omega, hsep⟩, ← hbelow]
        simp only [hsep, false_and, Bool.false_eq_true]

theorem dnParent_text (r : NormalRdn) (a : NormalDn) : dnParent (text (r :: a)) = text a := Dn.dnParent_cons r.toRdn _

theorem length_text_eq : (text (low ++ b)).length = (text b).length ↔ low = [] := by
  constructor
  · intro h
    by_contra hlow
    exact (length_text_append hlow).ne' h
  · rintro rfl
    rfl

theorem dnIsWithinScope_iff (h : b <:+ a) (scope : ℤ) (hdn : ¬ (scope = LDAP_SCOPE_ONELEVEL ∧ a = [] ∧ b = [])) :
    dnIsWithinScope (text a) (text b) scope = 1 ↔ Asks scope (a.length - b.length) := by
  obtain ⟨low, rfl⟩ := h
  have hextra : (low ++ b).length - b.length = low.length := by
    rw [length_append]
    omega
  have hparent : ¬ (low ++ b = [] ∧ b = []) → ((dnParent (text (low ++ b))).length = (text b).length ↔ low.length = 1) := by
    intro hne
    cases low with
    | nil =>
      rw [List.nil_append] at hne ⊢
      cases b with
      | nil => exact absurd ⟨rfl, rfl⟩ hne
      | cons r b =>
        rw [dnParent_text]
        exact iff_of_false (@length_text_append [r] b (by simp)).ne (by simp)
    | cons r low =>
      rw [cons_append, dnParent_text, length_text_eq, length_cons]
      simp
  unfold dnIsWithinScope Asks
  rw [hextra]
  by_cases hdefault : scope = LDAP_SCOPE_DEFAULT ∨ scope = LDAP_SCOPE_SUBTREE
  · rw [if_pos hdefault]
    exact iff_of_true rfl (or_assoc.mp (.inl hdefault))
  rw [if_neg hdefault]
  obtain ⟨hd, hs⟩ := not_or.mp hdefault
  by_cases hbase : scope = LDAP_SCOPE_BASE
  · subst hbase
    simp [length_text_eq, LDAP_SCOPE_BASE, LDAP_SCOPE_DEFAULT, LDAP_SCOPE_SUBTREE, LDAP_SCOPE_ONELEVEL, LDAP_SCOPE_SUBORDINATE]
  rw [if_neg hbase]
  by_cases hone : scope = LDAP_SCOPE_ONELEVEL
  · subst hone
    simp [hparent fun h => hdn ⟨rfl, h⟩, LDAP_SCOPE_BASE, LDAP_SCOPE_DEFAULT, LDAP_SCOPE_SUBTREE, LDAP_SCOPE_ONELEVEL,
      LDAP_SCOPE_SUBORDINATE]
  rw [if_neg hone]
  by_cases hsub : scope = LDAP_SCOPE_SUBORDINATE
  · subst hsub
    have hpos : 1 ≤ low.length ↔ low ≠ [] := by rw [Nat.succ_le_iff, length_pos_iff]
    simp [length_text_eq, hpos, LDAP_SCOPE_BASE, LDAP_SCOPE_DEFAULT, LDAP_SCOPE_SUBTREE, LDAP_SCOPE_ONELEVEL, LDAP_SCOPE_SUBORDINATE]
  · rw [if_neg hsub]
    simp [hd, hs, hbase, hone, hsub]

theorem memcmp_eq_zero {a b : List Byte} : memcmp a b = 0 ↔ a = b := by
  unfold memcmp
  split_ifs with heq <;> simp [heq]

theorem tailMatch_eq_zero (h : (text b).length < (text a).length) :
    tailMatch (text a) (text b) = 0 ↔ b ≠ [] ∧ ∃ low, low ≠ [] ∧ a = low ++ b := by
  rw [← below_iff, ← dropTake_iff h, tailMatch]
  split
  · rename_i hsep
    rw [memcmp_eq_zero]
    exact ⟨fun heq => ⟨hsep, heq⟩, fun heq => heq.2⟩
  · rename_i hsep
    exact iff_of_false one_ne_zero fun heq => hsep heq.1

theorem subordinateMatch_eq_zero (a b : NormalDn) :
    subordinateMatch (text a) (text b) = 0 ↔ b ≠ [] ∧ b <:+ a ∧ b ≠ a := by
  rw [strict_suffix_iff, subordinateMatch]
  split
  · rename_i hle
    refine iff_of_false (by decide) ?_
    rintro ⟨-, low, hlow, rfl⟩
    exact absurd (@length_text_append _ b hlow) (not_lt.mpr hle)
  · rename_i hlt
    exact tailMatch_eq_zero (not_le.mp hlt)

theorem dnIsOneLevelRDN_text (hlow : low ≠ []) : dnIsOneLevelRDN (text low) = true ↔ low.length = 1 := by
  have hmem : dnIsOneLevelRDN (text low) = true ↔ comma ∉ text low := by
    simp only [dnIsOneLevelRDN, Bool.not_eq_true', List.any_eq_false, decide_eq_true_eq]
    exact ⟨fun h hc => h comma hc rfl, fun h c hc heq => h (heq ▸ hc)⟩
  rw [hmem]
  obtain ⟨r, low, rfl⟩ := exists_cons_of_ne_nil hlow
  cases low with
  | nil => simpa [text_singleton] using r.comma_notMem
  | cons s low =>
    rw [text_cons_of_ne_nil r (by simp)]
    simp

theorem oneLevel_eq_zero (a b : NormalDn) :
    dnRelativeMatch .dnOneLevelMatch (text a) (text b) = 0 ↔ b ≠ [] ∧ ∃ r, a = r :: b := by
  unfold dnRelativeMatch
  by_cases hle : (text a).length ≤ (text b).length
  · simp only [if_pos hle]
    refine iff_of_false (by decide) ?_
    rintro ⟨-, r, rfl⟩
    exact absurd (@length_text_append [r] b (by simp)) (not_lt.mpr hle)
  simp only [if_neg hle]
  have htail := tailMatch_eq_zero (not_le.mp hle)
  by_cases hzero : tailMatch (text a) (text b) = 0
  · obtain ⟨hb, low, hlow, rfl⟩ := htail.mp hzero
    have hhead : (text (low ++ b)).take ((text (low ++ b)).length - (text b).length - 1) = text low := by
      rw [text_append hlow hb]
      have hlen : (text low ++ comma :: text b).length - (text b).length - 1 = (text low).length := by
        rw [length_append, length_cons]
        omega
      rw [hlen, take_left]
    rw [if_pos hzero, hhead]
    have hone := dnIsOneLevelRDN_text hlow
    cases hlevel : dnIsOneLevelRDN (text low) with
    | true =>
      obtain ⟨r, rfl⟩ := List.length_eq_one_iff.mp (hone.mp hlevel)
      exact iff_of_true rfl ⟨hb, r, rfl⟩
    | false =>
      refine iff_of_false (by decide) ?_
      rintro ⟨-, r, hr⟩
      have hlen := congrArg List.length hr
      rw [length_append, length_cons] at hlen
      rw [hone.mpr (by omega)] at hlevel
      cases hlevel
  · rw [if_neg hzero]
    refine iff_of_false hzero ?_
    rintro ⟨hb, r, rfl⟩
    exact hzero (htail.mpr ⟨hb, [r], by simp, rfl⟩)

theorem subtree_eq_zero (a b : NormalDn) :
    dnRelativeMatch .dnSubtreeMatch (text a) (text b) = 0 ↔ (b = [] → a = []) ∧ b <:+ a := by
  unfold dnRelativeMatch
  simp only
  rw [suffix_iff]
  split
  · rename_i hlt
    refine iff_of_false (by decide) ?_
    rintro ⟨-, rfl | ⟨low, hlow, rfl⟩⟩
    · exact lt_irrefl _ hlt
    · exact lt_asymm hlt (length_text_append hlow)
  · rename_i hge
    split
    · rename_i heq
      rw [memcmp_eq_zero]
      constructor
      · intro h
        obtain rfl := text_injective h
        exact ⟨id, .inl rfl⟩
      · rintro ⟨-, rfl | ⟨low, hlow, rfl⟩⟩
        · rfl
        · exact absurd heq (length_text_append hlow).ne
    · rename_i hne
      rw [tailMatch_eq_zero (by omega)]
      have hab : a ≠ b := by
        rintro rfl
        exact hne rfl
      constructor
      · rintro ⟨hb, h⟩
        exact ⟨fun hnil => absurd hnil hb, .inr h⟩
      · rintro ⟨hnil, rfl | ⟨low, hlow, rfl⟩⟩
        · exact absurd rfl hab
        · refine ⟨fun hb => hlow ?_, low, hlow, rfl⟩
          exact (List.append_eq_nil_iff.mp (hnil hb)).1

theorem dnRelativeMatch_iff (rule : RelativeRule) (a b : NormalDn) :
    (dnRelativeMatch rule (text a) (text b) = 0 ↔ Related rule a b) ↔ ¬ Gap rule a b := by
  cases rule with
  | dnSubtreeMatch =>
    rw [subtree_eq_zero, Related, Gap]
    by_cases hb : b = [] <;> simp [hb]
  | dnOneLevelMatch =>
    rw [oneLevel_eq_zero, Related, Gap]
    by_cases hb : b = [] <;> simp [hb, length_eq_one_iff]
  | dnSubordinateMatch =>
    rw [show dnRelativeMatch .dnSubordinateMatch (text a) (text b) = subordinateMatch (text a) (text b) from rfl,
      subordinateMatch_eq_zero, Related, Gap]
    by_cases hb : b = [] <;> simp [hb, eq_comm]
  | dnSuperiorMatch =>
    rw [show dnRelativeMatch .dnSuperiorMatch (text a) (text b) = subordinateMatch (text b) (text a) from rfl,
      subordinateMatch_eq_zero, Related, Gap]
    by_cases ha : a = [] <;> simp [ha, eq_comm]

theorem withinScope_iff (h : b <:+ a) (scope : ℤ) :
    (dnIsWithinScope (text a) (text b) scope = 1 ↔ Asks scope (a.length - b.length)) ↔
      ¬ (scope = LDAP_SCOPE_ONELEVEL ∧ a = [] ∧ b = []) := by
  constructor
  · rintro hiff ⟨rfl, rfl, rfl⟩
    exact absurd (hiff.mp rfl) (by decide)
  · exact dnIsWithinScope_iff h scope

theorem suffixScope_iff (ha : (text a).length < 2147483648) (hb : (text b).length < 2147483648) (scope : ℤ) :
    (dnIsSuffixScope (text a) (text b) scope = 1 ↔ b <:+ a ∧ Asks scope (a.length - b.length)) ↔
      ¬ (scope = LDAP_SCOPE_ONELEVEL ∧ a = [] ∧ b = []) := by
  have hsuffix := dnIsSuffix_iff ha hb
  unfold dnIsSuffixScope
  by_cases h : b <:+ a
  · rw [if_pos (hsuffix.mpr h), ← withinScope_iff h scope]
    simp only [h, true_and]
  · rw [if_neg (mt hsuffix.mp h)]
    refine iff_of_true (iff_of_false (by decide) fun hand => h hand.1) ?_
    rintro ⟨-, rfl, rfl⟩
    exact h (suffix_refl _)

theorem dnRdn_text (r : NormalRdn) (a : NormalDn) : dnRdn (text (r :: a)) = r.bytes := by
  rw [text_cons, Dn.dnRdn_buildNewDn r.comma_notMem]

/-- The functions on normalized DNs `a` and `b` agree with the RDNs, but for the empty DN: a scope of one level holds between it
and itself, and no DN is below it for `dnRelativeMatch`. -/
theorem normal_dn_strings (a b : NormalDn) (r : NormalRdn) (ha : (text a).length < 2147483648) (hb : (text b).length < 2147483648) :
    dnParent (text a) = text a.tail ∧ dnRdn (text a) = text (a.take 1) ∧
      (dnIsSuffix (text a) (text b) = true ↔ b <:+ a) ∧
      (∀ scope, (dnIsSuffixScope (text a) (text b) scope = 1 ↔ b <:+ a ∧ Asks scope (a.length - b.length)) ↔
        ¬ (scope = LDAP_SCOPE_ONELEVEL ∧ a = [] ∧ b = [])) ∧
      (b <:+ a → ∀ scope, (dnIsWithinScope (text a) (text b) scope = 1 ↔ Asks scope (a.length - b.length)) ↔
        ¬ (scope = LDAP_SCOPE_ONELEVEL ∧ a = [] ∧ b = [])) ∧
      (∀ rule, (dnRelativeMatch rule (text a) (text b) = 0 ↔ Related rule a b) ↔ ¬ Gap rule a b) ∧
      buildNewDn (text b) r.bytes = text (r :: b) ∧ dnParent (buildNewDn (text b) r.bytes) = text b ∧
        dnRdn (buildNewDn (text b) r.bytes) = r.bytes := by
  refine ⟨?_, ?_, dnIsSuffix_iff ha hb, suffixScope_iff ha hb, fun h => withinScope_iff h, fun rule => dnRelativeMatch_iff rule a b,
    (text_cons r b).symm, ?_, ?_⟩
  · cases a with
    | nil => rfl
    | cons s a => exact dnParent_text s a
  · cases a with
    | nil => rfl
    | cons s a => rw [dnRdn_text, take_succ_cons, take_zero, text_singleton]
  · rw [← text_cons, dnParent_text]
  · rw [← text_cons, dnRdn_text]

/-- `dc=com` -/
def dcCom : NormalRdn :=
  ⟨[⟨Ascii.text "dc", Ascii.text "com", ⟨⟨ascii 'd', [ascii 'c'], by decide, by decide⟩, by decide +kernel⟩, by decide, 3, by decide⟩],
    by simp⟩

/-- `o=a,b` with the comma escaped. -/
def oComma : NormalRdn :=
  ⟨[⟨Ascii.text "o", Ascii.text "a,b", ⟨⟨ascii 'o', [], by decide, by decide⟩, by decide +kernel⟩, by decide, 5, by decide⟩], by simp⟩

example : text [oComma, dcCom] = Ascii.text "o=a\\2Cb,dc=com" := by decide

theorem normal_dn_strings_sample :
    dnIsSuffix (text [oComma, dcCom]) (text [dcCom]) = true ∧ dnParent (text [oComma, dcCom]) = text [dcCom] :=
  have h := normal_dn_strings [oComma, dcCom] [dcCom] oComma (by decide) (by decide)
  ⟨h.2.2.1.mpr ⟨[oComma], rfl⟩, h.1⟩

/-- `dc=com` is below the empty DN for `dnIsSuffix`, and not for `dnRelativeMatch`. The empty DN is one level below itself. -/
theorem empty_base_dn :
    text [dcCom] = Ascii.text "dc=com" ∧ [] <:+ [dcCom] ∧ dnIsSuffix (text [dcCom]) (text []) = true ∧
      dnRelativeMatch .dnSubtreeMatch (text [dcCom]) (text []) = 1 ∧ dnIsSuffixScope (text []) (text []) LDAP_SCOPE_ONELEVEL = 1 :=
  ⟨by decide, nil_suffix, by decide, by decide, by decide⟩

end DnStrings
end Slapd
end ReOpenLDAP
