import Mathlib.Algebra.Order.Ring.Int
import Mathlib.Data.Finset.Card

/-!
# Lib.Forest

Forests given by a parent function. A node without a parent is a root or a detached node.
-/

namespace ReOpenLDAP
namespace Forest

open List Function

variable {ι : Type*} {parent : ι → Option ι}

def Reaches (parent : ι → Option ι) : ι → ι → Prop := Relation.ReflTransGen fun a b => parent a = some b

theorem Reaches.refl (a : ι) : Reaches parent a a := Relation.ReflTransGen.refl

theorem Reaches.head {a b x : ι} (h : parent a = some b) (hb : Reaches parent b x) : Reaches parent a x :=
  Relation.ReflTransGen.head h hb

variable {a x : ι}

theorem Reaches.trans {b c : ι} (h₁ : Reaches parent a b) (h₂ : Reaches parent b c) : Reaches parent a c :=
  Relation.ReflTransGen.trans h₁ h₂

theorem reaches_of_parent_none (ha : parent a = none) : Reaches parent a x ↔ x = a := by
  constructor
  · intro h
    cases Relation.ReflTransGen.cases_head h with
    | inl he => exact he.symm
    | inr hc =>
      obtain ⟨b, hb, -⟩ := hc
      rw [ha] at hb
      cases hb
  · intro h
    rw [h]
    exact .refl a

theorem reaches_of_parent {b : ι} (ha : parent a = some b) : Reaches parent a x ↔ x = a ∨ Reaches parent b x := by
  constructor
  · intro h
    cases Relation.ReflTransGen.cases_head h with
    | inl he => exact .inl he.symm
    | inr hc =>
      obtain ⟨c, hc, hx⟩ := hc
      rw [ha] at hc
      cases hc
      exact .inr hx
  · intro h
    cases h with
    | inl he => rw [he]; exact .refl a
    | inr hb => exact hb.head ha

theorem Reaches.eq_of_no_child (hx : ∀ c, parent c ≠ some x) (h : Reaches parent a x) : a = x := by
  cases Relation.ReflTransGen.cases_tail h with
  | inl he => exact he.symm
  | inr hc =>
    obtain ⟨c, -, hc⟩ := hc
    exact absurd hc (hx c)

theorem Reaches.total {y : ι} (hx : Reaches parent a x) (hy : Reaches parent a y) : Reaches parent x y ∨ Reaches parent y x :=
  Relation.ReflTransGen.total_of_right_unique
    (fun _ _ _ h₁ h₂ => Option.some.inj (h₁.symm.trans h₂)) hx hy

inductive Chain (parent : ι → Option ι) (z : ι) : ι → List ι → Prop where
  | nil : Chain parent z z []
  | cons {a b : ι} {l : List ι} : a ≠ z → parent a = some b → Chain parent z b l → Chain parent z a (a :: l)

namespace Chain

variable {z : ι}
variable {l : List ι} {a x : ι}

theorem det {l' : List ι} (h : Chain parent z a l) (h' : Chain parent z a l') : l = l' := by
  induction h generalizing l' with
  | nil =>
    cases h' with
    | nil => rfl
    | cons hne _ _ => exact absurd rfl hne
  | cons hne hp _ ih =>
    cases h' with
    | nil => exact absurd rfl hne
    | cons _ hp' h' =>
      rw [hp] at hp'
      cases hp'
      rw [ih h']

theorem exists_parent (h : Chain parent z a l) (hx : x ∈ l) : ∃ b, parent x = some b := by
  induction h with
  | nil => cases hx
  | cons _ hp _ ih =>
    cases hx with
    | head => exact ⟨_, hp⟩
    | tail _ hx => exact ih hx

theorem suffix (h : Chain parent z a l) (hx : x ∈ l) : ∃ l', Chain parent z x l' ∧ l' <:+ l := by
  induction h with
  | nil => cases hx
  | cons hne hp h ih =>
    cases hx with
    | head => exact ⟨_, .cons hne hp h, suffix_refl _⟩
    | tail _ hx =>
      obtain ⟨l', hl', hs⟩ := ih hx
      exact ⟨l', hl', hs.trans (suffix_cons _ _)⟩

theorem nodup (h : Chain parent z a l) : l.Nodup := by
  induction h with
  | nil => exact nodup_nil
  | @cons a b l hne hp h ih =>
    refine List.nodup_cons.mpr ⟨fun ha => ?_, ih⟩
    -- the way up from `a` would be a part of itself
    obtain ⟨l', hl', hs⟩ := h.suffix ha
    have hlen := hs.length_le
    rw [hl'.det (.cons hne hp h), length_cons] at hlen
    omega

theorem mem_iff (hz : parent z = none) (h : Chain parent z a l) : x ∈ l ↔ Reaches parent a x ∧ x ≠ z := by
  induction h with
  | nil => simp [reaches_of_parent_none hz]
  | @cons a b l hne hp h ih =>
    rw [mem_cons, reaches_of_parent hp, ih]
    constructor
    · intro hx
      cases hx with
      | inl he => exact ⟨.inl he, he ▸ hne⟩
      | inr hx => exact ⟨.inr hx.1, hx.2⟩
    · intro hx
      cases hx.1 with
      | inl he => exact .inl he
      | inr hb => exact .inr ⟨hb, hx.2⟩

theorem of_reaches [DecidableEq ι] (h : Reaches parent a z) : ∃ l, Chain parent z a l := by
  induction h using Relation.ReflTransGen.head_induction_on with
  | refl => exact ⟨[], .nil⟩
  | @head a b hp _ ih =>
    obtain ⟨l, hl⟩ := ih
    if he : a = z then
      exact ⟨[], he ▸ .nil⟩
    else
      exact ⟨a :: l, .cons he hp hl⟩

theorem not_reaches_of_parent (hz : parent z = none) {b : ι} (h : Chain parent z b l)
    (hab : parent a = some b) : ¬ Reaches parent b a := by
  have haz : a ≠ z := by
    intro e
    rw [e, hz] at hab
    cases hab
  intro hba
  exact (List.nodup_cons.mp (Chain.cons haz hab h).nodup).1 ((h.mem_iff hz).mpr ⟨hba, haz⟩)

theorem congr {parent' : ι → Option ι} (h : Chain parent z a l) (hp : ∀ x ∈ l, parent' x = parent x) : Chain parent' z a l := by
  induction h with
  | nil => exact .nil
  | cons hne hpa _ ih =>
    refine .cons hne ?_ (ih fun x hx => hp x (mem_cons_of_mem _ hx))
    rw [hp _ mem_cons_self, hpa]

theorem length_le_card [DecidableEq ι] {N : Finset ι} (h : Chain parent z a l) (hN : ∀ x ∈ l, x ∈ N) : l.length ≤ N.card := by
  rw [← toFinset_card_of_nodup h.nodup]
  exact Finset.card_le_card fun x hx => hN x (List.mem_toFinset.mp hx)

end Chain

/-! ## Hanging a detached node below another one -/

section Attach

variable [DecidableEq ι] {e q : ι}

theorem reaches_attach (he : parent e = none) (hq : ¬ Reaches parent q e) {a x : ι} :
    Reaches (Function.update parent e (some q)) a x ↔
      Reaches parent a x ∨ (Reaches parent a e ∧ Reaches parent q x) := by
  have hold : ∀ {c d}, parent c = some d → Function.update parent e (some q) c = some d := by
    intro c d hc
    have hce : c ≠ e := by
      intro h
      rw [h, he] at hc
      cases hc
    rw [update_of_ne hce, hc]
  have hmono : ∀ {c d}, Reaches parent c d → Reaches (Function.update parent e (some q)) c d := by
    intro c d h
    exact Relation.ReflTransGen.mono (fun _ _ => hold) c d h
  constructor
  · intro h
    induction h using Relation.ReflTransGen.head_induction_on with
    | refl => exact .inl (.refl x)
    | @head a b hab _ ih =>
      if hae : a = e then
        rw [hae, update_self] at hab
        cases hab
        cases ih with
        | inl hx => exact .inr ⟨hae ▸ .refl a, hx⟩
        | inr hx => exact absurd hx.1 hq
      else
        rw [update_of_ne hae] at hab
        cases ih with
        | inl hx => exact .inl (hx.head hab)
        | inr hx => exact .inr ⟨hx.1.head hab, hx.2⟩
  · intro h
    cases h with
    | inl hx => exact hmono hx
    | inr hx => exact (hmono hx.1).trans ((hmono hx.2).head (update_self ..))

theorem reaches_detach {p : ι} (hpe : parent e = some p) (hnot : ¬ Reaches (Function.update parent e none) p e)
    {a x : ι} : Reaches parent a x ↔ Reaches (Function.update parent e none) a x ∨
      (Reaches (Function.update parent e none) a e ∧ Reaches (Function.update parent e none) p x) := by
  have hback : Function.update (Function.update parent e none) e (some p) = parent := by
    rw [update_idem, ← hpe, update_eq_self]
  have hiff := @reaches_attach _ (Function.update parent e none) _ e p (update_self ..) hnot a x
  rw [hback] at hiff
  exact hiff

theorem not_reaches_detach {p : ι} (hpe : ¬ Reaches parent p e) :
    ¬ Reaches (Function.update parent e none) p e := by
  intro h
  refine hpe (Relation.ReflTransGen.mono ?_ p e h)
  intro c d hcd
  if hce : c = e then
    rw [hce, update_self] at hcd
    cases hcd
  else rwa [update_of_ne hce] at hcd

end Attach

section Size

open Classical in
noncomputable def size (parent : ι → Option ι) (N : Finset ι) (x : ι) : Nat :=
  (N.filter fun a => Reaches parent a x).card

theorem size_le_card (N : Finset ι) (x : ι) : size parent N x ≤ N.card := by
  classical exact Finset.card_filter_le _ _

variable {x : ι} {N : Finset ι}

theorem size_pos (hx : x ∈ N) : 0 < size parent N x := by
  classical
  exact Finset.card_pos.mpr ⟨x, Finset.mem_filter.mpr ⟨hx, .refl x⟩⟩

theorem size_insert [DecidableEq ι] {e : ι} (he : parent e = none) (hN : e ∉ N) :
    size parent (insert e N) x = size parent N x + if x = e then 1 else 0 := by
  classical
  unfold size
  rw [Finset.filter_insert]
  if hx : x = e then
    rw [if_pos ((reaches_of_parent_none he).mpr hx), if_pos hx, Finset.card_insert_of_notMem]
    intro h
    exact hN (Finset.mem_filter.mp h).1
  else
    rw [if_neg (fun h => hx ((reaches_of_parent_none he).mp h)), if_neg hx, Nat.add_zero]

theorem size_attach [DecidableEq ι] {e q : ι} (he : parent e = none)
    (hq : ¬ Reaches parent q e) [Decidable (Reaches parent q x)] :
    size (Function.update parent e (some q)) N x =
      size parent N x + if Reaches parent q x then size parent N e else 0 := by
  classical
  unfold size
  if hx : Reaches parent q x then
    rw [if_pos hx, ← Finset.card_union_of_disjoint, ← Finset.filter_or]
    · refine congrArg Finset.card (Finset.filter_congr fun a _ => ?_)
      rw [reaches_attach he hq]
      simp [hx]
    · refine Finset.disjoint_filter.mpr fun a _ hax hae => hq ?_
      cases hax.total hae with
      | inl hxe => exact hx.trans hxe
      | inr hex =>
        rw [(reaches_of_parent_none he).mp hex] at hx
        exact hx
  else
    rw [if_neg hx, Nat.add_zero]
    refine congrArg Finset.card (Finset.filter_congr fun a _ => ?_)
    rw [reaches_attach he hq]
    simp [hx]

theorem size_lt_of_parent {c : ι} (hc : parent c = some x) (hx : x ∈ N)
    (hxc : ¬ Reaches parent x c) : size parent N c < size parent N x := by
  classical
  refine Finset.card_lt_card (Finset.ssubset_iff_of_subset ?_ |>.mpr ⟨x, ?_, ?_⟩)
  · intro a ha
    obtain ⟨haN, hac⟩ := Finset.mem_filter.mp ha
    exact Finset.mem_filter.mpr ⟨haN, hac.trans (.head hc (.refl x))⟩
  · exact Finset.mem_filter.mpr ⟨hx, .refl x⟩
  · intro h
    exact hxc (Finset.mem_filter.mp h).2

theorem size_of_no_child [DecidableEq ι] {e : ι} (hc : ∀ c, parent c ≠ some e) : size parent N e = if e ∈ N then 1 else 0 := by
  classical
  unfold size
  have hfilter : (N.filter fun a => Reaches parent a e) = N.filter fun a => a = e := by
    refine Finset.filter_congr fun a _ => ⟨fun h => h.eq_of_no_child hc, fun h => ?_⟩
    rw [h]
    exact .refl e
  rw [hfilter, Finset.filter_eq']
  split_ifs <;> simp

end Size
end Forest
end ReOpenLDAP
