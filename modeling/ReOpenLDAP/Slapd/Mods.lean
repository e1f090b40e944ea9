import Mathlib.Algebra.Order.Ring.Int
import Mathlib.Data.List.Perm.Basic

/-!
# Slapd.Mods

The attributes of an entry, and the modifications of `mods.c` on them.

Attributes whose values the server numbers (X-ORDERED) have rules of their own and are not modelled here.
-/

namespace ReOpenLDAP
namespace Slapd

open List

/-- The errors of the functions below. `abort` is a failed assertion. -/
inductive ModRc where
  | inappropriateMatching
  | typeOrValueExists
  | noSuchAttribute
  | invalidSyntax
  | constraintViolation
  | other
  | abort
deriving DecidableEq

/-- An equality rule: `smr_normalize` and `smr_match`. -/
structure EqualityRule (ν : Type) where
  normalize : Option (ν → Option ν)
  cmp : ν → ν → Ordering
  cmp_self : ∀ v, cmp v v = .eq

/-- What the functions look up in the schema, the mode of the server, and the conversions of `lutil_atol` and
`snprintf`. -/
structure ModSchema (δ ν : Type) where
  equality : δ → Option (EqualityRule ν)
  integer : δ → Bool
  righteous : Bool
  atol : ν → Option Int
  ltoa : Int → ν

/-- `Attribute`. `nvals` is `none` when `a_nvals == a_vals`. -/
structure Attr (δ ν : Type) where
  desc : δ
  vals : List ν
  nvals : Option (List ν)
  ixadd : Bool
  ixdel : Bool
  bigMulti : Bool
deriving DecidableEq

inductive ModOp where
  | add
  | delete
  | replace
  | increment
  | softadd
  | softdel
  | addIfNotPresent
deriving DecidableEq

structure Modification (δ ν : Type) where
  op : ModOp
  desc : δ
  values : Option (List ν)
  nvalues : Option (List ν)
deriving DecidableEq

variable {δ ν : Type}

def Attr.norms (a : Attr δ ν) : List ν := a.nvals.getD a.vals

/-- `attr_alloc`, with the values of the first `attr_valadd`. -/
def attrNew (desc : δ) (vals : List ν) (nvals : Option (List ν)) : Attr δ ν := ⟨desc, vals, nvals, false, false, false⟩

/-- `attr_valfind`: the place of the value. -/
def attrValfind (mr : EqualityRule ν) (a : Attr δ ν) (normalized : Bool) (val : ν) : Except ModRc Nat :=
  let find := fun cval =>
    match a.norms.findIdx? fun s => mr.cmp s cval = .eq with
    | some i => Except.ok i
    | none => .error .noSuchAttribute
  if normalized then find val
  else
    match mr.normalize with
    | none => find val
    | some f =>
      match f val with
      | none => .error .invalidSyntax
      | some cval => find cval

def masked {α : Type} : List Bool → List α → List α
  | true :: ms, x :: xs => x :: masked ms xs
  | false :: ms, _ :: xs => masked ms xs
  | _, _ => []

/-- The check of `modify_add_values`: which values are to be added. -/
def checkNew (mr : EqualityRule ν) (a : Attr δ ν) (normalized permissive : Bool) : List ν → Except ModRc (List Bool)
  | [] => .ok []
  | v :: vs =>
    match attrValfind mr a normalized v with
    | .ok _ => if permissive then (checkNew mr a normalized permissive vs).map (false :: ·) else .error .typeOrValueExists
    | .error .noSuchAttribute => (checkNew mr a normalized permissive vs).map (true :: ·)
    | .error rc => .error rc

/-- The places of the values to delete: `idx` of `modify_delete_vindex`, with `none` for a value that is not there. -/
def locate (mr : EqualityRule ν) (a : Attr δ ν) (normalized permissive : Bool) : List ν → Except ModRc (List (Option Nat))
  | [] => .ok []
  | v :: vs =>
    match attrValfind mr a normalized v with
    | .ok i => (locate mr a normalized permissive vs).map (some i :: ·)
    | .error .noSuchAttribute =>
      if permissive then (locate mr a normalized permissive vs).map (none :: ·) else .error .noSuchAttribute
    | .error rc => .error rc

instance place_lawfulBEq : LawfulBEq (Option Nat) := inferInstance

def dropAt {α : Type} (idx : List (Option Nat)) : Nat → List α → List α
  | _, [] => []
  | i, x :: xs => if some i ∈ idx then dropAt idx (i + 1) xs else x :: dropAt idx (i + 1) xs

section Masks

variable {α β : Type}

attribute [local simp] masked

theorem masked_map (f : α → β) (ms : List Bool) (xs : List α) : masked ms (xs.map f) = (masked ms xs).map f := by
  induction ms generalizing xs with
  | nil => rfl
  | cons m ms ih =>
    cases xs with
    | nil => cases m <;> rfl
    | cons x xs => cases m <;> simp [ih]

theorem masked_replicate (xs : List α) : masked (List.replicate xs.length true) xs = xs := by
  induction xs with
  | nil => rfl
  | cons x xs ih => exact congrArg (x :: ·) ih

variable {xs : List α} {ms : List Bool}

theorem masked_length (h : ms.length = xs.length) : (masked ms xs).length = ms.count true := by
  induction ms generalizing xs with
  | nil => rfl
  | cons m ms ih =>
    cases xs with
    | nil => cases h
    | cons x xs => cases m <;> simp [ih (Nat.succ.inj h)]

theorem masked_not_length (h : ms.length = xs.length) : (masked (ms.map not) xs).length + ms.count true = xs.length := by
  induction ms generalizing xs with
  | nil => simpa using h
  | cons m ms ih =>
    cases xs with
    | nil => cases h
    | cons x xs =>
      have := ih (Nat.succ.inj h)
      cases m <;> simp <;> omega

theorem masked_sublist (ms : List Bool) (xs : List α) : (masked ms xs).Sublist xs := by
  induction ms generalizing xs with
  | nil => exact nil_sublist xs
  | cons m ms ih =>
    cases xs with
    | nil => cases m <;> exact nil_sublist _
    | cons x xs =>
      cases m with
      | true => exact (ih xs).cons_cons x
      | false => exact (ih xs).cons x

theorem masked_true {ys : List β} (h : ys.length ≤ xs.length) : masked (xs.map fun _ => true) ys = ys := by
  induction ys generalizing xs with
  | nil => cases xs <;> rfl
  | cons y ys ih =>
    cases xs with
    | nil => cases h
    | cons x xs => exact congrArg (y :: ·) (ih (Nat.le_of_succ_le_succ h))

theorem masked_masked (p q : α → Bool) (xs : List α) (ys : List β) :
    masked ((masked (xs.map p) xs).map q) (masked (xs.map p) ys) = masked (xs.map fun x => p x && q x) ys := by
  induction xs generalizing ys with
  | nil => rfl
  | cons x xs ih =>
    cases ys with
    | nil => cases hp : p x <;> cases hq : q x <;> simp [hp, hq]
    | cons y ys => cases hp : p x <;> cases hq : q x <;> simp [hp, hq, ih]

theorem masked_eq_filter (p : α → Bool) (xs : List α) : masked (xs.map p) xs = xs.filter p := by
  induction xs with
  | nil => rfl
  | cons x xs ih => cases hp : p x <;> simp [hp, ih]

theorem masked_length_le (ms : List Bool) {ys : List β} (h : ys.length ≤ xs.length) :
    (masked ms ys).length ≤ (masked ms xs).length := by
  induction ms generalizing xs ys with
  | nil => exact Nat.le_refl 0
  | cons m ms ih =>
    cases ys with
    | nil => cases m <;> exact Nat.zero_le _
    | cons y ys =>
      cases xs with
      | nil => cases h
      | cons x xs =>
        have ih := ih (Nat.le_of_succ_le_succ h)
        cases m with
        | true => exact Nat.succ_le_succ ih
        | false => exact ih

theorem masked_not_all (h : ms.length = xs.length) (hc : ms.count true = 0) : masked (ms.map not) xs = xs :=
  (masked_sublist _ xs).eq_of_length (by have := masked_not_length h; omega)

theorem dropAt_masked {idx : List (Option Nat)} {k : Nat} (h : ms.length = xs.length)
    (hidx : ∀ i, some (k + i) ∈ idx ↔ ms[i]? = some true) : dropAt idx k xs = masked (ms.map not) xs := by
  induction ms generalizing xs k with
  | nil => cases xs with
    | nil => rfl
    | cons x xs => cases h
  | cons m ms ih =>
    cases xs with
    | nil => cases h
    | cons x xs =>
      have hk := hidx 0
      have hrest : dropAt idx (k + 1) xs = masked (ms.map not) xs := by
        refine ih (Nat.succ.inj h) fun i => ?_
        rw [Nat.add_assoc, Nat.add_comm 1 i]
        exact hidx (i + 1)
      cases m with
      | true =>
        have hin : some k ∈ idx := hk.mpr rfl
        rw [dropAt, if_pos hin, hrest]
        rfl
      | false =>
        have hout : some k ∉ idx := by
          intro hin
          cases hk.mp hin
        rw [dropAt, if_neg hout, hrest]
        rfl

end Masks

def EqualityRule.norm (mr : EqualityRule ν) (v : ν) : Option ν :=
  match mr.normalize with
  | none => some v
  | some f => f v

def EqualityRule.Distinct (mr : EqualityRule ν) (ns : List ν) : Prop :=
  ns.Pairwise fun s t => mr.cmp s t ≠ .eq ∧ mr.cmp t s ≠ .eq

section Valfind

variable {mr : EqualityRule ν} {a : Attr δ ν} {vs ws : List ν}
variable {w : ν} {p : Bool}

theorem attrValfind_norm {v : ν} (h : mr.norm v = some w) : attrValfind mr a false v = attrValfind mr a true w := by
  unfold EqualityRule.norm at h
  unfold attrValfind
  cases hn : mr.normalize with
  | none =>
    rw [hn] at h
    cases h
    rfl
  | some f =>
    rw [hn] at h
    simp [h]

theorem locate_norm (h : vs.map mr.norm = ws.map some) : locate mr a false p vs = locate mr a true p ws := by
  induction vs generalizing ws with
  | nil => cases ws with
    | nil => rfl
    | cons w ws => cases h
  | cons v vs ih =>
    cases ws with
    | nil => cases h
    | cons w ws =>
      obtain ⟨hv, hvs⟩ := List.cons.inj h
      unfold locate
      rw [attrValfind_norm hv, ih hvs]

theorem checkNew_norm (h : vs.map mr.norm = ws.map some) : checkNew mr a false p vs = checkNew mr a true p ws := by
  induction vs generalizing ws with
  | nil => cases ws with
    | nil => rfl
    | cons w ws => cases h
  | cons v vs ih =>
    cases ws with
    | nil => cases h
    | cons w ws =>
      obtain ⟨hv, hvs⟩ := List.cons.inj h
      unfold checkNew
      rw [attrValfind_norm hv, ih hvs]

theorem attrValfind_at {pre post : List ν} (ha : a.norms = pre ++ w :: post) (hd : mr.Distinct a.norms) :
    attrValfind mr a true w = .ok pre.length := by
  have hpre : ∀ s ∈ pre, mr.cmp s w ≠ .eq := by
    intro s hs
    rw [ha] at hd
    exact ((List.pairwise_append.mp hd).2.2 s hs w mem_cons_self).1
  have hfind : (a.norms.findIdx? fun s => mr.cmp s w = .eq) = some pre.length := by
    rw [ha, List.findIdx?_append, List.findIdx?_eq_none_iff.mpr (by simpa using hpre)]
    simp [List.findIdx?_cons, mr.cmp_self]
  unfold attrValfind
  simp [hfind]

theorem attrValfind_missing (h : ∀ s ∈ a.norms, mr.cmp s w ≠ .eq) : attrValfind mr a true w = .error .noSuchAttribute := by
  unfold attrValfind
  have hfind : (a.norms.findIdx? fun s => mr.cmp s w = .eq) = none := List.findIdx?_eq_none_iff.mpr (by simpa using h)
  simp [hfind]

theorem locate_masked {ms : List Bool} {pre suf : List ν} (ha : a.norms = pre ++ suf)
    (hd : mr.Distinct a.norms) (hl : ms.length = suf.length) :
    ∃ idx, locate mr a true p (masked ms suf) = .ok idx ∧ none ∉ idx ∧
      ∀ i, some i ∈ idx ↔ ∃ j, i = pre.length + j ∧ ms[j]? = some true := by
  induction ms generalizing pre suf with
  | nil => exact ⟨[], by simp [masked, locate], not_mem_nil, by simp⟩
  | cons m ms ih =>
    cases suf with
    | nil => cases hl
    | cons w suf =>
      have ha' : a.norms = (pre ++ [w]) ++ suf := by simpa using ha
      obtain ⟨idx, hloc, hnone, hidx⟩ := ih ha' (Nat.succ.inj hl)
      have hlen : (pre ++ [w]).length = pre.length + 1 := by simp
      rw [hlen] at hidx
      cases m with
      | false =>
        refine ⟨idx, hloc, hnone, fun i => (hidx i).trans ⟨?_, ?_⟩⟩
        · rintro ⟨j, rfl, hj⟩
          exact ⟨j + 1, by omega, hj⟩
        · rintro ⟨j, rfl, hj⟩
          cases j with
          | zero => cases hj
          | succ j => exact ⟨j, by omega, hj⟩
      | true =>
        refine ⟨some pre.length :: idx, ?_, by simpa using hnone, fun i => ?_⟩
        · unfold masked locate
          rw [attrValfind_at ha hd, hloc]
          rfl
        · rw [mem_cons, Option.some.injEq, hidx]
          constructor
          · rintro (rfl | ⟨j, rfl, hj⟩)
            · exact ⟨0, rfl, rfl⟩
            · exact ⟨j + 1, by omega, hj⟩
          · rintro ⟨j, rfl, hj⟩
            cases j with
            | zero => exact .inl rfl
            | succ j => exact .inr ⟨j, by omega, hj⟩

theorem checkNew_missing (h : ∀ w ∈ ws, ∀ s ∈ a.norms, mr.cmp s w ≠ .eq) :
    checkNew mr a true p ws = .ok (List.replicate ws.length true) := by
  induction ws with
  | nil => rfl
  | cons w ws ih =>
    unfold checkNew
    rw [attrValfind_missing (h w mem_cons_self), ih fun x hx => h x (mem_cons_of_mem w hx)]
    rfl

end Valfind

/-! ## Lists of attributes -/

variable [DecidableEq δ]

def attrFind (attrs : List (Attr δ ν)) (desc : δ) : Option (Attr δ ν) := attrs.find? fun a => a.desc = desc

/-- `attr_delete`: the list without the attribute. -/
def attrDelete (attrs : List (Attr δ ν)) (desc : δ) : List (Attr δ ν) := attrs.eraseP fun a => a.desc = desc

/-- A change of the attribute that `attr_find` finds. -/
def attrSet (attrs : List (Attr δ ν)) (desc : δ) (f : Attr δ ν → Attr δ ν) : List (Attr δ ν) :=
  match attrs with
  | [] => []
  | a :: as => if a.desc = desc then f a :: as else a :: attrSet as desc f

section Find

variable {attrs : List (Attr δ ν)} {d d' : δ}

theorem attrFind_cons (a : Attr δ ν) :
    attrFind (a :: attrs) d = if a.desc = d then some a else attrFind attrs d := by
  unfold attrFind
  by_cases h : a.desc = d <;> simp [h]

theorem attrDelete_cons (a : Attr δ ν) :
    attrDelete (a :: attrs) d = if a.desc = d then attrs else a :: attrDelete attrs d := by
  unfold attrDelete
  by_cases h : a.desc = d <;> simp [h]

theorem attrFind_none : attrFind attrs d = none ↔ d ∉ attrs.map (·.desc) := by
  unfold attrFind
  rw [List.find?_eq_none]
  simp [eq_comm]

theorem attrFind_some {a : Attr δ ν} (h : attrFind attrs d = some a) : a ∈ attrs ∧ a.desc = d :=
  ⟨List.mem_of_find?_eq_some h, by simpa using List.find?_some h⟩

theorem attrFind_of_mem (hn : (attrs.map (·.desc)).Nodup) {a : Attr δ ν} (ha : a ∈ attrs) :
    attrFind attrs a.desc = some a := by
  induction attrs with
  | nil => cases ha
  | cons b attrs ih =>
    obtain ⟨hb, hn⟩ := List.nodup_cons.mp hn
    rw [attrFind_cons]
    rcases List.mem_cons.mp ha with rfl | ha
    · rw [if_pos rfl]
    · have hne : b.desc ≠ a.desc := by
        intro h
        exact hb (List.mem_map.mpr ⟨a, ha, h.symm⟩)
      rw [if_neg hne]
      exact ih hn ha

theorem attrFind_append_new {a : Attr δ ν} (h : attrFind attrs a.desc = none) :
    attrFind (attrs ++ [a]) d = if d = a.desc then some a else attrFind attrs d := by
  unfold attrFind at h ⊢
  rw [List.find?_append]
  by_cases hd : d = a.desc
  · subst hd
    simp [h]
  · rw [if_neg hd]
    cases attrs.find? fun b => b.desc = d <;> simp [Ne.symm hd]

theorem attrFind_attrDelete_ne (h : d' ≠ d) : attrFind (attrDelete attrs d) d' = attrFind attrs d' := by
  induction attrs with
  | nil => rfl
  | cons a attrs ih =>
    rw [attrDelete_cons]
    by_cases ha : a.desc = d
    · have hne : a.desc ≠ d' := by
        intro h'
        exact h (h'.symm.trans ha)
      rw [if_pos ha, attrFind_cons, if_neg hne]
    · rw [if_neg ha, attrFind_cons, attrFind_cons, ih]

theorem nodup_attrDelete (d : δ) (hn : (attrs.map (·.desc)).Nodup) : ((attrDelete attrs d).map (·.desc)).Nodup :=
  hn.sublist ((eraseP_sublist).map _)

theorem attrFind_attrDelete_self (hn : (attrs.map (·.desc)).Nodup) : attrFind (attrDelete attrs d) d = none := by
  induction attrs with
  | nil => rfl
  | cons a attrs ih =>
    obtain ⟨ha, hn⟩ := List.nodup_cons.mp hn
    rw [attrDelete_cons]
    by_cases had : a.desc = d
    · rw [if_pos had, attrFind_none, ← had]
      exact ha
    · rw [if_neg had, attrFind_cons, if_neg had]
      exact ih hn

variable {f : Attr δ ν → Attr δ ν}

theorem attrSet_descs (hf : ∀ a, (f a).desc = a.desc) : (attrSet attrs d f).map (·.desc) = attrs.map (·.desc) := by
  induction attrs with
  | nil => rfl
  | cons a attrs ih =>
    unfold attrSet
    by_cases ha : a.desc = d
    · rw [if_pos ha, map_cons, map_cons, hf]
    · rw [if_neg ha, map_cons, map_cons, ih]

theorem attrFind_attrSet (hf : ∀ a, (f a).desc = a.desc) :
    attrFind (attrSet attrs d f) d' = if d' = d then (attrFind attrs d).map f else attrFind attrs d' := by
  induction attrs with
  | nil => simp [attrSet, attrFind]
  | cons a attrs ih =>
    unfold attrSet
    by_cases ha : a.desc = d
    · rw [if_pos ha, attrFind_cons, attrFind_cons, attrFind_cons, if_pos ha, hf, ha]
      by_cases hd : d = d'
      · rw [if_pos hd, if_pos hd.symm, Option.map_some]
      · rw [if_neg hd, if_neg (Ne.symm hd), if_neg hd]
    · rw [if_neg ha, attrFind_cons, attrFind_cons, attrFind_cons, ih, if_neg ha]
      by_cases hd : d' = d
      · rw [if_pos hd, if_pos hd, if_neg (fun h => ha (h.trans hd))]
      · rw [if_neg hd, if_neg hd]

end Find

/-- From `attrs` to `attrs'` only the attribute of `d` changes, and becomes `a`. -/
structure Sets (attrs attrs' : List (Attr δ ν)) (d : δ) (a : Option (Attr δ ν)) : Prop where
  nodup : (attrs'.map (·.desc)).Nodup
  frame : ∀ d', d' ≠ d → attrFind attrs' d' = attrFind attrs d'
  found : attrFind attrs' d = a

section Sets

variable {attrs attrs' attrs'' : List (Attr δ ν)} {d : δ} {a : Attr δ ν} {b b' : Option (Attr δ ν)}
  (hn : (attrs.map (·.desc)).Nodup)

theorem Sets.trans (h : Sets attrs attrs' d b) (h' : Sets attrs' attrs'' d b') : Sets attrs attrs'' d b' :=
  ⟨h'.nodup, fun d' hd => (h'.frame d' hd).trans (h.frame d' hd), h'.found⟩

include hn

theorem sets_attrDelete (d : δ) : Sets attrs (attrDelete attrs d) d none :=
  ⟨nodup_attrDelete d hn, fun _ hd => attrFind_attrDelete_ne hd, attrFind_attrDelete_self hn⟩

theorem sets_attrSet {f : Attr δ ν → Attr δ ν} (hf : ∀ a, (f a).desc = a.desc) (ha : attrFind attrs d = some a) :
    Sets attrs (attrSet attrs d f) d (some (f a)) := by
  refine ⟨by rw [attrSet_descs hf]; exact hn, fun d' hd => ?_, ?_⟩
  · rw [attrFind_attrSet hf, if_neg hd]
  · rw [attrFind_attrSet hf, if_pos rfl, ha, Option.map_some]

theorem sets_append (ha : attrFind attrs a.desc = none) : Sets attrs (attrs ++ [a]) a.desc (some a) := by
  refine ⟨?_, fun d' hd => ?_, ?_⟩
  · rw [map_append, nodup_append]
    refine ⟨hn, by simp, ?_⟩
    rintro x hx y hy rfl
    rw [map_singleton, mem_singleton] at hy
    exact attrFind_none.mp ha (hy ▸ hx)
  · rw [attrFind_append_new ha, if_neg hd]
  · rw [attrFind_append_new ha, if_pos rfl]

end Sets

variable [DecidableEq ν]

def attrMerge (sch : ModSchema δ ν) (attrs : List (Attr δ ν)) (desc : δ) (vals : List ν) (nvals : Option (List ν)) :
    Except ModRc (List (Attr δ ν)) :=
  match attrFind attrs desc with
  | none => .ok (attrs ++ [attrNew desc vals nvals])
  | some a =>
    let nvals := if sch.righteous ∧ a.nvals = none ∧ nvals = some vals then none else nvals
    match a.nvals, nvals with
    | none, none => .ok (attrSet attrs desc fun a => { a with vals := a.vals ++ vals })
    | some ns, some nvals => .ok (attrSet attrs desc fun a => { a with vals := a.vals ++ vals, nvals := some (ns ++ nvals) })
    | _, _ => .error .abort

def modifyAddValues (sch : ModSchema δ ν) (attrs : List (Attr δ ν)) (mod : Modification δ ν) (permissive : Bool) :
    Except ModRc (List (Attr δ ν)) :=
  let vals := mod.values.getD []
  match attrFind attrs mod.desc with
  | none => attrMerge sch attrs mod.desc vals mod.nvalues
  | some a =>
    match sch.equality mod.desc with
    | none => .error .inappropriateMatching
    | some mr =>
      match checkNew mr a mod.nvalues.isSome permissive (mod.nvalues.getD vals) with
      | .error rc => .error rc
      | .ok mask =>
        if permissive ∧ masked mask vals = [] then .ok attrs
        else attrMerge sch attrs mod.desc (masked mask vals) (mod.nvalues.map (masked mask))

/-- `modify_delete_values`: its return code, `none` for `LDAP_SUCCESS`, and the attributes. The code of the last value
that was looked for is returned, also when the values are deleted. -/
def modifyDeleteValues (sch : ModSchema δ ν) (attrs : List (Attr δ ν)) (mod : Modification δ ν) (permissive : Bool) :
    Option ModRc × List (Attr δ ν) :=
  match mod.values with
  | none =>
    (if (attrFind attrs mod.desc).isSome ∨ permissive then none else some .noSuchAttribute, attrDelete attrs mod.desc)
  | some vals =>
    match sch.equality mod.desc with
    | none => (some .inappropriateMatching, attrs)
    | some mr =>
      match attrFind attrs mod.desc with
      | none => (if permissive then none else some .noSuchAttribute, attrs)
      | some a =>
        match locate mr a mod.nvalues.isSome permissive (mod.nvalues.getD vals) with
        | .error rc => (some rc, attrs)
        | .ok idx =>
          (if idx.getLast? = some none then some .noSuchAttribute else none,
            if dropAt idx 0 a.vals = [] then attrDelete attrs mod.desc
            else attrSet attrs mod.desc fun a =>
              { a with vals := dropAt idx 0 a.vals, nvals := a.nvals.map (dropAt idx 0) })

def modifyReplaceValues (sch : ModSchema δ ν) (attrs : List (Attr δ ν)) (mod : Modification δ ν) (permissive : Bool) :
    Except ModRc (List (Attr δ ν)) :=
  if mod.values.isSome then modifyAddValues sch (attrDelete attrs mod.desc) mod permissive
  else .ok (attrDelete attrs mod.desc)

/-- The sums of `modify_increment_values`. -/
def incremented (sch : ModSchema δ ν) (incr : Int) : List ν → Except ModRc (List ν)
  | [] => .ok []
  | v :: vs =>
    match sch.atol v with
    | none => .error .invalidSyntax
    | some n => (incremented sch incr vs).map (sch.ltoa (n + incr) :: ·)

def modifyIncrementValues (sch : ModSchema δ ν) (attrs : List (Attr δ ν)) (mod : Modification δ ν) (permissive : Bool) :
    Except ModRc (List (Attr δ ν)) :=
  match attrFind attrs mod.desc with
  | none =>
    if permissive then modifyAddValues sch attrs { mod with op := .replace } permissive else .error .noSuchAttribute
  | some a =>
    if sch.integer a.desc then
      match mod.values with
      | some (v :: _) =>
        match sch.atol v with
        | none => .error .invalidSyntax
        | some 0 => .ok attrs
        | some incr =>
          (incremented sch incr a.norms).map fun ns =>
            attrSet attrs mod.desc fun a => if a.nvals = none then { a with vals := ns } else { a with nvals := some ns }
      | _ => .error .abort
    else .error .constraintViolation

section Modify

variable {sch : ModSchema δ ν} {attrs : List (Attr δ ν)} {d : δ} {a : Attr δ ν} (hn : (attrs.map (·.desc)).Nodup)

include hn

theorem modifyReplaceValues_sets {p : Bool} {mod : Modification δ ν} {vals : List ν} (hv : mod.values = some vals) :
    ∃ attrs', modifyReplaceValues sch attrs mod p = .ok attrs' ∧
      Sets attrs attrs' mod.desc (some (attrNew mod.desc vals mod.nvalues)) := by
  have hdel := sets_attrDelete hn mod.desc
  refine ⟨attrDelete attrs mod.desc ++ [attrNew mod.desc vals mod.nvalues], ?_, ?_⟩
  · unfold modifyReplaceValues modifyAddValues attrMerge
    simp [hv, hdel.found]
  · have hnew : attrFind (attrDelete attrs mod.desc) (attrNew mod.desc vals mod.nvalues).desc = none := hdel.found
    exact hdel.trans (sets_append hdel.nodup hnew)

omit [DecidableEq ν] in
theorem modifyDeleteValues_sets {mr : EqualityRule ν} {ms : List Bool} (hr : sch.equality d = some mr)
    (ha : attrFind attrs d = some a) (hnorm : a.vals.map mr.norm = a.norms.map some) (hd : mr.Distinct a.norms)
    (hl : ms.length = a.vals.length) (hlive : masked (ms.map not) a.vals ≠ []) :
    ∃ attrs', modifyDeleteValues sch attrs ⟨.delete, d, some (masked ms a.vals), a.nvals.map (masked ms)⟩ false =
        (none, attrs') ∧
      Sets attrs attrs' d
        (some { a with vals := masked (ms.map not) a.vals, nvals := a.nvals.map (masked (ms.map not)) }) := by
  have hlen : a.vals.length = a.norms.length := by simpa using congrArg List.length hnorm
  obtain ⟨idx, hloc, hnone, hidx⟩ := locate_masked (p := false) (List.nil_append _).symm hd (hl.trans hlen)
  have hidx' : ∀ i, some (0 + i) ∈ idx ↔ ms[i]? = some true := by
    intro i
    rw [hidx]
    constructor
    · rintro ⟨j, hj, hjt⟩
      have : i = j := by simpa using hj
      exact this ▸ hjt
    · intro h
      exact ⟨i, by simp, h⟩
  have hvals : dropAt idx 0 a.vals = masked (ms.map not) a.vals := dropAt_masked hl hidx'
  have hnvals : a.nvals.map (dropAt idx 0) = a.nvals.map (masked (ms.map not)) := by
    cases hnv : a.nvals with
    | none => rfl
    | some ns =>
      have hns : a.norms = ns := by simp [Attr.norms, hnv]
      rw [Option.map_some, Option.map_some, dropAt_masked (hl.trans (hns ▸ hlen)) hidx']
  have hfind : locate mr a (a.nvals.map (masked ms)).isSome false ((a.nvals.map (masked ms)).getD (masked ms a.vals)) =
      .ok idx := by
    cases hnv : a.nvals with
    | none =>
      have hm : (masked ms a.vals).map mr.norm = (masked ms a.norms).map some := by
        rw [← masked_map, ← masked_map, hnorm]
      exact (locate_norm hm).trans hloc
    | some ns =>
      have hns : a.norms = ns := by simp [Attr.norms, hnv]
      exact hns ▸ hloc
  have hlast : idx.getLast? ≠ some none := fun h => hnone (List.mem_of_getLast? h)
  refine ⟨attrSet attrs d fun a => { a with vals := dropAt idx 0 a.vals, nvals := a.nvals.map (dropAt idx 0) }, ?_, ?_⟩
  · unfold modifyDeleteValues
    simp only [hr, ha, hfind, if_neg hlast, hvals, if_neg hlive]
  · rw [← hvals, ← hnvals]
    exact sets_attrSet hn (fun _ => rfl) ha

theorem modifyAddValues_sets (op : ModOp) (p : Bool) {mr : EqualityRule ν} {vs ws : List ν}
    (hr : sch.equality d = some mr) (ha : attrFind attrs d = some a) (hnorm : vs.map mr.norm = ws.map some)
    (hnew : ∀ w ∈ ws, ∀ s ∈ a.norms, mr.cmp s w ≠ .eq) (hvs : vs ≠ []) :
    ∃ attrs', modifyAddValues sch attrs ⟨op, d, some vs, if a.nvals.isSome then some ws else none⟩ p = .ok attrs' ∧
      Sets attrs attrs' d (some { a with vals := a.vals ++ vs, nvals := a.nvals.map (· ++ ws) }) := by
  have hlen : vs.length = ws.length := by simpa using congrArg List.length hnorm
  have hcheck := checkNew_missing (p := p) hnew
  have hmask : masked (List.replicate ws.length true) vs = vs := hlen ▸ masked_replicate vs
  obtain ⟨d', avals, _ | ns, ixadd, ixdel, bigMulti⟩ := a
  · refine ⟨_, ?_, sets_attrSet (f := fun a => { a with vals := a.vals ++ vs }) hn (fun _ => rfl) ha⟩
    unfold modifyAddValues attrMerge
    simp [ha, hr, checkNew_norm hnorm, hcheck, hmask, hvs]
  · have hmask' : masked (List.replicate ws.length true) ws = ws := masked_replicate ws
    refine ⟨_, ?_, sets_attrSet (f := fun a => { a with vals := a.vals ++ vs, nvals := some (ns ++ ws) }) hn
      (fun _ => rfl) ha⟩
    unfold modifyAddValues attrMerge
    simp [ha, hr, hcheck, hmask, hmask', hvs]

end Modify

end Slapd
end ReOpenLDAP
