import ReOpenLDAP.BackMdb.IdlAppend
import Mathlib.Data.Set.Card

/-!
# BackMdb.IdlUnion

`mdb_idl_union` on its two arrays, and that it computes the union of the lists or the range around both.
-/

namespace ReOpenLDAP
namespace BackMdb

open List

/-- An array of IDs, with the count or `NOID` in cell 0. -/
abbrev Ids := Nat → Nat

namespace Ids

/-- What `mdb_idl_first` and `mdb_idl_next` return for a list. -/
def idAt (ids : Ids) (cursor : Nat) : Nat := if cursor ≤ ids 0 then ids cursor else NOID

/-- `MDB_IDL_LAST` -/
def lastId (ids : Ids) : Nat := if ids 0 = NOID then ids 2 else ids (ids 0)

/-- `MDB_IDL_CPY` -/
def cpy (dst src : Ids) : Ids := fun i => if i < (if src 0 = NOID then 3 else src 0 + 1) then src i else dst i

/-- From the label `over` on. -/
def overRange (a b : Ids) : Ids :=
  Function.update (Function.update (Function.update a 0 NOID) 1 (min (a 1) (b 1))) 2 (max (lastId a) (lastId b))

/-- The first loop of `mdb_idl_union`: the distinct elements of `a` are cat'd to `b`, behind `cursorc`. The last
`cursorc` is missing where the loop jumps to `over`. -/
def park (a : Ids) : Nat → Nat → Nat → Nat → Ids → Option (Option Nat × Ids)
  | 0, _, _, _, _ => none
  | fuel + 1, cursora, cursorb, cursorc, b =>
    let ida := idAt a cursora
    let idb := idAt b cursorb
    if ida ≠ NOID ∨ idb ≠ NOID then
      if ida < idb then
        if MDB_IDL_UM_MAX < cursorc + 1 then some (none, b)
        else park a fuel (cursora + 1) cursorb (cursorc + 1) (Function.update b (cursorc + 1) ida)
      else park a fuel (if ida = idb then cursora + 1 else cursora) (cursorb + 1) cursorc b
    else some (some cursorc, b)

/-- The second loop: `b` is copied back to `a` in sorted order. -/
def merge (b : Ids) : Nat → Nat → Nat → Nat → Ids → Option Ids
  | 0, _, _, _, _ => none
  | fuel + 1, cursora, cursorb, cursorc, a =>
    if cursorb ≤ b 0 ∨ cursorc ≤ a 0 then
      let idb := if a 0 < cursorc then NOID else b cursorc
      if cursorb ≤ b 0 ∧ b cursorb < idb then merge b fuel (cursora + 1) (cursorb + 1) cursorc (Function.update a cursora (b cursorb))
      else merge b fuel (cursora + 1) cursorb (cursorc + 1) (Function.update a cursora idb)
    else some a

/-- `mdb_idl_union`: `a` and `b` as it leaves them. -/
def union (a b : Ids) : Option (Ids × Ids) :=
  if b 0 = 0 then some (a, b)
  else if a 0 = 0 then some (cpy a b, b)
  else if a 0 = NOID ∨ b 0 = NOID then some (overRange a b, b)
  else
    match park a (a 0 + b 0 + 1) 1 1 (b 0) b with
    | none => none
    | some (none, b) => some (overRange a b, b)
    | some (some cursorc, b) =>
      (merge b (cursorc + 1) 1 1 (b 0 + 1) (Function.update a 0 cursorc)).map fun a => (a, b)

/-- These IDs from cell `i` on. -/
def Cells (ids : Ids) : Nat → List Nat → Prop
  | _, [] => True
  | i, x :: xs => ids i = x ∧ Cells ids (i + 1) xs

/-- The array holds the list or range. -/
def Holds (ids : Ids) : IDL → Prop
  | .list xs => ids 0 = xs.length ∧ Cells ids 1 xs
  | .range lo hi => ids 0 = NOID ∧ ids 1 = lo ∧ ids 2 = hi

/-- What is left of a list from a cursor on. -/
structure Rest (ids : Ids) (last cursor : Nat) (xs : List Nat) : Prop where
  length : cursor + xs.length = last + 1
  cells : Cells ids cursor xs
  lt : ∀ x ∈ xs, x < NOID

/-- `mdb_idl_union` leaves this list or range, the IDs of `b`, and what is behind both arrays. -/
def Leaves (a b : Ids) (r : IDL) (p : Option (Ids × Ids)) : Prop :=
  ∃ a' b', p = some (a', b') ∧ Holds a' r ∧ (∀ i, MDB_IDL_UM_MAX < i → a' i = a i ∧ b' i = b i) ∧ ∀ i, i ≤ b 0 → b' i = b i

variable {a b ids ids' : Ids} {as bs cs xs : List Nat} {i n lo hi fuel last cursora cursorb cursorc : Nat} {x y : IDL}

theorem Cells.congr (h : Cells ids i xs) (heq : ∀ j, i ≤ j → j < i + xs.length → ids' j = ids j) : Cells ids' i xs := by
  induction xs generalizing i with
  | nil => trivial
  | cons x xs ih =>
    refine ⟨(heq i le_rfl (by simp)).trans h.1, ih h.2 fun j hj hlt => heq j (by omega) ?_⟩
    simp only [length_cons]
    omega

namespace Rest

theorem update (h : Rest ids last n xs) {j v : Nat} (hj : last < j) : Rest (Function.update ids j v) last n xs :=
  ⟨h.length, h.cells.congr fun _ _ hlt => Function.update_of_ne (by have := h.length; omega) _ _, h.lt⟩

theorem nil (h : Rest ids last n []) : n = last + 1 := h.length

theorem tail {x : Nat} (h : Rest ids last n (x :: xs)) : Rest ids last (n + 1) xs :=
  ⟨by have := h.length; simp only [length_cons] at this; omega, h.cells.2, fun z hz => h.lt z (mem_cons_of_mem _ hz)⟩

theorem head {x : Nat} (h : Rest ids last n (x :: xs)) : n ≤ last ∧ ids n = x ∧ x < NOID :=
  ⟨by have := h.tail.length; omega, h.cells.1, h.lt x mem_cons_self⟩

theorem at_eq (h : Rest ids (ids 0) n xs) : idAt ids n = xs.headD NOID := by
  cases xs with
  | nil => exact if_neg (by have := h.nil; omega)
  | cons x xs => exact (if_pos h.head.1).trans h.head.2.1

end Rest

/-- What the first loop leaves, for the elements `cs` that it is to store. -/
def Parked (b : Ids) (cursorc : Nat) (cs : List Nat) (r : Option (Option Nat × Ids)) : Prop :=
  ∃ b', (∀ i, i ≤ cursorc ∨ MDB_IDL_UM_MAX < i → b' i = b i) ∧
    if MDB_IDL_UM_MAX < cursorc + cs.length then r = some (none, b')
    else r = some (some (cursorc + cs.length), b') ∧ Cells b' (cursorc + 1) cs

theorem Parked.push {x : Nat} {r : Option (Option Nat × Ids)} (hc : cursorc + 1 ≤ MDB_IDL_UM_MAX)
    (h : Parked (Function.update b (cursorc + 1) x) (cursorc + 1) cs r) : Parked b cursorc (x :: cs) r := by
  obtain ⟨b', hframe, hr⟩ := h
  refine ⟨b', fun i hi => ?_, ?_⟩
  · rw [hframe i (by omega), Function.update_of_ne (by omega)]
  · have hlen : cursorc + (x :: cs).length = cursorc + 1 + cs.length := by
      rw [length_cons]
      omega
    rw [hlen]
    split_ifs at hr ⊢
    · exact hr
    · exact ⟨hr.1, (hframe _ (.inl le_rfl)).trans (Function.update_self _ _ _), hr.2⟩

theorem park_succ (ida idb : Nat) (ha : idAt a cursora = ida) (hb : idAt b cursorb = idb) (hne : ida ≠ NOID ∨ idb ≠ NOID) :
    park a (fuel + 1) cursora cursorb cursorc b =
      if ida < idb then
        if MDB_IDL_UM_MAX < cursorc + 1 then some (none, b)
        else park a fuel (cursora + 1) cursorb (cursorc + 1) (Function.update b (cursorc + 1) ida)
      else park a fuel (if ida = idb then cursora + 1 else cursora) (cursorb + 1) cursorc b := by
  subst ha hb
  rw [park]
  exact if_pos hne

/-- The first loop stores what `distinct` selects. -/
theorem park_spec (ha : Rest a (a 0) cursora as) (hb : Rest b (b 0) cursorb bs) (hfuel : as.length + bs.length < fuel)
    (hc : b 0 ≤ cursorc) (hmax : cursorc ≤ MDB_IDL_UM_MAX) :
    Parked b cursorc (distinct as bs) (park a fuel cursora cursorb cursorc b) := by
  induction fuel generalizing as bs cursora cursorb cursorc b with
  | zero => exact absurd hfuel (Nat.not_lt_zero _)
  | succ fuel ih =>
    have hpush : ∀ x as', as = x :: as' → Parked b cursorc (x :: distinct as' bs) (if MDB_IDL_UM_MAX < cursorc + 1 then some (none, b)
        else park a fuel (cursora + 1) cursorb (cursorc + 1) (Function.update b (cursorc + 1) x)) := by
      rintro x as' rfl
      split_ifs with hover
      · exact ⟨b, fun _ _ => rfl, by rw [if_pos (by simp only [length_cons]; omega)]⟩
      · have hzero : Function.update b (cursorc + 1) x 0 = b 0 := Function.update_of_ne (by omega) _ _
        rw [length_cons] at hfuel
        exact .push (not_lt.mp hover) (ih ha.tail (hzero.symm ▸ hb.update (by omega)) (by omega) (by omega) (not_lt.mp hover))
    rcases as with - | ⟨x, as⟩ <;> rcases bs with - | ⟨y, bs⟩
    · have hstop : park a (fuel + 1) cursora cursorb cursorc b = some (some cursorc, b) := by
        rw [park, if_neg (by rw [ha.at_eq, hb.at_eq]; simp)]
      exact ⟨b, fun _ _ => rfl, by simp [hstop, distinct, hmax.not_gt, Cells]⟩
    · have hlt := hb.head.2.2
      rw [park_succ NOID y ha.at_eq hb.at_eq (.inr hlt.ne), if_neg hlt.not_gt, if_neg hlt.ne',
        show distinct [] (y :: bs) = distinct [] bs by simp [distinct]]
      exact ih ha hb.tail (by simpa using hfuel) hc hmax
    · have hlt := ha.head.2.2
      rw [park_succ x NOID ha.at_eq hb.at_eq (.inl hlt.ne), if_pos hlt, distinct]
      exact hpush x as rfl
    · rw [park_succ x y ha.at_eq hb.at_eq (.inl ha.head.2.2.ne), distinct]
      simp only [length_cons] at hfuel
      rcases lt_trichotomy x y with hxy | rfl | hxy
      · rw [if_pos hxy, if_pos hxy]
        exact hpush x as rfl
      · simp only [lt_irrefl, if_true, if_false]
        exact ih ha.tail hb.tail (by omega) hc hmax
      · simp only [hxy.not_gt, hxy.ne', if_false]
        exact ih ha hb.tail (by simp only [length_cons]; omega) hc hmax

/-- What the second loop leaves, for the IDs that it is to store. -/
def Merged (a : Ids) (cursora : Nat) (zs : List Nat) (r : Option Ids) : Prop :=
  ∃ a', r = some a' ∧ Cells a' cursora zs ∧ ∀ i, i < cursora ∨ cursora + zs.length ≤ i → a' i = a i

theorem Merged.push {z : Nat} {zs : List Nat} {r : Option Ids} (h : Merged (Function.update a cursora z) (cursora + 1) zs r) :
    Merged a cursora (z :: zs) r := by
  obtain ⟨a', heq, hcells, hframe⟩ := h
  refine ⟨a', heq, ⟨(hframe _ (.inl (Nat.lt_succ_self _))).trans (Function.update_self _ _ _), hcells⟩, fun i hi => ?_⟩
  rw [length_cons] at hi
  rw [hframe i (by omega), Function.update_of_ne (by omega)]

/-- The second loop stores what `copyBack` gives. -/
theorem merge_spec (hb : Rest b (b 0) cursorb bs) (hc : Rest b (a 0) cursorc cs) (hfuel : bs.length + cs.length < fuel)
    (hpos : 0 < cursora) : Merged a cursora (copyBack bs cs) (merge b fuel cursora cursorb cursorc a) := by
  induction fuel generalizing bs cs cursora cursorb cursorc a with
  | zero => exact absurd hfuel (Nat.not_lt_zero _)
  | succ fuel ih =>
    have hzero (v : Nat) : Function.update a cursora v 0 = a 0 := Function.update_of_ne (by omega) _ _
    rw [merge]
    rcases bs with - | ⟨x, bs⟩ <;> rcases cs with - | ⟨y, cs⟩ <;> simp only [length_cons, length_nil] at hfuel
    · have := hb.nil
      have := hc.nil
      rw [if_neg (by omega)]
      exact ⟨a, rfl, by simp [copyBack, Cells], fun _ _ => rfl⟩
    · have := hb.nil
      obtain ⟨hle, hy, -⟩ := hc.head
      simp only [if_pos (Or.inr hle : cursorb ≤ b 0 ∨ _), if_neg (not_lt.mpr hle), hy]
      rw [if_neg (by omega), show copyBack [] (y :: cs) = y :: copyBack [] cs by simp [copyBack]]
      exact .push (ih hb ((hzero y).symm ▸ hc.tail) (by simpa using hfuel) (Nat.succ_pos _))
    · have := hc.nil
      obtain ⟨hle, hx, hlt⟩ := hb.head
      simp only [if_pos (Or.inl hle : _ ∨ cursorc ≤ a 0), if_pos (show a 0 < cursorc by omega), hx]
      rw [if_pos ⟨hle, hlt⟩, copyBack]
      exact .push (ih hb.tail ((hzero x).symm ▸ hc) (by simpa using hfuel) (Nat.succ_pos _))
    · obtain ⟨hleb, hx, -⟩ := hb.head
      obtain ⟨hlec, hy, -⟩ := hc.head
      simp only [hleb, true_or, true_and, if_true, if_neg (not_lt.mpr hlec), hx, hy]
      rw [copyBack]
      split_ifs
      · exact .push (ih hb.tail ((hzero x).symm ▸ hc) (by simp only [length_cons]; omega) (Nat.succ_pos _))
      · exact .push (ih hb ((hzero y).symm ▸ hc.tail) (by simp only [length_cons]; omega) (Nat.succ_pos _))

/-! ## The arrays -/

theorem Cells.getLastD {x : Nat} (h : Cells ids i (x :: xs)) : ids (i + xs.length) = xs.getLastD x := by
  induction xs generalizing i x with
  | nil => exact h.1
  | cons y ys ih =>
    have := ih h.2
    rw [getLastD_cons, length_cons, ← this]
    congr 1
    omega

theorem length_lt_NOID (h : (IDL.list xs).Valid) : xs.length < NOID := lt_of_le_of_lt h.2.2 (by simp [MDB_IDL_UM_MAX, NOID])

theorem Holds.ends (h : Holds ids x) (hv : x.Valid) (hz : x.isZero = false) : ids 1 = x.first ∧ lastId ids = x.last := by
  cases x with
  | range lo hi => exact ⟨h.2.1, (if_pos h.1).trans h.2.2⟩
  | list xs =>
    cases xs with
    | nil => cases hz
    | cons y ys =>
      refine ⟨h.2.1, ?_⟩
      have hlt := length_lt_NOID hv
      rw [lastId, if_neg (by rw [h.1]; exact hlt.ne), h.1, length_cons, Nat.add_comm, h.2.getLastD]
      exact (getLastD_cons (a := 0)).symm

theorem Holds.zero_iff (h : Holds ids x) : ids 0 = 0 ↔ x.isZero = true := by
  cases x with
  | range lo hi => simp [h.1, IDL.isZero, NOID]
  | list xs => simp [h.1, IDL.isZero]

theorem Holds.rest (h : Holds ids (.list xs)) (hv : (IDL.list xs).Valid) : Rest ids (ids 0) 1 xs :=
  ⟨by rw [h.1, Nat.add_comm], h.2, hv.2.1⟩

theorem over_holds (ha : Holds a x) (hb : Holds b y) (hx : x.Valid) (hy : y.Valid) (hzx : x.isZero = false) (hzy : y.isZero = false) :
    Holds (overRange a b) (.range (min x.first y.first) (max x.last y.last)) ∧ ∀ i, MDB_IDL_UM_MAX < i → overRange a b i = a i := by
  obtain ⟨h1, h2⟩ := ha.ends hx hzx
  obtain ⟨h3, h4⟩ := hb.ends hy hzy
  unfold overRange
  rw [h1, h2, h3, h4]
  refine ⟨⟨rfl, rfl, rfl⟩, fun i hi => ?_⟩
  rw [Function.update_of_ne, Function.update_of_ne, Function.update_of_ne] <;> rintro rfl <;> exact absurd hi (by decide)

theorem cpy_holds (hb : Holds b y) (hy : y.Valid) : Holds (cpy a b) y ∧ ∀ i, MDB_IDL_UM_MAX < i → cpy a b i = a i := by
  have hmax : 3 ≤ MDB_IDL_UM_MAX := by simp [MDB_IDL_UM_MAX]
  cases y with
  | range lo hi =>
    have hif : ∀ i, cpy a b i = if i < 3 then b i else a i := fun i => by rw [cpy, if_pos hb.1]
    exact ⟨⟨(hif 0).trans hb.1, (hif 1).trans hb.2.1, (hif 2).trans hb.2.2⟩, fun i hi => (hif i).trans (if_neg (by omega))⟩
  | list ys =>
    have hlen := hy.2.2
    have hne : b 0 ≠ NOID := by
      rw [hb.1]
      exact (length_lt_NOID hy).ne
    have hif : ∀ i, cpy a b i = if i < b 0 + 1 then b i else a i := fun i => by rw [cpy, if_neg hne]
    refine ⟨⟨(hif 0).trans hb.1, hb.2.congr fun j _ hlt => (hif j).trans (if_pos (by rw [hb.1]; omega))⟩, fun i hi => ?_⟩
    exact (hif i).trans (if_neg (by rw [hb.1]; omega))

theorem lists_leave (ha : Holds a (.list as)) (hb : Holds b (.list bs)) (hx : (IDL.list as).Valid) (hy : (IDL.list bs).Valid)
    (hover : ∀ b', Holds b' (.list bs) → Holds (overRange a b') (.range lo hi) ∧ ∀ i, MDB_IDL_UM_MAX < i → overRange a b' i = a i) :
    Leaves a b (if MDB_IDL_UM_MAX < bs.length + (distinct as bs).length then .range lo hi else .list (copyBack bs (distinct as bs)))
      (match park a (a 0 + b 0 + 1) 1 1 (b 0) b with
        | none => none
        | some (none, b) => some (overRange a b, b)
        | some (some cursorc, b) =>
          (merge b (cursorc + 1) 1 1 (b 0 + 1) (Function.update a 0 cursorc)).map fun a => (a, b)) := by
  obtain ⟨b', hframe, hr⟩ := @park_spec a b as bs (a 0 + b 0 + 1) 1 1 (b 0) (ha.rest hx) (hb.rest hy)
    (by rw [ha.1, hb.1]; omega) le_rfl (hb.1 ▸ hy.2.2)
  have hb' : Holds b' (.list bs) :=
    ⟨(hframe 0 (.inl (Nat.zero_le _))).trans hb.1, hb.2.congr fun j _ hlt => hframe j (.inl (by rw [hb.1]; omega))⟩
  rw [← hb.1]
  split_ifs at hr ⊢ with hfull
  · rw [hr]
    exact ⟨_, b', rfl, (hover b' hb').1, fun i hi => ⟨(hover b' hb').2 i hi, hframe i (.inr hi)⟩, fun i hi => hframe i (.inl hi)⟩
  · obtain ⟨hpark, hcells⟩ := hr
    have hzero : b' 0 = b 0 := hframe 0 (.inl (Nat.zero_le _))
    have hcs : Rest b' (Function.update a 0 (b 0 + (distinct as bs).length) 0) (b' 0 + 1) (distinct as bs) :=
      ⟨by rw [Function.update_self]; omega, hzero.symm ▸ hcells, fun z hz => hx.2.1 z (distinct_sublist.subset hz)⟩
    have hbs : b 0 = bs.length := hb.1
    obtain ⟨a', hmerge, hback, hframe'⟩ := merge_spec (hb'.rest hy) hcs
      (show _ < b 0 + (distinct as bs).length + 1 by omega) Nat.one_pos
    have hlen := (copyBack_perm bs (distinct as bs)).length_eq
    rw [length_append] at hlen
    rw [hpark]
    refine ⟨a', b', ?_, ⟨?_, hback⟩, fun i hi => ⟨?_, hframe i (.inr hi)⟩, fun i hi => hframe i (.inl hi)⟩
    · exact congrArg (Option.map fun a => (a, b')) hmerge
    · rw [hframe' 0 (.inl Nat.one_pos), Function.update_self, hb.1, hlen]
    · rw [hframe' i (.inr (by omega)), Function.update_of_ne (by omega)]

theorem union_leaves (ha : Holds a x) (hb : Holds b y) (hx : x.Valid) (hy : y.Valid) : Leaves a b (mdbIdlUnion x y) (union a b) := by
  unfold union mdbIdlUnion
  by_cases hzy : y.isZero = true
  · rw [if_pos (hb.zero_iff.mpr hzy), if_pos hzy]
    exact ⟨a, b, rfl, ha, fun _ _ => ⟨rfl, rfl⟩, fun _ _ => rfl⟩
  rw [if_neg fun h => hzy (hb.zero_iff.mp h), if_neg hzy]
  by_cases hzx : x.isZero = true
  · obtain ⟨hcpy, hframe⟩ := cpy_holds (a := a) hb hy
    rw [if_pos (ha.zero_iff.mpr hzx), if_pos hzx]
    exact ⟨_, b, rfl, hcpy, fun i hi => ⟨hframe i hi, rfl⟩, fun _ _ => rfl⟩
  rw [if_neg fun h => hzx (ha.zero_iff.mp h), if_neg hzx]
  rw [Bool.not_eq_true] at hzx hzy
  have hrange : Leaves a b (.range (min x.first y.first) (max x.last y.last)) (some (overRange a b, b)) :=
    ⟨_, b, rfl, (over_holds ha hb hx hy hzx hzy).1, fun i hi => ⟨(over_holds ha hb hx hy hzx hzy).2 i hi, rfl⟩, fun _ _ => rfl⟩
  cases x with
  | range lo hi =>
    rw [if_pos (.inl ha.1)]
    exact hrange
  | list as =>
    cases y with
    | range lo hi =>
      rw [if_pos (.inr hb.1)]
      exact hrange
    | list bs =>
      have hna := length_lt_NOID hx
      have hnb := length_lt_NOID hy
      rw [if_neg (by rw [ha.1, hb.1]; omega)]
      exact lists_leave ha hb hx hy fun b' hb' => over_holds ha hb' hx hy hzx hzy

/-! ## The union -/

/-- Both are lists, and there are not too many IDs. -/
def Fit (x y : IDL) : Prop := ∃ as bs, x = .list as ∧ y = .list bs ∧ (x.denote ∪ y.denote).ncard ≤ MDB_IDL_UM_MAX

/-- The union where it fits, else the range around it. -/
structure Exact (x y r : IDL) : Prop where
  valid : r.Valid
  denote : Fit x y → r.denote = x.denote ∪ y.denote
  hull : ¬ Fit x y → ∃ lo hi, r = .range lo hi ∧ IsLeast (x.denote ∪ y.denote) lo ∧ IsGreatest (x.denote ∪ y.denote) hi

theorem mem_lists (hx : (IDL.list as).Valid) (hy : (IDL.list bs).Valid) : {z | z ∈ bs ++ distinct as bs} = (IDL.list as).denote ∪ (IDL.list bs).denote := by
  ext z
  simp only [Set.mem_ofPred_eq, mem_append, mem_distinct hx.1 hy.1, Set.mem_union, IDL.mem_denote_list]
  tauto

theorem fit_lists (hx : (IDL.list as).Valid) (hy : (IDL.list bs).Valid) : Fit (.list as) (.list bs) ↔
    bs.length + (distinct as bs).length ≤ MDB_IDL_UM_MAX := by
  have hnodup : (bs ++ distinct as bs).Nodup := by
    refine (copyBack_perm bs (distinct as bs)).nodup_iff.mp ((copyBack_increasing hy.1 (hx.1.sublist distinct_sublist) ?_).imp fun h => h.ne)
    exact fun z hz h => ((mem_distinct hx.1 hy.1).mp h).2 hz
  have hcard : ((IDL.list as).denote ∪ (IDL.list bs).denote).ncard = bs.length + (distinct as bs).length := by
    rw [← mem_lists hx hy, ← List.coe_toFinset, Set.ncard_coe_finset, toFinset_card_of_nodup hnodup, length_append]
  rw [← hcard]
  exact ⟨fun ⟨_, _, _, _, h⟩ => h, fun h => ⟨as, bs, rfl, rfl, h⟩⟩

theorem not_range_fit (y : IDL) : ¬ Fit (.range lo hi) y := by
  rintro ⟨_, _, h, -⟩
  cases h

theorem not_fit_range (x : IDL) : ¬ Fit x (.range lo hi) := by
  rintro ⟨_, _, -, h, -⟩
  cases h

theorem exact_hull (hx : x.Valid) (hy : y.Valid) (hzx : x.isZero = false) (hzy : y.isZero = false) (hfit : ¬ Fit x y) :
    Exact x y (.range (min x.first y.first) (max x.last y.last)) :=
  ⟨(union_over hx hy hzx hzy).1, fun h => absurd h hfit, fun _ => ⟨_, _, rfl, hull_holds (holds_of_valid hx) hy hzx hzy⟩⟩

/-- With no ID on one side the other side is the union. -/
theorem exact_zero (hx : x.Valid) : Exact x .zero x ∧ Exact .zero x x := by
  have hzero : IDL.zero.denote = ∅ := Set.eq_empty_of_forall_notMem fun _ => IDL.not_mem_zero
  cases x with
  | range lo hi =>
    refine ⟨⟨hx, fun h => absurd h (not_range_fit _), fun _ => ⟨lo, hi, rfl, ?_⟩⟩,
      ⟨hx, fun h => absurd h (not_fit_range _), fun _ => ⟨lo, hi, rfl, ?_⟩⟩⟩
    · rw [hzero, Set.union_empty]
      exact holds_of_valid hx
    · rw [hzero, Set.empty_union]
      exact holds_of_valid hx
  | list as =>
    have h1 : Fit (.list as) .zero := (fit_lists hx IDL.zero_valid).mpr (by
      have hsub : (distinct as []).length ≤ as.length := distinct_sublist.length_le
      have := hx.2.2
      simp only [length_nil]
      omega)
    have h2 : Fit .zero (.list as) := (fit_lists IDL.zero_valid hx).mpr (by simpa [distinct] using hx.2.2)
    exact ⟨⟨hx, fun _ => by rw [hzero, Set.union_empty], fun h => absurd h1 h⟩, ⟨hx, fun _ => by rw [hzero, Set.empty_union], fun h => absurd h2 h⟩⟩

theorem mdbIdlUnion_exact (hx : x.Valid) (hy : y.Valid) : Exact x y (mdbIdlUnion x y) := by
  have hvalid := (union_spec hx hy).1
  unfold mdbIdlUnion at hvalid ⊢
  cases hzy : y.isZero with
  | true =>
    obtain rfl := IDL.eq_zero_of_isZero hzy
    exact (exact_zero hx).1
  | false =>
    cases hzx : x.isZero with
    | true =>
      obtain rfl := IDL.eq_zero_of_isZero hzx
      exact (exact_zero hy).2
    | false =>
      have hhull := exact_hull hx hy hzx hzy
      cases x with
      | range lo hi => exact hhull (not_range_fit y)
      | list as =>
        cases y with
        | range lo hi => exact hhull (not_fit_range _)
        | list bs =>
          simp only [hzx, hzy, Bool.false_eq_true, if_false] at hvalid ⊢
          split_ifs with hmax
          · exact hhull fun h => absurd ((fit_lists hx hy).mp h) (not_le.mpr hmax)
          · refine ⟨by rwa [if_neg hmax] at hvalid, fun _ => ?_, fun h => absurd ((fit_lists hx hy).mpr (not_lt.mp hmax)) h⟩
            rw [← mem_lists hx hy]
            exact Set.ext fun z => (copyBack_perm bs (distinct as bs)).mem_iff

/-- Whatever two well-formed arrays hold. -/
theorem mdb_idl_union_exact (ha : Holds a x) (hb : Holds b y) (hx : x.Valid) (hy : y.Valid) :
    ∃ r, Exact x y r ∧ Leaves a b r (union a b) := ⟨_, mdbIdlUnion_exact hx hy, union_leaves ha hb hx hy⟩

theorem mdb_idl_union_exact_lists : ∃ r, Exact (.list [1, 5, 9]) (.list [5, 7]) r ∧
    Leaves ([3, 1, 5, 9].getD · 0) ([2, 5, 7].getD · 0) r (union ([3, 1, 5, 9].getD · 0) ([2, 5, 7].getD · 0)) :=
  mdb_idl_union_exact ⟨rfl, rfl, rfl, rfl, trivial⟩ ⟨rfl, rfl, rfl, trivial⟩
    ⟨by simp [Increasing, DupSort.SortedBy], by simp [NOID], by simp [MDB_IDL_UM_MAX]⟩
    ⟨by simp [Increasing, DupSort.SortedBy], by simp [NOID], by simp [MDB_IDL_UM_MAX]⟩

end Ids

end BackMdb
end ReOpenLDAP
