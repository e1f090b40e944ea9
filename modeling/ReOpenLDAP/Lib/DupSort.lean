import Mathlib.Algebra.Order.Ring.Int
import Mathlib.Order.Lex
import Mathlib.Data.List.Pairwise
import Mathlib.Data.List.InsertIdx
import Mathlib.Data.List.Nodup

/-!
# Lib.DupSort

The data items stored under one key of a sorted-duplicates table. Items are ordered by `key`, no
two items of a list have the same `key`, and the list is kept in strictly increasing order.
-/

namespace ReOpenLDAP
namespace DupSort

open List

variable {δ β : Type*} [LinearOrder β] (key : δ → β)

/-- Strictly increasing by `key`: the order of the duplicates of one key. -/
def SortedBy (ds : List δ) : Prop := ds.Pairwise fun a b => key a < key b

def insert (d : δ) : List δ → List δ
  | [] => [d]
  | x :: xs =>
    if key d < key x then d :: x :: xs
    else if key d = key x then d :: xs
    else x :: insert d xs

def erase (b : β) (ds : List δ) : List δ := ds.filter fun d => key d ≠ b

def find (b : β) (ds : List δ) : Option δ := ds.find? fun d => key d = b

variable {key}

@[simp] theorem sortedBy_nil : SortedBy key ([] : List δ) := List.Pairwise.nil

theorem sortedBy_cons {x : δ} {xs : List δ} :
    SortedBy key (x :: xs) ↔ (∀ y ∈ xs, key x < key y) ∧ SortedBy key xs :=
  pairwise_cons

theorem SortedBy.tail {x : δ} {xs : List δ} (h : SortedBy key (x :: xs)) : SortedBy key xs :=
  (sortedBy_cons.mp h).2

variable {ds : List δ} {d y : δ} {b : β}

theorem SortedBy.eq_of_key (h : SortedBy key ds) {a b : δ} (ha : a ∈ ds) (hb : b ∈ ds) (hk : key a = key b) : a = b := by
  induction ds with
  | nil => cases ha
  | cons x xs ih =>
    obtain ⟨hx, hxs⟩ := sortedBy_cons.mp h
    rcases List.mem_cons.mp ha with ha1 | ha1 <;> rcases List.mem_cons.mp hb with hb1 | hb1
    · rw [ha1, hb1]
    · rw [ha1] at hk; exact absurd hk (hx _ hb1).ne
    · rw [hb1] at hk; exact absurd hk (hx _ ha1).ne'
    · exact ih hxs ha1 hb1

theorem SortedBy.eq_of_mem_iff {es : List δ} (hd : SortedBy key ds) (he : SortedBy key es)
    (h : ∀ x, x ∈ ds ↔ x ∈ es) : ds = es := by
  have hnd : ∀ {l : List δ}, SortedBy key l → l.Nodup := fun hl =>
    List.Pairwise.imp (fun hab e => absurd (congrArg key e) hab.ne) hl
  have hperm := (perm_ext_iff_of_nodup (hnd hd) (hnd he)).mpr h
  exact hperm.eq_of_pairwise (fun a b _ _ hab hba => absurd hab hba.not_gt) hd he

theorem mem_insert (h : SortedBy key ds) : y ∈ insert key d ds ↔ y = d ∨ (y ∈ ds ∧ key y ≠ key d) := by
  induction ds with
  | nil => simp [insert]
  | cons x xs ih =>
    obtain ⟨hx, hxs⟩ := sortedBy_cons.mp h
    have hgt : key d ≤ key x → ∀ z ∈ xs, key z ≠ key d := fun hle z hz =>
      (lt_of_le_of_lt hle (hx z hz)).ne'
    unfold insert
    split_ifs with h1 h2
    · have hxd : key x ≠ key d := h1.ne'
      have := hgt h1.le
      simp only [mem_cons]
      constructor
      · rintro (rfl | rfl | hy)
        · exact .inl rfl
        · exact .inr ⟨.inl rfl, hxd⟩
        · exact .inr ⟨.inr hy, this y hy⟩
      · rintro (rfl | ⟨rfl | hy, -⟩) <;> simp_all
    · have := hgt h2.le
      simp only [mem_cons]
      constructor
      · rintro (rfl | hy)
        · exact .inl rfl
        · exact .inr ⟨.inr hy, this y hy⟩
      · rintro (rfl | ⟨rfl | hy, hne⟩)
        · exact .inl rfl
        · exact absurd h2.symm hne
        · exact .inr hy
    · have hxd : key x ≠ key d := fun e => h2 e.symm
      simp only [mem_cons, ih hxs]
      constructor
      · rintro (rfl | rfl | ⟨hy, hne⟩)
        · exact .inr ⟨.inl rfl, hxd⟩
        · exact .inl rfl
        · exact .inr ⟨.inr hy, hne⟩
      · rintro (rfl | ⟨rfl | hy, hne⟩)
        · exact .inr (.inl rfl)
        · exact .inl rfl
        · exact .inr (.inr ⟨hy, hne⟩)

theorem insert_sortedBy (h : SortedBy key ds) : SortedBy key (insert key d ds) := by
  induction ds with
  | nil => simp [insert, SortedBy]
  | cons x xs ih =>
    obtain ⟨hx, hxs⟩ := sortedBy_cons.mp h
    unfold insert
    split_ifs with h1 h2
    · refine sortedBy_cons.mpr ⟨fun y hy => ?_, h⟩
      rcases List.mem_cons.mp hy with rfl | hy
      · exact h1
      · exact h1.trans (hx y hy)
    · exact sortedBy_cons.mpr ⟨fun y hy => h2 ▸ hx y hy, hxs⟩
    · refine sortedBy_cons.mpr ⟨fun y hy => ?_, ih hxs⟩
      rcases (mem_insert hxs).mp hy with rfl | ⟨hy, -⟩
      · exact lt_of_le_of_ne (not_lt.mp h1) fun e => h2 e.symm
      · exact hx y hy

theorem SortedBy.insertIdx (h : SortedBy key ds) {i : Nat} (hbefore : ∀ j x, ds[j]? = some x → j < i → key x < key d)
    (hfrom : ∀ j x, ds[j]? = some x → i ≤ j → key d < key x) : SortedBy key (ds.insertIdx i d) := by
  induction ds generalizing i with
  | nil =>
    cases i with
    | zero => exact pairwise_singleton _ d
    | succ i => exact sortedBy_nil
  | cons x xs ih =>
    obtain ⟨hx, hxs⟩ := sortedBy_cons.mp h
    cases i with
    | zero =>
      refine sortedBy_cons.mpr ⟨?_, h⟩
      intro y hy
      obtain ⟨j, hj⟩ := mem_iff_getElem?.mp hy
      exact hfrom j y hj (Nat.zero_le j)
    | succ i =>
      rw [insertIdx_succ_cons]
      refine sortedBy_cons.mpr ⟨?_, ih hxs ?_ ?_⟩
      · intro y hy
        cases eq_or_mem_of_mem_insertIdx hy with
        | inl hyd => exact hyd ▸ hbefore 0 x rfl (Nat.succ_pos i)
        | inr hy => exact hx y hy
      · intro j y hj hji
        exact hbefore (j + 1) y hj (Nat.succ_lt_succ hji)
      · intro j y hj hij
        exact hfrom (j + 1) y hj (Nat.succ_le_succ hij)

theorem SortedBy.lt_of_getElem? (h : SortedBy key ds) {i j : Nat} {x : δ} (hx : ds[i]? = some x)
    (hy : ds[j]? = some y) (hij : i < j) : key x < key y := by
  obtain ⟨hi, rfl⟩ := List.getElem?_eq_some_iff.mp hx
  obtain ⟨hj, rfl⟩ := List.getElem?_eq_some_iff.mp hy
  exact List.pairwise_iff_getElem.mp h i j hi hj hij

theorem SortedBy.set {d x : δ} {ds : List δ} (h : SortedBy key ds) {i : Nat} (hi : ds[i]? = some x)
    (hk : key d = key x) :
    SortedBy key (ds.set i d) ∧ ∀ y, y ∈ ds.set i d ↔ y = d ∨ (y ∈ ds ∧ key y ≠ key d) := by
  induction ds generalizing i with
  | nil => cases hi
  | cons z zs ih =>
    obtain ⟨hz, hzs⟩ := sortedBy_cons.mp h
    cases i with
    | zero =>
      cases hi
      have hlt : ∀ y ∈ zs, key d < key y := fun y hy => hk ▸ hz y hy
      refine ⟨sortedBy_cons.mpr ⟨hlt, hzs⟩, ?_⟩
      intro y
      rw [set_cons_zero, mem_cons, mem_cons]
      constructor
      · intro hy
        cases hy with
        | inl hy => exact .inl hy
        | inr hy => exact .inr ⟨.inr hy, (hlt y hy).ne'⟩
      · intro hy
        rcases hy with hy | ⟨hy | hy, hne⟩
        · exact .inl hy
        · exact absurd (hy ▸ hk.symm) hne
        · exact .inr hy
    | succ i =>
      obtain ⟨hsorted, hmem⟩ := ih hzs hi
      have hzd : key z < key d := by
        rw [hk]
        exact hz x (mem_of_getElem? hi)
      rw [set_cons_succ]
      refine ⟨sortedBy_cons.mpr ⟨?_, hsorted⟩, ?_⟩
      · intro y hy
        cases (hmem y).mp hy with
        | inl hy => exact hy ▸ hzd
        | inr hy => exact hz y hy.1
      · intro y
        rw [mem_cons, hmem, mem_cons]
        constructor
        · intro hy
          rcases hy with hy | hy | hy
          · exact .inr ⟨.inl hy, hy ▸ hzd.ne⟩
          · exact .inl hy
          · exact .inr ⟨.inr hy.1, hy.2⟩
        · intro hy
          rcases hy with hy | ⟨hy | hy, hne⟩
          · exact .inr (.inl hy)
          · exact .inl hy
          · exact .inr (.inr ⟨hy, hne⟩)

theorem insert_of_mem (h : SortedBy key ds) (hd : d ∈ ds) : insert key d ds = ds := by
  induction ds with
  | nil => cases hd
  | cons x xs ih =>
    obtain ⟨hx, hxs⟩ := sortedBy_cons.mp h
    rcases List.mem_cons.mp hd with rfl | hd
    · simp [insert]
    · have hlt := hx d hd
      simp [insert, hlt.not_gt, hlt.ne', ih hxs hd]

theorem insert_of_forall_lt (h : ∀ y ∈ ds, key y < key d) : insert key d ds = ds ++ [d] := by
  induction ds with
  | nil => rfl
  | cons x xs ih =>
    have hlt := h x mem_cons_self
    simp [insert, hlt.not_gt, hlt.ne', ih fun y hy => h y (mem_cons_of_mem _ hy)]

theorem length_insert_le (d : δ) (ds : List δ) : (insert key d ds).length ≤ ds.length + 1 := by
  induction ds with
  | nil => simp [insert]
  | cons x xs ih =>
    unfold insert
    split_ifs
    · simp
    · simp
    · simpa using ih

theorem SortedBy.le_getLast (h : SortedBy key ds) (hne : ds ≠ []) (hy : y ∈ ds) : key y ≤ key (ds.getLast hne) := by
  induction ds with
  | nil => cases hy
  | cons x xs ih =>
    obtain ⟨hx, hxs⟩ := sortedBy_cons.mp h
    cases xs with
    | nil => simp_all
    | cons z zs =>
      rw [getLast_cons (cons_ne_nil z zs)]
      rcases List.mem_cons.mp hy with rfl | hy
      · exact (hx _ (getLast_mem _)).le
      · exact ih hxs _ hy

theorem erase_sortedBy (h : SortedBy key ds) : SortedBy key (erase key b ds) :=
  h.filter _

@[simp] theorem mem_erase : y ∈ erase key b ds ↔ y ∈ ds ∧ key y ≠ b := by
  simp [erase]

theorem find_eq_some_of_nodup (h : (ds.map key).Nodup) : find key b ds = some y ↔ y ∈ ds ∧ key y = b := by
  constructor
  · intro hf
    have hmem := List.mem_of_find?_eq_some hf
    have hkey := List.find?_some hf
    exact ⟨hmem, by simpa using hkey⟩
  · rintro ⟨hy, rfl⟩
    cases hf : find key (key y) ds with
    | none =>
      have := List.find?_eq_none.mp hf y hy
      simp at this
    | some z =>
      have hz : z ∈ ds := List.mem_of_find?_eq_some hf
      have hk : key z = key y := by simpa using List.find?_some hf
      rw [inj_on_of_nodup_map h hz hy hk]

theorem find_eq_some (h : SortedBy key ds) : find key b ds = some y ↔ y ∈ ds ∧ key y = b :=
  find_eq_some_of_nodup (List.pairwise_map.mpr (h.imp fun hab => hab.ne))

theorem find_eq_none : find key b ds = none ↔ ∀ y ∈ ds, key y ≠ b := by
  simp [find]

end DupSort
end ReOpenLDAP
