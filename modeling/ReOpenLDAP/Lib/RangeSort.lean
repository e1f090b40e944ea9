import Mathlib.Algebra.Order.Ring.Int
import Mathlib.Algebra.Group.End
import Mathlib.Order.Interval.Set.Basic

/-!
# Lib.RangeSort

Sorting in place, by ranges.

* `IncOn`   — a range in strict order.
-/

namespace ReOpenLDAP
namespace RangeSort

open List

variable {κ : Type*} {l r l' r' n k p q x y : ℕ} {a a' a'' : ℕ → κ}

/-- The elements of the range `l..r` in another order. -/
def Within (l r : ℕ) (a a' : ℕ → κ) : Prop := ∃ τ : Equiv.Perm ℕ, (∀ k, k < l ∨ r < k → τ k = k) ∧ a' = a ∘ τ

theorem Within.refl (l r : ℕ) (a : ℕ → κ) : Within l r a a := ⟨1, fun _ _ => rfl, rfl⟩

theorem Within.trans (h : Within l r a a') (h' : Within l r a' a'') : Within l r a a'' := by
  obtain ⟨τ, hτ, rfl⟩ := h
  obtain ⟨σ, hσ, rfl⟩ := h'
  refine ⟨σ.trans τ, fun k hk => ?_, rfl⟩
  rw [Equiv.trans_apply, hσ k hk, hτ k hk]

theorem Within.swap (a : ℕ → κ) (hx : l ≤ x ∧ x ≤ r) (hy : l ≤ y ∧ y ≤ r) : Within l r a (a ∘ Equiv.swap x y) := by
  refine ⟨Equiv.swap x y, fun k hk => Equiv.swap_apply_of_ne_of_ne ?_ ?_, rfl⟩ <;> omega

theorem Within.mono (h : Within l r a a') (hl : l' ≤ l) (hr : r ≤ r') : Within l' r' a a' := by
  obtain ⟨τ, hτ, rfl⟩ := h
  exact ⟨τ, fun k hk => hτ k (by omega), rfl⟩

theorem Within.outside (h : Within l r a a') (hk : k < l ∨ r < k) : a' k = a k := by
  obtain ⟨τ, hτ, rfl⟩ := h
  rw [Function.comp_apply, hτ k hk]

theorem Within.mem (h : Within l r a a') (hk : l ≤ k ∧ k ≤ r) : ∃ k', (l ≤ k' ∧ k' ≤ r) ∧ a' k = a k' := by
  obtain ⟨τ, hτ, rfl⟩ := h
  refine ⟨τ k, ?_, rfl⟩
  by_contra hout
  -- what `τ` sends out of the range would have stayed there
  have hstay := hτ (τ k) (by omega)
  have heq : τ k = k := τ.injective hstay
  omega

theorem Within.injOn (h : Within l r a a') (hr : r < n) (ha : Set.InjOn a (Set.Iio n)) : Set.InjOn a' (Set.Iio n) := by
  obtain ⟨τ, hτ, rfl⟩ := h
  have hmaps : ∀ k, k < n → τ k < n := by
    intro k hk
    by_contra hout
    have heq : τ k = k := τ.injective (hτ (τ k) (by omega))
    omega
  intro p hp q hq heq
  exact τ.injective (ha (hmaps p hp) (hmaps q hq) heq)

section

variable (lt : κ → κ → Prop)

def IncOn (l r : ℕ) (a : ℕ → κ) : Prop := ∀ p q, l ≤ p → p < q → q ≤ r → lt (a p) (a q)

structure Pending (n : ℕ) (ranges : List (ℕ × ℕ)) (a : ℕ → κ) : Prop where
  bound : ∀ r ∈ ranges, r.1 ≤ r.2 ∧ r.2 < n
  disjoint : ranges.Pairwise fun r s => r.2 < s.1 ∨ s.2 < r.1
  order : ∀ p q, p < q → q < n → (∃ r ∈ ranges, r.1 ≤ p ∧ q ≤ r.2) ∨ lt (a p) (a q)

end

section

variable {lt : κ → κ → Prop} {ranges : List (ℕ × ℕ)} {s t : ℕ × ℕ}

theorem pending_start (hn : 0 < n) (a : ℕ → κ) : Pending lt n [(0, n - 1)] a :=
  ⟨by simp; omega, by simp, fun p q _ hq => .inl ⟨_, mem_singleton_self _, Nat.zero_le _, by simp only; omega⟩⟩

theorem Pending.swap (h : Pending lt n (s :: t :: ranges) a) : Pending lt n (t :: s :: ranges) a := by
  have hperm : (t :: s :: ranges).Perm (s :: t :: ranges) := List.Perm.swap ..
  refine ⟨fun r hr => h.bound r (hperm.mem_iff.mp hr), ?_, fun p q hpq hq => ?_⟩
  · exact (hperm.pairwise_iff fun hab => hab.symm).mpr h.disjoint
  · obtain ⟨r, hr, hpr⟩ | hlt := h.order p q hpq hq
    · exact .inl ⟨r, hperm.mem_iff.mpr hr, hpr⟩
    · exact .inr hlt

theorem Pending.apart (h : Pending lt n (s :: ranges) a) (hp : s.1 ≤ p ∧ p ≤ s.2) (hq : ¬ (s.1 ≤ q ∧ q ≤ s.2)) (hqn : q < n) :
    (p < q → lt (a p) (a q)) ∧ (q < p → lt (a q) (a p)) := by
  have hs := h.bound s (mem_cons_self ..)
  have hdis := (List.pairwise_cons.mp h.disjoint).1
  -- no other range has `p`
  have hother : ∀ r ∈ s :: ranges, ¬ ((r.1 ≤ p ∧ p ≤ r.2) ∧ r.1 ≤ q ∧ q ≤ r.2) := by
    intro r hr hin
    rcases List.mem_cons.mp hr with rfl | hr
    · exact hq hin.2
    · have := hdis r hr
      omega
  constructor
  · intro hlt
    refine (h.order p q hlt hqn).resolve_left ?_
    rintro ⟨r, hr, hin⟩
    exact hother r hr (by omega)
  · intro hlt
    refine (h.order q p hlt (by omega)).resolve_left ?_
    rintro ⟨r, hr, hin⟩
    exact hother r hr (by omega)

theorem Pending.before (h : Pending lt n (s :: ranges) a) (hp : p < s.1) (hq : s.1 ≤ q ∧ q ≤ s.2) : lt (a p) (a q) := by
  have hs := h.bound s (mem_cons_self ..)
  exact (h.apart hq (q := p) (by omega) (by omega)).2 (by omega)

theorem Pending.within (h : Pending lt n (s :: ranges) a) (hw : Within s.1 s.2 a a') : Pending lt n (s :: ranges) a' := by
  refine ⟨h.bound, h.disjoint, fun p q hpq hqn => ?_⟩
  by_cases hp : s.1 ≤ p ∧ p ≤ s.2
  · by_cases hq : s.1 ≤ q ∧ q ≤ s.2
    · exact .inl ⟨s, mem_cons_self .., by omega⟩
    · obtain ⟨p', hp', heq⟩ := hw.mem hp
      rw [heq, hw.outside (show q < s.1 ∨ s.2 < q by omega)]
      exact .inr ((h.apart hp' hq hqn).1 (by omega))
  · by_cases hq : s.1 ≤ q ∧ q ≤ s.2
    · obtain ⟨q', hq', heq⟩ := hw.mem hq
      rw [heq, hw.outside (show p < s.1 ∨ s.2 < p by omega)]
      exact .inr ((h.apart hq' hp (by omega)).2 (by omega))
    · rw [hw.outside (show q < s.1 ∨ s.2 < q by omega), hw.outside (show p < s.1 ∨ s.2 < p by omega)]
      exact h.order p q hpq hqn

theorem Pending.split {l m r : ℕ} (h : Pending lt n ((l, r) :: ranges) a) (hl : l ≤ m) (hr : m < r)
    (hlt : ∀ p q, l ≤ p → p ≤ m → m < q → q ≤ r → lt (a p) (a q)) : Pending lt n ((l, m) :: (m + 1, r) :: ranges) a := by
  obtain ⟨hbound, hbounds⟩ := List.forall_mem_cons.mp h.bound
  obtain ⟨hdis, hdiss⟩ := List.pairwise_cons.mp h.disjoint
  refine ⟨?_, ?_, fun p q hpq hqn => ?_⟩
  · refine List.forall_mem_cons.mpr ⟨by simp only at hbound ⊢; omega, List.forall_mem_cons.mpr ⟨by simp only at hbound ⊢; omega, hbounds⟩⟩
  · refine List.pairwise_cons.mpr ⟨?_, List.pairwise_cons.mpr ⟨fun t ht => ?_, hdiss⟩⟩
    · intro t ht
      rcases List.mem_cons.mp ht with rfl | ht
      · exact .inl (Nat.lt_succ_self m)
      · have := hdis t ht
        simp only at this ⊢
        omega
    · have := hdis t ht
      simp only at this ⊢
      omega
  · obtain ⟨t, ht, hin⟩ | hlt' := h.order p q hpq hqn
    · rcases List.mem_cons.mp ht with rfl | ht
      · by_cases hq : q ≤ m
        · exact .inl ⟨(l, m), by simp, hin.1, hq⟩
        · by_cases hp : m < p
          · exact .inl ⟨(m + 1, r), by simp, hp, hin.2⟩
          · exact .inr (hlt p q hin.1 (by omega) (by omega) hin.2)
      · exact .inl ⟨t, mem_cons_of_mem _ (mem_cons_of_mem _ ht), hin⟩
    · exact .inr hlt'

theorem Pending.done (h : Pending lt n (s :: ranges) a) (hinc : IncOn lt s.1 s.2 a) : Pending lt n ranges a := by
  refine ⟨fun r hr => h.bound r (mem_cons_of_mem _ hr), (List.pairwise_cons.mp h.disjoint).2, fun p q hpq hqn => ?_⟩
  obtain ⟨t, ht, hin⟩ | hlt := h.order p q hpq hqn
  · rcases List.mem_cons.mp ht with rfl | ht
    · exact .inr (hinc p q hin.1 hpq hin.2)
    · exact .inl ⟨t, ht, hin⟩
  · exact .inr hlt

theorem Pending.sorted (h : Pending lt n [] a) : ∀ p q, p < q → q < n → lt (a p) (a q) := fun p q hpq hqn =>
  (h.order p q hpq hqn).resolve_left (by simp)

end

def rangeSize (s : ℕ × ℕ) : ℕ := s.2 + 1 - s.1

/-- The range at the height `m` of the stack is at most `n / 2 ^ m`. -/
def Fits (n : ℕ) : List (ℕ × ℕ) → Prop
  | [] => True
  | s :: stack => rangeSize s * 2 ^ stack.length ≤ n ∧ Fits n stack

def work (ranges : List (ℕ × ℕ)) : ℕ := (ranges.map fun s => 2 * rangeSize s - 1).sum

theorem work_cons (s : ℕ × ℕ) (ranges : List (ℕ × ℕ)) : work (s :: ranges) = 2 * rangeSize s - 1 + work ranges := by
  simp [work]

theorem Fits.push {s small large : ℕ × ℕ} {stack : List (ℕ × ℕ)} (h : Fits n (s :: stack))
    (hsize : rangeSize small + rangeSize large ≤ rangeSize s) (hle : rangeSize small ≤ rangeSize large) :
    Fits n (small :: large :: stack) := by
  obtain ⟨hs, hstack⟩ := h
  have hlarge : rangeSize large * 2 ^ stack.length ≤ rangeSize s * 2 ^ stack.length := Nat.mul_le_mul_right _ (by omega)
  have hsmall : (2 * rangeSize small) * 2 ^ stack.length ≤ rangeSize s * 2 ^ stack.length := Nat.mul_le_mul_right _ (by omega)
  refine ⟨?_, hlarge.trans hs, hstack⟩
  rw [length_cons, Nat.pow_succ']
  calc rangeSize small * (2 * 2 ^ stack.length) = (2 * rangeSize small) * 2 ^ stack.length := by rw [Nat.mul_left_comm, Nat.mul_assoc]
    _ ≤ n := hsmall.trans hs

end RangeSort
end ReOpenLDAP
