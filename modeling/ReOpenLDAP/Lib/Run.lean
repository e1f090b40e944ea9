import Mathlib.Algebra.Order.Ring.Int

/-!
# Lib.Run

Runs of a labelled transition system. `Steps step s as s'` says that the labels `as`, in order, lead
from `s` to `s'`.
-/

namespace ReOpenLDAP

variable {σ α : Type*}

inductive Steps (step : σ → α → σ → Prop) : σ → List α → σ → Prop where
  | refl {s : σ} : Steps step s [] s
  | cons {s s1 s2 : σ} {a : α} {as : List α} : step s a s1 → Steps step s1 as s2 → Steps step s (a :: as) s2

namespace Steps

variable {step : σ → α → σ → Prop}
variable {s s' : σ} {as : List α}

theorem single {s1 : σ} {a : α} (h : step s a s1) : Steps step s [a] s1 := .cons h .refl

theorem trans {s1 s2 : σ} {bs : List α} (h₁ : Steps step s as s1) (h₂ : Steps step s1 bs s2) : Steps step s (as ++ bs) s2 := by
  induction h₁ with
  | refl => exact h₂
  | cons hs _ ih => exact .cons hs (ih h₂)

theorem mono {step' : σ → α → σ → Prop} (himp : ∀ s a s', step s a s' → step' s a s')
    (h : Steps step s as s') : Steps step' s as s' := by
  induction h with
  | refl => exact .refl
  | cons hs _ ih => exact .cons (himp _ _ _ hs) ih

theorem invariant (Inv : σ → Prop) (hstep : ∀ s a s', Inv s → step s a s' → Inv s') (h : Steps step s as s') (hs : Inv s) : Inv s' := by
  induction h with
  | refl => exact hs
  | cons h1 _ ih => exact ih (hstep _ _ _ hs h1)

theorem invariant_of (Inv : σ → Prop) (P : α → Prop) (hstep : ∀ s a s', Inv s → P a → step s a s' → Inv s') (h : Steps step s as s') (hlabels : ∀ a ∈ as, P a) (hs : Inv s) : Inv s' := by
  induction h with
  | refl => exact hs
  | cons h1 _ ih =>
    exact ih (fun a ha => hlabels a (List.mem_cons_of_mem _ ha)) (hstep _ _ _ hs (hlabels _ List.mem_cons_self) h1)

end Steps
end ReOpenLDAP
