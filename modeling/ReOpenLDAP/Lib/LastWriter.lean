import Mathlib.Algebra.Order.Ring.Int
import Mathlib.Order.WithBot

/-!
# Lib.LastWriter

A register that takes what is newer than what it has. The stamps are of a linear order; what has none gives way.
-/

namespace ReOpenLDAP
namespace LastWriter

open List

variable {α κ : Type*} [LinearOrder κ] (stamp : α → WithBot κ) {r : Option α} {as : List α} {a b : α}

def take (r : Option α) (a : α) : Option α :=
  match r with
  | none => some a
  | some b => if stamp b < stamp a then some a else some b

def takeAll (r : Option α) (as : List α) : Option α := as.foldl (take stamp) r

variable {stamp}

theorem take_newer (h : stamp b < stamp a) : take stamp (some b) a = some a := if_pos h

theorem take_older (h : stamp a ≤ stamp b) : take stamp (some b) a = some b := if_neg (not_lt.mpr h)

theorem take_spec (stamp : α → WithBot κ) (r : Option α) (a : α) :
    ∃ b, take stamp r a = some b ∧ (b = a ∨ r = some b) ∧ stamp a ≤ stamp b ∧ ∀ c, r = some c → stamp c ≤ stamp b := by
  cases r with
  | none => exact ⟨a, rfl, .inl rfl, le_rfl, by simp⟩
  | some c =>
    rcases lt_or_ge (stamp c) (stamp a) with h | h
    · refine ⟨a, take_newer h, .inl rfl, le_rfl, ?_⟩
      rintro _ hc
      exact Option.some.inj hc ▸ h.le
    · refine ⟨c, take_older h, .inr rfl, h, ?_⟩
      rintro _ hc
      exact Option.some.inj hc ▸ le_rfl

theorem takeAll_newest (h : takeAll stamp r as = some b) :
    (b ∈ as ∨ r = some b) ∧ (∀ a ∈ as, stamp a ≤ stamp b) ∧ ∀ c, r = some c → stamp c ≤ stamp b := by
  induction as generalizing r with
  | nil =>
    obtain rfl : r = some b := h
    exact ⟨.inr rfl, by simp, fun c hc => Option.some.inj hc ▸ le_rfl⟩
  | cons a as ih =>
    obtain ⟨b', htake, hin, hle, hold⟩ := take_spec stamp r a
    have hrest : takeAll stamp (some b') as = some b := htake ▸ h
    obtain ⟨hin', hall, hle'⟩ := ih hrest
    refine ⟨?_, ?_, fun c hc => (hold c hc).trans (hle' b' rfl)⟩
    · rcases hin' with hmem | heq
      · exact .inl (mem_cons_of_mem a hmem)
      · obtain rfl := Option.some.inj heq
        rcases hin with rfl | hold
        · exact .inl mem_cons_self
        · exact .inr hold
    · intro x hx
      rcases List.mem_cons.mp hx with rfl | hx
      · exact hle.trans (hle' b' rfl)
      · exact hall x hx

theorem takeAll_isSome (stamp : α → WithBot κ) (h : r.isSome ∨ as ≠ []) : (takeAll stamp r as).isSome := by
  induction as generalizing r with
  | nil => exact h.resolve_right fun h => h rfl
  | cons a as ih =>
    obtain ⟨b, htake, -⟩ := take_spec stamp r a
    exact ih (.inl (by rw [htake]; rfl))

theorem takeAll_eq_of_newer (hmem : a ∈ as) (hnew : ∀ x ∈ as, x ≠ a → stamp x < stamp a)
    (hr : ∀ c, r = some c → stamp c < stamp a) :
    takeAll stamp r as = some a := by
  obtain ⟨b, hb⟩ := Option.isSome_iff_exists.mp (@takeAll_isSome _ _ _ r as stamp (.inr (ne_nil_of_mem hmem)))
  obtain ⟨hin, hall, -⟩ := takeAll_newest hb
  rw [hb]
  by_contra hne
  have hlt : stamp b < stamp a := by
    rcases hin with hin | hin
    · exact hnew b hin fun heq => hne (congrArg some heq)
    · exact hr b hin
  exact absurd hlt (not_lt.mpr (hall a hmem))

theorem takeAll_eq_of_older (h : ∀ x ∈ as, stamp x ≤ stamp b) : takeAll stamp (some b) as = some b := by
  induction as with
  | nil => rfl
  | cons a as ih =>
    have htake : take stamp (some b) a = some b := take_older (h a mem_cons_self)
    rw [takeAll, foldl_cons, htake]
    exact ih fun x hx => h x (mem_cons_of_mem a hx)

end LastWriter
end ReOpenLDAP
