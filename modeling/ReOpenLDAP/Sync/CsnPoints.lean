import Mathlib.Tactic.IntervalCases
import ReOpenLDAP.Lib.Radix
import ReOpenLDAP.Sync.CsnShift

/-!
# Sync.CsnPoints

A CSN as a number of points: the seconds as they are written, the microseconds and the count.
-/

namespace ReOpenLDAP
namespace Sync

open Radix List Option

def csnPoints (t : List Char) : ℕ :=
  (value 10 (t.take 14) * 1000000 + value 10 ((t.drop 15).take 6)) * 0x1000000 + value 16 ((t.drop 23).take 6)

def csnText (sec usec count : ℕ) (rest : List Char) : List Char :=
  padded 10 14 sec ++ '.' :: (padded 10 6 usec ++ 'Z' :: '#' :: (padded 16 6 count ++ rest))

section

variable {s u c v : ℕ} {rest t : List Char} {delta : ℤ}
variable {n b : ℕ} {p q : List Char} {x : Char}

theorem take_text_of_length (h : p.length = n) : (p ++ q).take n = p := by
  rw [← h, take_left]

theorem drop_text_of_length (h : p.length = n) : (p ++ q).drop n = q := by
  rw [← h, drop_left]

theorem csnText_usec (s u c : ℕ) (rest : List Char) :
    csnText s u c rest = (padded 10 14 s ++ ['.']) ++ (padded 10 6 u ++ 'Z' :: '#' :: (padded 16 6 c ++ rest)) := by simp [csnText]

theorem csnText_count (s u c : ℕ) (rest : List Char) :
    csnText s u c rest = (padded 10 14 s ++ '.' :: (padded 10 6 u ++ ['Z', '#'])) ++ (padded 16 6 c ++ rest) := by simp [csnText]

theorem drop_sec (s u c : ℕ) (rest : List Char) :
    (csnText s u c rest).drop 14 = '.' :: (padded 10 6 u ++ 'Z' :: '#' :: (padded 16 6 c ++ rest)) :=
  drop_text_of_length (by simp)

theorem drop_usec (s u c : ℕ) (rest : List Char) : (csnText s u c rest).drop 15 = padded 10 6 u ++ 'Z' :: '#' :: (padded 16 6 c ++ rest) := by
  rw [csnText_usec]
  exact drop_text_of_length (by simp)

theorem drop_count (s u c : ℕ) (rest : List Char) : (csnText s u c rest).drop 23 = padded 16 6 c ++ rest := by
  rw [csnText_count]
  exact drop_text_of_length (by simp)

theorem drop_rest (s u c : ℕ) (rest : List Char) : (csnText s u c rest).drop 29 = rest := by
  have hsplit : 29 = 23 + 6 := rfl
  rw [hsplit, ← drop_drop, drop_count]
  exact drop_text_of_length (by simp)

theorem take_sec (s u c : ℕ) (rest : List Char) : (csnText s u c rest).take 14 = padded 10 14 s := take_text_of_length (by simp)

theorem csnPoints_text (hs : s < 10 ^ 14) (hu : u < 10 ^ 6) (hc : c < 16 ^ 6) (rest : List Char) :
    csnPoints (csnText s u c rest) = (s * 1000000 + u) * 0x1000000 + c := by
  rw [csnPoints, take_sec, drop_usec, drop_count, take_text_of_length (by simp), take_text_of_length (by simp),
    value_padded (by decide) (by decide) hs, value_padded (by decide) (by decide) hu, value_padded (by decide) (by decide) hc]

theorem digit_of_mask (h : csnCharOk '9' x = true) : ∃ d < 10, Nat.digitChar d = x := by
  have hdigit : x.isDigit = true := by
    unfold csnCharOk at h
    rw [if_neg (by decide), if_pos rfl, Bool.or_eq_true, decide_eq_true_eq] at h
    rcases h with h | rfl
    · exact h
    · rfl
  have hr : 48 ≤ x.toNat ∧ x.toNat < 48 + 10 := by
    simp only [Char.isDigit, Bool.and_eq_true, decide_eq_true_eq] at hdigit
    exact ⟨hdigit.1, Nat.lt_succ_of_le hdigit.2⟩
  have hall : ∀ x ∈ (List.range' 48 10).map Char.ofNat, ∃ d < 10, Nat.digitChar d = x := forall_mem_of_all (by decide)
  exact hall x (mem_of_range hr.1 hr.2)

theorem hexDigit_of_mask (h : csnCharOk 'F' x = true) (hlow : x.isUpper = false) : ∃ d < 16, Nat.digitChar d = x := by
  have hall : ∀ x ∈ "0123456789abcdefABCDEF".toList, x.isUpper = false → ∃ d < 16, Nat.digitChar d = x :=
    forall_mem_of_all (by decide)
  exact hall x (hex_cases h) hlow

theorem mask_of_digit (h : ∃ d < 10, Nat.digitChar d = x) : csnCharOk '9' x = true := by
  obtain ⟨d, hd, rfl⟩ := h
  have hall : ∀ d ∈ List.range 10, csnCharOk '9' (Nat.digitChar d) = true := by decide
  exact hall d (List.mem_range.mpr hd)

theorem mask_of_hexDigit (h : ∃ d < 16, Nat.digitChar d = x) : csnCharOk 'F' x = true := by
  obtain ⟨d, hd, rfl⟩ := h
  have hall : ∀ d ∈ List.range 16, csnCharOk 'F' (Nat.digitChar d) = true := by decide
  exact hall d (List.mem_range.mpr hd)

theorem csnMask_split :
    csnMask = List.replicate 14 '9' ++ '.' :: (List.replicate 6 '9' ++ 'Z' :: '#' :: (List.replicate 6 'F' ++ csnMask.drop 29)) := by
  decide

theorem csnFormat_text (s u c : ℕ) (rest : List Char) :
    csnFormat (csnText s u c rest) = true ↔ List.Forall₂ (fun x c => csnCharOk x c = true) (csnMask.drop 29) rest := by
  rw [csnFormat_iff]
  have hten : ∀ k n, List.Forall₂ (fun x c => csnCharOk x c = true) (List.replicate k '9') (padded 10 k n) := fun k n =>
    forall₂_replicate.mpr ⟨length_padded .., fun x hx => mask_of_digit (isDigits_padded (by decide) k n x hx)⟩
  have hhex : List.Forall₂ (fun x c => csnCharOk x c = true) (List.replicate 6 'F') (padded 16 6 c) :=
    forall₂_replicate.mpr ⟨length_padded .., fun x hx => mask_of_hexDigit (isDigits_padded (by decide) 6 c x hx)⟩
  constructor
  · intro h
    have hdrop := forall₂_drop 29 h
    rwa [drop_rest] at hdrop
  · intro h
    rw [csnMask_split]
    exact rel_append (hten 14 s) (.cons rfl (rel_append (hten 6 u) (.cons rfl (.cons rfl (rel_append hhex h)))))

theorem forall₂_take_drop {α β : Type} {R : α → β → Prop} {l m : List α} {t : List β} (h : List.Forall₂ R (l ++ m) t) :
    List.Forall₂ R l (t.take l.length) ∧ List.Forall₂ R m (t.drop l.length) := by
  refine ⟨?_, ?_⟩
  · simpa using forall₂_take l.length h
  · simpa using forall₂_drop l.length h

def LowerCount (t : List Char) : Prop := ∀ x ∈ (t.drop 23).take 6, x.isUpper = false

instance (t : List Char) : Decidable (LowerCount t) :=
  decidable_of_iff (((t.drop 23).take 6).all fun x => decide (x.isUpper = false)) ⟨forall_mem_of_all, fun h => by simpa [LowerCount] using h⟩

theorem csnText_of_format (h : csnFormat t = true) (hlow : LowerCount t) :
    ∃ s u c rest, s < 10 ^ 14 ∧ u < 10 ^ 6 ∧ c < 16 ^ 6 ∧ t = csnText s u c ('#' :: rest) := by
  have hall := csnFormat_iff.mp h
  rw [csnMask_split] at hall
  obtain ⟨hsec, hall⟩ := forall₂_take_drop hall
  obtain ⟨_, t₁, hdot, hall, h₁⟩ := List.forall₂_cons_left_iff.mp hall
  obtain ⟨husec, hall⟩ := forall₂_take_drop hall
  obtain ⟨_, t₂, hz, hall, h₂⟩ := List.forall₂_cons_left_iff.mp hall
  obtain ⟨_, t₃, hsharp, hall, h₃⟩ := List.forall₂_cons_left_iff.mp hall
  obtain ⟨hcount, hall⟩ := forall₂_take_drop hall
  have hmask : csnMask.drop 29 = '#' :: csnMask.drop 30 := by decide
  rw [hmask] at hall
  obtain ⟨_, rest, hend, -, h₄⟩ := List.forall₂_cons_left_iff.mp hall
  have hsep : ∀ {x y : Char}, x ≠ 'F' → x ≠ '9' → csnCharOk x y = true → y = x := by
    intro x y hF h9 hy
    simpa [csnCharOk, hF, h9] using hy
  obtain rfl := hsep (by decide) (by decide) hdot
  obtain rfl := hsep (by decide) (by decide) hz
  obtain rfl := hsep (by decide) (by decide) hsharp
  obtain rfl := hsep (by decide) (by decide) hend
  simp only [length_replicate] at hsec husec hcount h₁ h₂ h₄
  obtain ⟨hsl, hsd⟩ := forall₂_replicate.mp hsec
  obtain ⟨hul, hud⟩ := forall₂_replicate.mp husec
  obtain ⟨hcl, hcd⟩ := forall₂_replicate.mp hcount
  have htext : t = t.take 14 ++ '.' :: (t₁.take 6 ++ 'Z' :: '#' :: (t₃.take 6 ++ '#' :: rest)) := by
    rw [← h₄, take_append_drop, ← h₃, ← h₂, take_append_drop, ← h₁, take_append_drop]
  have hdrop : (t.drop 23).take 6 = t₃.take 6 := by
    have hfront : t = (t.take 14 ++ '.' :: (t₁.take 6 ++ ['Z', '#'])) ++ (t₃.take 6 ++ '#' :: rest) := by
      rw [append_assoc, cons_append, append_assoc]
      exact htext
    have h23 : t.drop 23 = t₃.take 6 ++ '#' :: rest := by
      rw [hfront]
      exact drop_text_of_length (by simp only [length_append, length_cons, length_nil, hsl, hul])
    rw [h23]
    exact take_text_of_length hcl
  have hs : IsDigits 10 (t.take 14) := fun x hx => digit_of_mask (hsd x hx)
  have hu : IsDigits 10 (t₁.take 6) := fun x hx => digit_of_mask (hud x hx)
  have hc : IsDigits 16 (t₃.take 6) := fun x hx => hexDigit_of_mask (hcd x hx) (hlow x (hdrop ▸ hx))
  refine ⟨value 10 (t.take 14), value 10 (t₁.take 6), value 16 (t₃.take 6), rest, ?_, ?_, ?_, ?_⟩
  · exact (value_lt (by decide) hs).trans_eq (by rw [hsl])
  · exact (value_lt (by decide) hu).trans_eq (by rw [hul])
  · exact (value_lt (by decide) hc).trans_eq (by rw [hcl])
  · have hs' := padded_value (by decide) hs
    have hu' := padded_value (by decide) hu
    have hc' := padded_value (by decide) hc
    rw [hsl] at hs'
    rw [hul] at hu'
    rw [hcl] at hc'
    rw [csnText, hs', hu', hc']
    exact htext

/-! ## Shifting -/

theorem strntoi_digits {r : ℕ} (hb : b ≤ 16) (hp : IsDigits b p)
    (hsmall : p.foldl (fun r c => r * b + ofChar c) r < 2 ^ 31) (hq : ∀ r, strntoi b r q = (r, q)) :
    strntoi b r (p ++ q) = (p.foldl (fun r c => r * b + ofChar c) r, q) := by
  induction p generalizing r with
  | nil => exact hq r
  | cons x p ih =>
    obtain ⟨⟨d, hd, rfl⟩, hrest⟩ := List.forall_mem_cons.mp hp
    have hx : ofChar (Nat.digitChar d) = d := ofChar_digitChar (hd.trans_le hb)
    -- what is read so far is no larger than the number
    have hmono : ∀ (p : List Char) r, IsDigits b p → r ≤ p.foldl (fun r c => r * b + ofChar c) r := by
      intro p
      induction p with
      | nil => exact fun r _ => le_refl r
      | cons y p ih =>
        intro r hp
        obtain ⟨⟨e, he, -⟩, hrest⟩ := List.forall_mem_cons.mp hp
        have hpos : 1 ≤ b := by omega
        refine le_trans ?_ (ih _ hrest)
        calc r = r * 1 := (Nat.mul_one r).symm
          _ ≤ r * b := Nat.mul_le_mul_left r hpos
          _ ≤ _ := Nat.le_add_right ..
    have hstep : d + r * b < 2 ^ 31 := by
      have hle := hmono p (r * b + d) hrest
      rw [foldl_cons, hx] at hsmall
      omega
    rw [cons_append, strntoi_digit (p ++ q) hd hb hstep, foldl_cons, hx, Nat.add_comm]
    rw [foldl_cons, hx] at hsmall
    exact ih hrest hsmall

theorem strntoi_padded {k : ℕ} {sep : Char} (hb : 0 < b) (hb' : b ≤ 16) (hn : n < b ^ k) (hsmall : n < 2 ^ 31)
    (hsep : digitValue sep = none ∨ ∃ d, digitValue sep = some d ∧ b ≤ d) :
    strntoi b 0 (padded b k n ++ sep :: q) = (n, sep :: q) := by
  have hval : value b (padded b k n) = n := value_padded hb hb' hn
  have hstop : ∀ r, strntoi b r (sep :: q) = (r, sep :: q) := by
    intro r
    rw [strntoi]
    rcases hsep with h | ⟨d, h, hd⟩
    · rw [h]
    · rw [h]
      exact if_pos (.inl hd)
  rw [strntoi_digits hb' (isDigits_padded hb k n) (hval.trans_lt hsmall) hstop]
  exact congrArg (·, sep :: q) hval

theorem pad6_eq (hb : 1 < b) (hn : n < b ^ 6) : pad6 b n = padded b 6 n := pad_toDigits hb hn

theorem field_count (hc : c < 16 ^ 6) : field 16 23 '#' (csnText s u c ('#' :: rest)) = some c := by
  have hrest : (csnText s u c ('#' :: rest)).drop (23 + 6) = '#' :: rest := drop_rest ..
  rw [field, drop_count, hrest, strntoi_padded (by decide) (by decide) hc (hc.trans (by decide)) (.inl (by decide))]
  exact if_pos ⟨rfl, rfl⟩

theorem field_usec (hu : u < 10 ^ 6) : field 10 15 'Z' (csnText s u c rest) = some u := by
  have hrest : (csnText s u c rest).drop (15 + 6) = 'Z' :: '#' :: (padded 16 6 c ++ rest) := by
    rw [← drop_drop, drop_usec]
    exact drop_text_of_length (by simp)
  rw [field, drop_usec, hrest, strntoi_padded (by decide) (by decide) hu (hu.trans (by decide)) (.inr ⟨35, by decide, by decide⟩)]
  exact if_pos ⟨rfl, rfl⟩

theorem setField_count (hv : v < 16 ^ 6) : setField 16 23 v (csnText s u c rest) = some (csnText s u v rest) := by
  have hrest : (csnText s u c rest).drop (23 + 6) = rest := drop_rest ..
  have hfront : (csnText s u c rest).take 23 = padded 10 14 s ++ '.' :: (padded 10 6 u ++ ['Z', '#']) := by
    rw [csnText_count]
    exact take_text_of_length (by simp)
  rw [setField, pad6_eq (by decide) hv, if_pos (by simp), hrest, hfront, csnText_count, append_assoc]

theorem setField_usec (hv : v < 10 ^ 6) : setField 10 15 v (csnText s u c rest) = some (csnText s v c rest) := by
  have hrest : (csnText s u c rest).drop (15 + 6) = 'Z' :: '#' :: (padded 16 6 c ++ rest) := by
    rw [← drop_drop, drop_usec]
    exact drop_text_of_length (by simp)
  have hfront : (csnText s u c rest).take 15 = padded 10 14 s ++ ['.'] := by
    rw [csnText_usec]
    exact take_text_of_length (by simp)
  rw [setField, pad6_eq (by decide) hv, if_pos (by simp), hrest, hfront, csnText_usec, append_assoc]

theorem carrySeconds_zero (l : List Char) : carrySeconds 0 l = l := by cases l <;> rfl

theorem carrySeconds_one (k n : ℕ) : carrySeconds 1 (padded 10 k n).reverse = (padded 10 k (n + 1)).reverse := by
  induction k generalizing n with
  | zero => rfl
  | succ k ih =>
    rw [padded, padded, reverse_append, reverse_append, reverse_singleton, reverse_singleton,
      singleton_append, singleton_append]
    have hnine : carrySeconds 1 (Nat.digitChar 9 :: (padded 10 k (n / 10)).reverse) =
        '0' :: carrySeconds 1 (padded 10 k (n / 10)).reverse := rfl
    have hother : ∀ d ∈ List.range 9, ∀ l, carrySeconds 1 (Nat.digitChar d :: l) = Nat.digitChar (d + 1) :: l := by
      intro d hd l
      have hd := List.mem_range.mp hd
      interval_cases d <;> rfl
    rcases Nat.lt_or_ge (n % 10) 9 with hlt | hge
    · rw [hother _ (List.mem_range.mpr hlt), show (n + 1) % 10 = n % 10 + 1 by omega, show (n + 1) / 10 = n / 10 by omega]
    · rw [show n % 10 = 9 by omega, hnine, ih, show (n + 1) % 10 = 0 by omega, show (n + 1) / 10 = n / 10 + 1 by omega]
      rfl

theorem slapCsnShift_text (hu : u < 10 ^ 6) (hc : c < 16 ^ 6) (hd : -2 ^ 31 ≤ delta) (hd' : c + delta < 2 ^ 31) :
    slapCsnShift (csnText s u c ('#' :: rest)) delta =
      some (csnText (s + ((u + (c + delta) / 0x1000000) / 1000000).natAbs) ((u + (c + delta) / 0x1000000) % 1000000).toNat
        ((c + delta) % 0x1000000).toNat ('#' :: rest)) := by
  have hnone : (c + delta) / 0x1000000 = 0 → csnText (s + ((u + (c + delta) / 0x1000000) / 1000000).natAbs)
      ((u + (c + delta) / 0x1000000) % 1000000).toNat ((c + delta) % 0x1000000).toNat ('#' :: rest) =
      csnText s u ((c + delta) % 0x1000000).toNat ('#' :: rest) := by
    intro h
    rw [h, show ((u : ℤ) + 0) / 1000000 = 0 by omega, show (((u : ℤ) + 0) % 1000000).toNat = u by omega]
    rfl
  unfold slapCsnShift
  split_ifs with hzero
  · rw [hnone (by omega), show ((c + delta) % 0x1000000).toNat = c by omega]
  · rw [field_count hc, bind_some]
    dsimp only
    rw [if_neg (by omega), setField_count (by omega), bind_some]
    split_ifs with hcarry
    · rw [hnone hcarry]
    · rw [field_usec hu, bind_some]
      rw [setField_usec (by omega), map_some, take_sec, drop_sec]
      have hone : ((u + (c + delta) / 0x1000000) / 1000000).natAbs = 0 ∨ ((u + (c + delta) / 0x1000000) / 1000000).natAbs = 1 := by
        omega
      rcases hone with h | h
      · rw [h, Int.natCast_zero, carrySeconds_zero, reverse_reverse, Nat.add_zero]
        rfl
      · rw [h, Int.natCast_one, carrySeconds_one, reverse_reverse]
        rfl

theorem slapCsnShift_overflow (hc : c < 16 ^ 6) (hd' : 2 ^ 31 ≤ c + delta) : slapCsnShift (csnText s u c ('#' :: rest)) delta = none := by
  rw [slapCsnShift, if_neg (by omega), field_count hc, bind_some]
  exact if_pos hd'

theorem csnText_mod (s u c : ℕ) (rest : List Char) : csnText (s % 10 ^ 14) u c rest = csnText s u c rest := by
  rw [csnText, csnText, padded_mod]

theorem take_count (s u c : ℕ) (rest : List Char) :
    (csnText s u c rest).take 29 = padded 10 14 s ++ '.' :: (padded 10 6 u ++ 'Z' :: '#' :: padded 16 6 c) := by
  have hsplit : csnText s u c rest = (padded 10 14 s ++ '.' :: (padded 10 6 u ++ 'Z' :: '#' :: padded 16 6 c)) ++ rest := by
    simp [csnText]
  rw [hsplit]
  exact take_text_of_length (by simp)

theorem compareTs_text {s' u' c' : ℕ} (hs : s < 10 ^ 14) (hu : u < 10 ^ 6) (hc : c < 16 ^ 6) (hs' : s' < 10 ^ 14) (hu' : u' < 10 ^ 6)
    (hc' : c' < 16 ^ 6) (rest : List Char) :
    slapCsnCompareTs (csnText s u c rest) (csnText s' u' c' rest) =
      cmp (csnPoints (csnText s u c rest)) (csnPoints (csnText s' u' c' rest)) := by
  have hrest : (csnText s u c rest).drop 34 = (csnText s' u' c' rest).drop 34 := by
    have hsplit : 34 = 29 + 5 := rfl
    rw [hsplit, ← drop_drop, ← drop_drop, drop_rest, drop_rest]
  have hsame : ∀ (x : Char) (l l' : List Char), cmp (x :: l) (x :: l') = cmp l l' := by
    intro x l l'
    rw [Cmp.cmp_cons, cmp_self_eq_eq, Ordering.eq_then]
  rw [slapCsnCompareTs, hrest, memcmp_eq_eq.mpr rfl, Ordering.then_eq, memcmp_eq_cmp, take_count, take_count,
    Cmp.cmp_append (by simp), hsame, Cmp.cmp_append (by simp), hsame, hsame, cmp_padded (by decide) (by decide) hs hs',
    cmp_padded (by decide) (by decide) hu hu', cmp_padded (by decide) (by decide) hc hc', csnPoints_text hs hu hc,
    csnPoints_text hs' hu' hc', cmp_mul_add_nat (by omega) (by omega), cmp_mul_add_nat (by omega) (by omega), Ordering.then_assoc]

structure Moved (t r : List Char) (delta : ℤ) : Prop where
  format : csnFormat r = true
  points : (csnPoints r : ℤ) = csnPoints t + delta
  /-- The server and the modification. -/
  rest : r.drop 29 = t.drop 29
  newer : slapCsnCompareTs r t = .gt ↔ 0 < delta
  older : slapCsnCompareTs r t = .lt ↔ delta < 0

/-- It is moved, and a shift by the opposite restores it where that is an `int`. -/
def ShiftRight (t : List Char) (delta : ℤ) : Prop :=
  ∃ r, slapCsnShift t delta = some r ∧ Moved t r delta ∧ (-delta < 2 ^ 31 → slapCsnShift r (-delta) = some t)

theorem moved_of_points {s' u' c' : ℕ} (hs : s < 10 ^ 14) (hu : u < 10 ^ 6) (hc : c < 16 ^ 6) (hs' : s' < 10 ^ 14) (hu' : u' < 10 ^ 6)
    (hc' : c' < 16 ^ 6) (hf : csnFormat (csnText s u c rest) = true)
    (h : (csnPoints (csnText s' u' c' rest) : ℤ) = csnPoints (csnText s u c rest) + delta) :
    Moved (csnText s u c rest) (csnText s' u' c' rest) delta := by
  refine ⟨(csnFormat_text ..).mpr ((csnFormat_text ..).mp hf), h, by rw [drop_rest, drop_rest], ?_, ?_⟩
  · rw [compareTs_text hs' hu' hc' hs hu hc, cmp_eq_gt_iff]
    omega
  · rw [compareTs_text hs' hu' hc' hs hu hc, cmp_eq_lt_iff]
    omega

/-- The count and the delta fit in an `int`, also on the way back, and the seconds stay. -/
theorem csn_shift_right_iff (ht : csnFormat t = true) (hlow : LowerCount t) (hd : -2 ^ 31 ≤ delta ∧ delta < 2 ^ 31)
    (hr : 0 ≤ csnPoints t + delta ∧ csnPoints t + delta < 10 ^ 14 * 1000000 * 0x1000000) :
    ShiftRight t delta ↔
      csnPoints t % 0x1000000 + delta < 2 ^ 31 ∧ (-delta < 2 ^ 31 → (csnPoints t + delta) % 0x1000000 - delta < 2 ^ 31) ∧
        (csnPoints t + delta) / (1000000 * 0x1000000) = csnPoints t / (1000000 * 0x1000000) := by
  obtain ⟨s, u, c, rest, hs, hu, hc, rfl⟩ := csnText_of_format ht hlow
  rw [csnPoints_text hs hu hc] at hr ⊢
  rcases lt_or_ge ((c : ℤ) + delta) (2 ^ 31) with hfit | hover
  swap
  · refine iff_of_false ?_ fun h => ?_
    · rintro ⟨r, hshift, -⟩
      rw [slapCsnShift_overflow hc hover] at hshift
      cases hshift
    · have := h.1
      omega
  -- `q` is the carry to the seconds
  have hshift := @slapCsnShift_text s u c rest delta hu hc hd.1 hfit
  generalize hcarry : ((c : ℤ) + delta) / 0x1000000 = carry at hshift
  generalize hcount : (((c : ℤ) + delta) % 0x1000000).toNat = c' at hshift
  generalize hq : ((u : ℤ) + carry) / 1000000 = q at hshift
  generalize husec : (((u : ℤ) + carry) % 1000000).toNat = u' at hshift
  have hc' : c' < 16 ^ 6 := by omega
  have hu' : u' < 10 ^ 6 := by omega
  -- the way back, from the seconds `s'`
  have hback : ∀ s' : ℕ, (c' : ℤ) - delta < 2 ^ 31 →
      slapCsnShift (csnText s' u' c' ('#' :: rest)) (-delta) = some (csnText (s' + q.natAbs) u c ('#' :: rest)) := by
    intro s' hlt
    have h := @slapCsnShift_text s' u' c' rest (-delta) hu' hc' (by omega) (by omega)
    have hcarry' : ((c' : ℤ) + -delta) / 0x1000000 = -carry := by omega
    rw [hcarry', show (((c' : ℤ) + -delta) % 0x1000000).toNat = c by omega, show ((u' : ℤ) + -carry) / 1000000 = -q by omega,
      show (((u' : ℤ) + -carry) % 1000000).toNat = u by omega, Int.natAbs_neg] at h
    exact h
  have hcases : q = -1 ∨ q = 0 ∨ q = 1 := by omega
  rcases hcases with rfl | rfl | rfl
  · -- the seconds go up instead of down
    refine iff_of_false ?_ fun h => ?_
    · rintro ⟨r, hr', hmoved, -⟩
      obtain rfl := Option.some.inj (hshift.symm.trans hr')
      have hpoints := hmoved.points
      rw [← csnText_mod, csnPoints_text (Nat.mod_lt _ (by decide)) hu' hc', csnPoints_text hs hu hc] at hpoints
      omega
    · have := h.2.2
      omega
  · have hmoved : Moved (csnText s u c ('#' :: rest)) (csnText s u' c' ('#' :: rest)) delta := by
      refine moved_of_points hs hu hc hs hu' hc' ht ?_
      rw [csnPoints_text hs hu' hc', csnPoints_text hs hu hc]
      omega
    constructor
    · rintro ⟨r, hr', -, hrestore⟩
      obtain rfl := Option.some.inj (hshift.symm.trans hr')
      refine ⟨by omega, fun hint => ?_, by omega⟩
      by_contra hover
      have h := hrestore hint
      rw [slapCsnShift_overflow hc' (by omega)] at h
      cases h
    · rintro ⟨-, hint, -⟩
      refine ⟨_, hshift, hmoved, fun h => hback s ?_⟩
      have := hint h
      omega
  · -- the way back does not go down again
    refine iff_of_false ?_ fun h => ?_
    · rintro ⟨r, hr', -, hrestore⟩
      obtain rfl := Option.some.inj (hshift.symm.trans hr')
      have h := hrestore (by omega)
      rcases lt_or_ge ((c' : ℤ) - delta) (2 ^ 31) with hlt | hge
      · have hpoints := congrArg csnPoints (Option.some.inj ((hback _ hlt).symm.trans h))
        rw [← csnText_mod, csnPoints_text (Nat.mod_lt _ (by decide)) hu hc, csnPoints_text hs hu hc] at hpoints
        have hsec : (s + 1 + 1) % 10 ^ 14 = s := by
          change ((s + 1 + 1) % 10 ^ 14 * 1000000 + u) * 0x1000000 + c = _ at hpoints
          omega
        omega
      · rw [slapCsnShift_overflow hc' (by omega)] at h
        cases h
    · have := h.2.2
      omega

theorem csn_shift_right_iff_up : ShiftRight countCsn 5 ↔
    (csnPoints countCsn : ℤ) % 0x1000000 + 5 < 2 ^ 31 ∧ (-(5 : ℤ) < 2 ^ 31 → ((csnPoints countCsn : ℤ) + 5) % 0x1000000 - 5 < 2 ^ 31) ∧
      ((csnPoints countCsn : ℤ) + 5) / (1000000 * 0x1000000) = csnPoints countCsn / (1000000 * 0x1000000) :=
  csn_shift_right_iff (by decide) (by decide) (by decide) (by decide +kernel)

def startCsn : List Char := "20200101000001.000000Z#000000#001#000000".toList

theorem csn_shift_borrow : csnFormat startCsn = true ∧ LowerCount startCsn ∧ 0 ≤ (csnPoints startCsn : ℤ) + -1 ∧
    slapCsnShift startCsn (-1) = some "20200101000002.999999Z#ffffff#001#000000".toList ∧ ¬ ShiftRight startCsn (-1) := by
  have hshift : slapCsnShift startCsn (-1) = some "20200101000002.999999Z#ffffff#001#000000".toList := by decide +kernel
  refine ⟨by decide, by decide, by decide +kernel, hshift, ?_⟩
  rintro ⟨r, hr, hmoved, -⟩
  obtain rfl := Option.some.inj (hshift.symm.trans hr)
  have hpoints := hmoved.points
  revert hpoints
  decide +kernel

end

end Sync
end ReOpenLDAP
