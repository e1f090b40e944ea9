import ReOpenLDAP.Slapd.SlBlocks

/-!
# Slapd.SlCalloc

The range test of `slap_sl_calloc`.

* `slapSlCalloc_right` — for which arrays that is so.
-/

namespace ReOpenLDAP
namespace Slapd

open Memory

inductive RangeTest where
  | divides
  | outOfRange
  | passes
  deriving DecidableEq

/-- `(n | s) > LIM_SQRT(ber_len_t) && (ber_len_t)-1 / n > s` -/
def rangeTest (n s : ℕ) : RangeTest :=
  if 2 ^ 32 - 1 < n ||| s then
    if n = 0 then .divides else if s < (2 ^ 64 - 1) / n then .outOfRange else .passes
  else .passes

theorem outOfRange_iff (n s : ℕ) : OutOfRange n s ↔ rangeTest n s ≠ .passes := by
  unfold OutOfRange rangeTest
  by_cases hroot : 2 ^ 32 - 1 < n ||| s
  · rw [if_pos hroot, and_iff_right hroot]
    by_cases hzero : n = 0
    · rw [if_pos hzero]
      exact ⟨fun _ => by nofun, fun _ => .inl hzero⟩
    · rw [if_neg hzero]
      by_cases hless : s < (2 ^ 64 - 1) / n
      · rw [if_pos hless]
        exact ⟨fun _ => by nofun, fun _ => .inr hless⟩
      · rw [if_neg hless]
        exact ⟨fun h => absurd h (not_or.mpr ⟨hzero, hless⟩), fun h => absurd rfl h⟩
  · rw [if_neg hroot]
    exact ⟨fun h => absurd h.1 hroot, fun h => absurd rfl h⟩

/-- The request is told from one that does not fit, and a block of zero bytes is returned where the system has memory. -/
structure CallocRight (n s : ℕ) (sh : SlabHeap) : Prop where
  no_division : rangeTest n s ≠ .divides
  reports : rangeTest n s = .outOfRange ↔ 2 ^ 64 - 1 < n * s
  zeroed : n * s ≤ 2 ^ 64 - 1 → ∀ a, ∃ ptr sh', slapSlCalloc n s (some a) sh = some (ptr, sh') ∧
    (0 < n * s → ∃ p, ptr = some p ∧ (p = a ∨ sh.shLast < p ∧ p + n * s ≤ sh'.shLast ∧ sh'.shLast < sh.shEnd) ∧
      ∀ x, p ≤ x → x < p + n * s → sh'.mem x = 0)

section

variable {n s : ℕ} {sh : SlabHeap}

theorem rangeTest_large (hroot : 2 ^ 32 ≤ n ||| s) (hn : n ≠ 0) :
    rangeTest n s = if s < (2 ^ 64 - 1) / n then .outOfRange else .passes := by
  rw [rangeTest, if_pos (by omega), if_neg hn]

theorem rangeTest_small (hroot : n ||| s < 2 ^ 32) : rangeTest n s = .passes := if_neg (by omega)

theorem fits_iff (hn : n ≠ 0) : n * s ≤ 2 ^ 64 - 1 ↔ s ≤ (2 ^ 64 - 1) / n := by
  rw [Nat.le_div_iff_mul_le (Nat.pos_of_ne_zero hn), Nat.mul_comm]

theorem product_small (hroot : n ||| s < 2 ^ 32) : n * s ≤ 2 ^ 64 - 1 := by
  have hn : n ≤ 2 ^ 32 - 1 := by
    have := Nat.left_le_or (n := n) (m := s)
    omega
  have hs : s ≤ 2 ^ 32 - 1 := by
    have := Nat.right_le_or (n := n) (m := s)
    omega
  exact (Nat.mul_le_mul hn hs).trans (by decide)

theorem slapSlCalloc_passes (hpass : rangeTest n s = .passes) (hpos : 0 < n ||| s) (hfits : n * s ≤ 2 ^ 64 - 1) (ch : Option ℕ) :
    slapSlCalloc n s ch sh =
      match if n * s < slMaxSize then slapSlMallocIn (n * s) sh else none with
      | some (ptr, sh') => some (some ptr, { sh' with mem := sh'.mem.fill ptr (n * s) 0 })
      | none => (chCalloc n s ch).map fun a => (some a, { sh with mem := sh.mem.fill a (n * s) 0 }) := by
  have hmod : n * s % 2 ^ 64 = n * s := Nat.mod_eq_of_lt (by omega)
  have hrange : ¬OutOfRange n s := fun h => (outOfRange_iff n s).mp h hpass
  unfold slapSlCalloc
  rw [if_neg hpos.ne', if_neg hrange]
  simp only [hmod] <;> rfl

theorem slapSlCalloc_zeroed (hpass : rangeTest n s = .passes) (hpos : 0 < n * s) (hfits : n * s ≤ 2 ^ 64 - 1) (a : ℕ) :
    ∃ p sh', slapSlCalloc n s (some a) sh = some (some p, sh') ∧
      (p = a ∨ sh.shLast < p ∧ p + n * s ≤ sh'.shLast ∧ sh'.shLast < sh.shEnd) ∧ ∀ x, p ≤ x → x < p + n * s → sh'.mem x = 0 := by
  have hn : n ≠ 0 := fun h => by simp [h] at hpos
  have hs : s ≠ 0 := fun h => by simp [h] at hpos
  have hor : 0 < n ||| s := (Nat.pos_of_ne_zero hn).trans_le Nat.left_le_or
  rw [slapSlCalloc_passes hpass hor hfits]
  cases hin : (if n * s < slMaxSize then slapSlMallocIn (n * s) sh else none) with
  | some r =>
    obtain ⟨p, sh'⟩ := r
    obtain ⟨hlt, hin⟩ := Option.ite_none_right_eq_some.mp hin
    obtain ⟨-, -, -, hholds⟩ := slUp2block_spec hpos hlt
    unfold slapSlMallocIn at hin
    obtain ⟨hroom, hin⟩ := Option.ite_none_right_eq_some.mp hin
    cases hin
    have hword : wordSize = 8 := rfl
    refine ⟨_, _, rfl, .inr ⟨by omega, ?_, ?_⟩, fun x hle hlt => fill_inside hle hlt⟩
    · show sh.shLast + wordSize + n * s ≤ sh.shLast + slUp2block (n * s)
      omega
    · show sh.shLast + slUp2block (n * s) < sh.shEnd
      omega
  | none =>
    have hch : chCalloc n s (some a) = some a := if_neg (by simp [hn, hs])
    refine ⟨a, { sh with mem := sh.mem.fill a (n * s) 0 }, ?_, .inl rfl, fun x hle hlt => fill_inside hle hlt⟩
    show (chCalloc n s (some a)).map _ = _
    rw [hch]
    rfl

theorem slapSlCalloc_empty (hroot : n ||| s < 2 ^ 32) (hpos : 0 < n ||| s) (hzero : n * s = 0) (a : ℕ) :
    (slapSlCalloc n s (some a) sh).isSome ↔ wordSize < sh.shEnd - sh.shLast := by
  have hempty : slUp2block 0 = wordSize := by decide
  have hmax : 0 < slMaxSize := by decide
  have hch : chCalloc n s (some a) = none := if_pos (Nat.mul_eq_zero.mp hzero)
  rw [slapSlCalloc_passes (rangeTest_small hroot) hpos (by omega), hzero, if_pos hmax, slapSlMallocIn, hempty, hch]
  by_cases hroom : wordSize < sh.shEnd - sh.shLast
  · simp [hroom]
  · simp [hroom]

end

theorem callocRight_iff {n s : ℕ} (hword : n < 2 ^ 64) (sh : SlabHeap) :
    CallocRight n s sh ↔
      n ||| s < 2 ^ 32 ∧ (n * s = 0 → n = 0 ∧ s = 0 ∨ wordSize < sh.shEnd - sh.shLast) ∨
      2 ^ 32 ≤ n ||| s ∧ n ≠ 0 ∧ s = (2 ^ 64 - 1) / n := by
  constructor
  · rintro ⟨hdivision, hreports, hzeroed⟩
    by_cases hroot : n ||| s < 2 ^ 32
    · refine .inl ⟨hroot, fun hzero => ?_⟩
      by_cases hor : n ||| s = 0
      · exact .inl (Nat.or_eq_zero_iff.mp hor)
      · obtain ⟨ptr, sh', hsome, -⟩ := hzeroed (by omega) 0
        exact .inr ((slapSlCalloc_empty hroot (Nat.pos_of_ne_zero hor) hzero 0).mp (by rw [hsome]; rfl))
    · have hlarge := Nat.le_of_not_lt hroot
      have hn : n ≠ 0 := by
        rintro rfl
        exact hdivision (by rw [rangeTest, if_pos (by omega), if_pos rfl])
      rw [rangeTest_large hlarge hn] at hreports
      have hfits := fits_iff (s := s) hn
      refine .inr ⟨hlarge, hn, ?_⟩
      by_cases hless : s < (2 ^ 64 - 1) / n
      · rw [if_pos hless] at hreports
        have := hreports.mp rfl
        omega
      · rw [if_neg hless] at hreports
        have : ¬2 ^ 64 - 1 < n * s := fun h => nomatch hreports.mpr h
        omega
  · rintro (⟨hroot, hempty⟩ | ⟨hlarge, hn, hs⟩)
    · have hpass := rangeTest_small hroot
      have hfits := product_small hroot
      refine ⟨hpass.trans_ne (by nofun), ⟨fun h => absurd h (hpass.trans_ne (by nofun)), fun h => by omega⟩, fun _ a => ?_⟩
      rcases Nat.eq_zero_or_pos (n * s) with hzero | hpos
      · have hsome : (slapSlCalloc n s (some a) sh).isSome := by
          by_cases hor : n ||| s = 0
          · rw [slapSlCalloc, if_pos hor]
            rfl
          · refine (slapSlCalloc_empty hroot (Nat.pos_of_ne_zero hor) hzero a).mpr ((hempty hzero).resolve_left ?_)
            rintro ⟨rfl, rfl⟩
            exact hor rfl
        obtain ⟨⟨ptr, sh'⟩, hsome⟩ := Option.isSome_iff_exists.mp hsome
        exact ⟨ptr, sh', hsome, fun h => by omega⟩
      · obtain ⟨p, sh', hsome, hblock⟩ := slapSlCalloc_zeroed hpass hpos hfits a
        exact ⟨some p, sh', hsome, fun _ => ⟨p, rfl, hblock⟩⟩
    · have hpass : rangeTest n s = .passes := by
        rw [rangeTest_large hlarge hn, if_neg (by omega)]
      have hfits : n * s ≤ 2 ^ 64 - 1 := (fits_iff hn).mpr hs.le
      refine ⟨hpass.trans_ne (by nofun), ⟨fun h => absurd h (hpass.trans_ne (by nofun)), fun h => by omega⟩, fun _ a => ?_⟩
      have hpos : 0 < n * s := by
        rw [hs]
        exact Nat.mul_pos (Nat.pos_of_ne_zero hn) (Nat.div_pos (by omega) (Nat.pos_of_ne_zero hn))
      obtain ⟨p, sh', hsome, hblock⟩ := slapSlCalloc_zeroed hpass hpos hfits a
      exact ⟨some p, sh', hsome, fun _ => ⟨p, rfl, hblock⟩⟩

/-- The test is right for arrays whose sides have 32 bits, if there is an element and a byte of it, or neither, or room for a head in the
slab; and for an array of as many bytes as fit. -/
theorem slapSlCalloc_right (n s : UInt64) (sh : SlabHeap) :
    CallocRight n.toNat s.toNat sh ↔
      n.toNat ||| s.toNat < 2 ^ 32 ∧
        (n.toNat * s.toNat = 0 → n.toNat = 0 ∧ s.toNat = 0 ∨ wordSize < sh.shEnd - sh.shLast) ∨
      2 ^ 32 ≤ n.toNat ||| s.toNat ∧ n.toNat ≠ 0 ∧ s.toNat = (2 ^ 64 - 1) / n.toNat :=
  callocRight_iff n.toNat_lt sh

/-- No element of 4 GiB is a division by zero; one of 4 GiB is refused; and 2^33 of 2^31 bytes are taken for none. -/
theorem slapSlCalloc_wrong :
    rangeTest 0 (2 ^ 32) = .divides ∧ rangeTest 1 (2 ^ 32) = .outOfRange ∧ rangeTest (2 ^ 33) (2 ^ 31) = .passes ∧
      ¬∃ sh, CallocRight 0 (2 ^ 32) sh ∨ CallocRight 1 (2 ^ 32) sh ∨ CallocRight (2 ^ 33) (2 ^ 31) sh := by
  have hdivides : rangeTest 0 (2 ^ 32) = .divides := by decide +kernel
  have hrange : rangeTest 1 (2 ^ 32) = .outOfRange := by decide +kernel
  have hpass : rangeTest (2 ^ 33) (2 ^ 31) = .passes := by decide +kernel
  refine ⟨hdivides, hrange, hpass, ?_⟩
  rintro ⟨sh, h | h | h⟩
  · exact h.no_division hdivides
  · have := h.reports.mp hrange
    omega
  · have hlarge : 2 ^ 64 - 1 < 2 ^ 33 * 2 ^ 31 := by decide
    exact nomatch hpass.symm.trans (h.reports.mpr hlarge)

end Slapd
end ReOpenLDAP
