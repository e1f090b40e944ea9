import ReOpenLDAP.Lib.BerOctets

/-!
# Lib.TwosComplement

The shortest two's complement octets of an integer, `IsContent` of an `int`.
-/

namespace ReOpenLDAP
namespace Ber

open List

/-- The integers of `n + 1` octets. -/
def FitsIn (n : ℕ) (v : ℤ) : Prop := -(128 * 256 ^ n) ≤ v ∧ v < 128 * 256 ^ n

instance (n : ℕ) (v : ℤ) : Decidable (FitsIn n v) := inferInstanceAs (Decidable (_ ∧ _))

variable {bs cs : List ℕ} {m n : ℕ} {v w : ℤ} {der : Bool}

theorem FitsIn.mono (h : FitsIn m v) (hle : m ≤ n) : FitsIn n v := by
  have hpow : (256 : ℤ) ^ m ≤ 256 ^ n := pow_le_pow_right₀ (by omega) hle
  obtain ⟨hlo, hhi⟩ := h
  exact ⟨by omega, by omega⟩

theorem FitsIn.between (h : FitsIn n v) (hw : 0 ≤ w ∧ w ≤ v ∨ v ≤ w ∧ w ≤ 0) : FitsIn n w := by
  have hpow : (0 : ℤ) < 256 ^ n := by positivity
  obtain ⟨hlo, hhi⟩ := h
  exact ⟨by omega, by omega⟩

def signed (b : ℕ) : ℤ := if b < 128 then (b : ℤ) else b - 256

theorem twos_cons (b : ℕ) (bs : List ℕ) : twos (b :: bs) = signed b * 256 ^ bs.length + beNat bs := by
  rw [twos, beNat_cons, signed]
  split <;> push_cast <;> ring

theorem signed_le {b : ℕ} (h : b < 256) : -128 ≤ signed b ∧ signed b ≤ 127 := by
  unfold signed
  split <;> omega

theorem beNat_lt_cast (h : ∀ b ∈ bs, b < 256) : (beNat bs : ℤ) < 256 ^ bs.length := by
  exact_mod_cast beNat_lt h

theorem twos_fitsIn (hlt : ∀ b ∈ bs, b < 256) (hlen : bs.length = n + 1) : FitsIn n (twos bs) := by
  cases bs with
  | nil => simp at hlen
  | cons b bs =>
    obtain rfl : bs.length = n := by simpa using hlen
    obtain ⟨hb, hbs⟩ := List.forall_mem_cons.mp hlt
    obtain ⟨hlo, hhi⟩ := signed_le hb
    have hlow := beNat_lt_cast hbs
    have hmin := mul_le_mul_of_nonneg_right hlo (by positivity : (0 : ℤ) ≤ 256 ^ bs.length)
    have hmax := mul_le_mul_of_nonneg_right hhi (by positivity : (0 : ℤ) ≤ 256 ^ bs.length)
    rw [twos_cons]
    exact ⟨by omega, by omega⟩

theorem not_fitsIn {b c : ℕ} (hlt : ∀ x ∈ b :: c :: bs, x < 256) (hzero : ¬(b = 0 ∧ c < 128)) (hone : ¬(b = 255 ∧ 128 ≤ c)) :
    ¬FitsIn bs.length (twos (b :: c :: bs)) := by
  obtain ⟨hb, hcbs⟩ := List.forall_mem_cons.mp hlt
  obtain ⟨hc, hbs⟩ := List.forall_mem_cons.mp hcbs
  have hlow := beNat_lt_cast hbs
  have hpos : (0 : ℤ) < 256 ^ bs.length := by positivity
  have htwos : twos (b :: c :: bs) = (256 * signed b + c) * 256 ^ bs.length + beNat bs := by
    rw [twos_cons, beNat_cons, length_cons, pow_succ]
    push_cast
    ring
  have hout : 256 * signed b + c ≤ -129 ∨ 128 ≤ 256 * signed b + c := by
    unfold signed
    split <;> omega
  rintro ⟨hlo, hhi⟩
  rw [htwos] at hlo hhi
  rcases hout with hout | hout
  · have := mul_le_mul_of_nonneg_right hout hpos.le
    omega
  · have := mul_le_mul_of_nonneg_right hout hpos.le
    omega

theorem content_fitsIn (h : IsContent der bs (.int v)) (hlen : bs.length = n + 1) : FitsIn n v := by
  obtain ⟨-, hlt, rfl, -⟩ := h
  exact twos_fitsIn hlt hlen

theorem length_content_le (h : IsContent der bs (.int v)) (hfits : FitsIn n v) : bs.length ≤ n + 1 := by
  obtain ⟨hne, hlt, rfl, hmin⟩ := h
  by_contra hlong
  rcases bs with _ | ⟨b, _ | ⟨c, more⟩⟩
  · exact hne rfl
  · simp at hlong
  · obtain ⟨hzero, hone⟩ := hmin b c more rfl
    refine not_fitsIn hlt hzero hone (hfits.mono ?_)
    simp only [length_cons] at hlong
    omega

theorem beNat_inj (hlen : bs.length = cs.length) (hbs : ∀ b ∈ bs, b < 256) (hcs : ∀ b ∈ cs, b < 256) (h : beNat bs = beNat cs) :
    bs = cs := by
  induction bs generalizing cs with
  | nil => exact (List.length_eq_zero_iff.mp hlen.symm).symm
  | cons b bs ih =>
    cases cs with
    | nil => simp at hlen
    | cons c cs =>
      obtain ⟨-, hbs'⟩ := List.forall_mem_cons.mp hbs
      obtain ⟨-, hcs'⟩ := List.forall_mem_cons.mp hcs
      simp only [length_cons, Nat.add_right_cancel_iff] at hlen
      have hlow := beNat_lt hbs'
      have hlow' := beNat_lt hcs'
      rw [beNat_cons, beNat_cons, ← hlen] at h
      rw [← hlen] at hlow'
      have hpos : 0 < 256 ^ bs.length := Nat.pow_pos (by omega)
      have hb : b = c := by
        have hdiv := congrArg (· / 256 ^ bs.length) h
        simpa only [Nat.mul_comm _ (256 ^ bs.length), Nat.mul_add_div hpos, Nat.div_eq_of_lt hlow, Nat.div_eq_of_lt hlow',
          Nat.add_zero] using hdiv
      subst hb
      rw [ih hlen hbs' hcs' (by omega)]

theorem twos_inj (hlen : bs.length = cs.length) (hbs : ∀ b ∈ bs, b < 256) (hcs : ∀ b ∈ cs, b < 256) (h : twos bs = twos cs) :
    bs = cs := by
  cases bs with
  | nil => exact (List.length_eq_zero_iff.mp hlen.symm).symm
  | cons b bs =>
    cases cs with
    | nil => simp at hlen
    | cons c cs =>
      refine beNat_inj hlen hbs hcs ?_
      have hlt := beNat_lt hbs
      have hlt' := beNat_lt hcs
      have hpow : ((256 ^ (b :: bs).length : ℕ) : ℤ) = 256 ^ (bs.length + 1) := by push_cast; rfl
      simp only [length_cons, Nat.add_right_cancel_iff] at hlen
      rw [← show (b :: bs).length = (c :: cs).length by simp [hlen]] at hlt'
      rw [twos, twos, ← hlen, ← hpow] at h
      split at h <;> split at h <;> omega

theorem content_unique {der' : Bool} (h : IsContent der bs (.int v)) (h' : IsContent der' cs (.int v)) : bs = cs := by
  have hlen : bs.length = cs.length := by
    obtain ⟨k, hk⟩ := Nat.exists_eq_add_of_lt (length_pos_of_ne_nil h.1)
    obtain ⟨l, hl⟩ := Nat.exists_eq_add_of_lt (length_pos_of_ne_nil h'.1)
    rw [Nat.zero_add] at hk hl
    have hle := length_content_le h (content_fitsIn h' hl)
    have hge := length_content_le h' (content_fitsIn h hk)
    omega
  exact twos_inj hlen h.2.1 h'.2.1 (h.2.2.1.trans h'.2.2.1.symm)

end Ber
end ReOpenLDAP
