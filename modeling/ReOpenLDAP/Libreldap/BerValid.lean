import ReOpenLDAP.Libreldap.EncodeTree

/-!
# Libreldap.BerValid

The octets of a format are BER with definite lengths, and DER if that is asked for.
-/

namespace ReOpenLDAP
namespace Libreldap

open Ber Bytes List

/-- What the loop of `ber_put_int_or_enum` puts in front of a pointer: `unum`, or its complement. -/
structure SignOctets (sign unum : ℕ) (bs : List ℕ) : Prop where
  pos : 0 < bs.length
  lt : ∀ b ∈ bs, b < 256
  value : beNat bs + (if sign = 0 then 0 else unum) = if sign = 0 then unum else 256 ^ bs.length - 1
  bound : unum < 128 * 256 ^ (bs.length - 1)
  minimal : 2 ≤ bs.length → 128 * 256 ^ (bs.length - 2) ≤ unum

def signOctet (sign unum : ℕ) : ℕ := if sign = 0 then unum % 256 else 255 - unum % 256

theorem signOctet_lt (sign unum : ℕ) : signOctet sign unum < 256 := by
  unfold signOctet
  split <;> omega

theorem signOctets_one {sign unum : ℕ} (h : unum < 0x80) : SignOctets sign unum [signOctet sign unum] := by
  refine ⟨by simp, ?_, ?_, by simpa using h, by simp⟩
  · simpa using signOctet_lt sign unum
  · rw [beNat_singleton, signOctet]
    split
    · omega
    · rw [length_singleton, pow_one]
      omega

theorem SignOctets.snoc {sign unum : ℕ} {bs : List ℕ} (hbs : SignOctets sign (unum / 256) bs) (h : 0x80 ≤ unum) :
    SignOctets sign unum (bs ++ [signOctet sign unum]) := by
  obtain ⟨hpos, hlt, hvalue, hbound, hminimal⟩ := hbs
  obtain ⟨k, hk⟩ : ∃ k, bs.length = k + 1 := ⟨bs.length - 1, by omega⟩
  have hpow : 256 ^ (k + 1) = 256 ^ k * 256 := pow_succ 256 k
  have hlen : (bs ++ [signOctet sign unum]).length = k + 2 := by simp [hk]
  rw [hk] at hvalue hbound
  refine ⟨by simp, ?_, ?_, ?_, fun _ => ?_⟩
  · intro b hb
    rcases List.mem_append.mp hb with hb | hb
    · exact hlt b hb
    · rw [List.mem_singleton.mp hb]
      exact signOctet_lt sign unum
  · rw [beNat_append_singleton, hlen, signOctet, pow_succ 256 (k + 1)]
    have hone : 1 ≤ 256 ^ (k + 1) := Nat.one_le_pow _ _ (by omega)
    by_cases hsign : sign = 0
    · simp only [if_pos hsign] at hvalue ⊢
      omega
    · simp only [if_neg hsign] at hvalue ⊢
      omega
  · rw [hlen]
    rw [Nat.add_sub_cancel] at hbound
    rw [show k + 2 - 1 = k + 1 from rfl, hpow]
    omega
  · rw [hlen, Nat.add_sub_cancel]
    rcases Nat.eq_zero_or_pos k with rfl | hkpos
    · simpa using h
    · have hmin := hminimal (by omega)
      rw [hk] at hmin
      obtain ⟨j, rfl⟩ : ∃ j, k = j + 1 := ⟨k - 1, by omega⟩
      rw [show j + 1 + 1 - 2 = j by omega] at hmin
      rw [pow_succ]
      omega

theorem intLoop_signOctets {sign n unum : ℕ} (ptr : List ℕ) (h : unum < 128 * 256 ^ n) :
    ∃ bs, intLoop sign (n + 1) unum ptr = bs ++ ptr ∧ SignOctets sign unum bs := by
  induction n generalizing unum ptr with
  | zero =>
    have hsmall : unum < 0x80 := by simpa using h
    refine ⟨_, ?_, signOctets_one hsmall⟩
    rw [intLoop, if_pos hsmall]
    rfl
  | succ n ih =>
    by_cases hsmall : unum < 0x80
    · refine ⟨_, ?_, signOctets_one hsmall⟩
      rw [intLoop, if_pos hsmall]
      rfl
    · obtain ⟨bs, heq, hbs⟩ := ih (signOctet sign unum :: ptr) (show unum / 256 < 128 * 256 ^ n by rw [pow_succ] at h; omega)
      refine ⟨_, ?_, hbs.snoc (by omega)⟩
      rw [intLoop, if_neg hsmall, append_assoc]
      exact heq

theorem SignOctets.twos_eq {sign unum : ℕ} {bs : List ℕ} (h : SignOctets sign unum bs) :
    twos bs = if sign = 0 then (unum : ℤ) else -1 - unum := by
  obtain ⟨hpos, hlt, hvalue, hbound, -⟩ := h
  cases bs with
  | nil => simp at hpos
  | cons b bs =>
    rw [length_cons, Nat.add_sub_cancel] at hbound
    have hlow := beNat_lt fun c hc => hlt c (mem_cons_of_mem _ hc)
    have hpow : (256 : ℕ) ^ (bs.length + 1) = 256 ^ bs.length * 256 := pow_succ 256 _
    have hpowZ : (256 : ℤ) ^ (bs.length + 1) = ((256 ^ (bs.length + 1) : ℕ) : ℤ) := by push_cast; rfl
    rw [length_cons, beNat_cons] at hvalue
    rw [twos, beNat_cons, hpowZ]
    by_cases hsign : sign = 0
    · simp only [if_pos hsign] at hvalue ⊢
      have hb : b < 128 := by
        by_contra hb
        have := Nat.mul_le_mul_right (256 ^ bs.length) (Nat.le_of_not_lt hb)
        omega
      rw [if_pos hb]
      omega
    · simp only [if_neg hsign] at hvalue ⊢
      have hb : ¬b < 128 := by
        intro hb
        have := Nat.mul_le_mul_right (256 ^ bs.length) (Nat.le_of_lt_succ hb)
        omega
      rw [if_neg hb]
      omega

theorem SignOctets.shortest {sign unum b c : ℕ} {more : List ℕ} (h : SignOctets sign unum (b :: c :: more)) :
    ¬(b = 0 ∧ c < 128) ∧ ¬(b = 255 ∧ 128 ≤ c) := by
  obtain ⟨-, hlt, hvalue, hbound, hminimal⟩ := h
  have hmin := hminimal (by simp)
  have hlow := beNat_lt fun d hd => hlt d (mem_cons_of_mem _ (mem_cons_of_mem _ hd))
  have hpow : (256 : ℕ) ^ (more.length + 1) = 256 ^ more.length * 256 := pow_succ 256 _
  have hpow' : (256 : ℕ) ^ (more.length + 1 + 1) = 256 ^ (more.length + 1) * 256 := pow_succ 256 _
  simp only [length_cons, show more.length + 1 + 1 - 2 = more.length by omega,
    show more.length + 1 + 1 - 1 = more.length + 1 by omega] at hmin hvalue hbound
  rw [beNat_cons, beNat_cons, length_cons] at hvalue
  constructor
  · rintro ⟨rfl, hc⟩
    have := Nat.mul_le_mul_right (256 ^ more.length) (Nat.le_of_lt_succ hc)
    by_cases hsign : sign = 0
    · simp only [if_pos hsign] at hvalue
      omega
    · simp only [if_neg hsign] at hvalue
      omega
  · rintro ⟨rfl, hc⟩
    have := Nat.mul_le_mul_right (256 ^ more.length) hc
    by_cases hsign : sign = 0
    · simp only [if_pos hsign] at hvalue
      omega
    · simp only [if_neg hsign] at hvalue
      omega

theorem intOctets_signOctets (num : BerInt) :
    ∃ sign unum, SignOctets sign unum (intOctets num.1) ∧ num.1 = if sign = 0 then (unum : ℤ) else -1 - unum := by
  obtain ⟨num, hlo, hhi⟩ := num
  unfold intOctets
  by_cases hneg : num < 0
  · obtain ⟨bs, heq, hbs⟩ := @intLoop_signOctets 0xff 3 (-1 - num).toNat [] (by omega)
    rw [if_pos hneg, heq, List.append_nil]
    exact ⟨_, _, hbs, by simp; omega⟩
  · obtain ⟨bs, heq, hbs⟩ := @intLoop_signOctets 0 3 num.toNat [] (by omega)
    rw [if_neg hneg, heq, List.append_nil]
    exact ⟨_, _, hbs, by simp; omega⟩

theorem intOctets_isContent (num : BerInt) (der : Bool) : IsContent der (intOctets num.1) (.int num.1) := by
  obtain ⟨sign, unum, hoctets, hnum⟩ := intOctets_signOctets num
  refine ⟨ne_nil_of_length_pos hoctets.pos, hoctets.lt, hoctets.twos_eq.trans hnum.symm, fun b c more heq => ?_⟩
  rw [heq] at hoctets
  exact hoctets.shortest

theorem lengthOctets_isLength {n : ℕ} (h : n < 2 ^ 64) (der : Bool) : IsLength der n (lengthOctets n) := by
  unfold lengthOctets
  by_cases hlong : 0x80 ≤ n
  · have hlen := length_be_le (v := n) (n := 8) (by omega) (by omega)
    rw [if_pos hlong]
    refine .inr ⟨Nat.add_comm _ _, be_ne_nil n, by omega, be_lt n, beNat_be n, fun _ => ⟨hlong, fun hzero => ?_⟩⟩
    exact head_be (by omega) 0 hzero rfl
  · rw [if_neg hlong, be_of_lt (by omega)]
    exact .inl ⟨by omega, rfl, rfl⟩

theorem seqLengthOctets_isLength {n : ℕ} (h : n ≤ MAXINT_BERSIZE) (der : Bool) : IsLength der n (seqLengthOctets der n) := by
  unfold MAXINT_BERSIZE at h
  cases der with
  | true => exact lengthOctets_isLength (by omega) true
  | false =>
    refine .inr ⟨by simp, by simp [beBytes], by simp, beBytes_lt 4 n, beNat_beBytes (by omega), by simp⟩

/-- Each tag is that of a primitive or a constructed element, as its element is. -/
def TagsValid (tree : Elements Prim) : Prop := tree.All (fun tag _ => IsTag false tag) (IsTag true)

/-- Each integer is a `ber_int_t`. -/
def Ranged (tree : Elements Prim) : Prop := tree.All (fun _ v => ∀ n, v = .int n → -2 ^ 31 ≤ n ∧ n < 2 ^ 31) fun _ => True

theorem ranged_octetStrings (tag : ℕ) (ss : List (List ℕ)) : Ranged (octetStrings tag ss) := by
  induction ss with
  | nil => trivial
  | cons s ss ih => exact ⟨by simp, ih⟩

theorem ranged_elements (tag : ℕ) (e : Elem) : Ranged (e.elements tag) := by
  cases e with
  | b boolval => exact ⟨by simp, trivial⟩
  | e num => exact ⟨fun n hn => Prim.int.inj hn ▸ num.2, trivial⟩
  | i num => exact ⟨fun n hn => Prim.int.inj hn ▸ num.2, trivial⟩
  | n => exact ⟨by simp, trivial⟩
  | _ => exact ranged_octetStrings _ _

theorem ranged_tree (fmt : Fmt) (tag : ℕ) : Ranged (fmt.tree tag) := by
  induction fmt generalizing tag with
  | nil => trivial
  | t tag rest ih => exact ih _
  | elem e rest ih => exact Elements.all_append (ranged_elements tag e) (ih _)
  | seq inner rest ihinner ihrest => exact ⟨trivial, ihinner _, ihrest _⟩
  | set inner rest ihinner ihrest => exact ⟨trivial, ihinner _, ihrest _⟩

theorem content_isContent {v : Prim} (h : ∀ n, v = .int n → -2 ^ 31 ≤ n ∧ n < 2 ^ 31) (der : Bool) : IsContent der (content v) v := by
  cases v with
  | bool b => exact ⟨_, rfl, by cases b <;> simp⟩
  | int n => exact intOctets_isContent ⟨n, h n rfl⟩ der
  | null => rfl
  | octets s => rfl

theorem encodes_octets {der : Bool} {tree : Elements Prim} (hvalid : TagsValid tree) (hranged : Ranged tree) (hfits : Fits der tree) :
    Encodes der tree (octets der tree) := by
  induction tree with
  | nil => rfl
  | prim tag v rest ih =>
    have hlen : (content v).length < 2 ^ 64 := by
      have := hfits.1
      unfold MAXINT_BERSIZE at this
      omega
    exact ⟨_, _, _, rfl, hvalid.1, lengthOctets_isLength hlen der, content_isContent hranged.1 der,
      ih hvalid.2 hranged.2 hfits.2⟩
  | cons tag c rest ihc ihrest =>
    exact ⟨_, _, _, rfl, hvalid.1, seqLengthOctets_isLength hfits.1 der, ihc hvalid.2.1 hranged.2.1 hfits.2.1,
      ihrest hvalid.2.2 hranged.2.2 hfits.2.2⟩

end Libreldap
end ReOpenLDAP
