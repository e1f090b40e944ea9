import ReOpenLDAP.Slapd.IntegerKey

/-!
# Slapd.IntegerOrder

The order of the index keys of Integer.

* `integer_keys_ordered` — what the indexer and the filter write for values of any length, and its order.
-/

namespace ReOpenLDAP
namespace Slapd

open Bytes Cmp Decimal Lutil List

theorem marker_lt : ∀ n' < 8, ∀ n < n', 0 < n → ∀ b < 2 ^ (6 - n), b + marker n < marker n' := by decide

theorem le_marker : ∀ n < 10, 0 < n → 192 ≤ marker n := by decide

section

variable {L M M' : ℕ} {key key' : List ℕ}

theorem le_size_of_chopped (hL : 0 < L) (hle : 64 * 256 ^ (L - 1) ≤ M) : L ≤ size M := by
  have := lt_size_iff.mpr (Nat.le_trans (Nat.le_mul_of_pos_left _ (by omega)) hle)
  omega

namespace MagnitudeKey

theorem length (hL : 0 < L) (h : MagnitudeKey L M key) : key.length = L := by
  cases h with
  | plain hlt => simp
  | chopped n hle hpos hn hbig hcap =>
    have := le_size_of_chopped hL hle
    rw [length_take_of_le]
    simp
    omega

theorem bytes (h : MagnitudeKey L M key) : ∀ b ∈ key, b < 256 := by
  cases h with
  | plain hlt => exact beBytes_lt _ _
  | chopped n hle hpos hn hbig hcap =>
    intro b hb
    rcases List.mem_append.mp (mem_of_mem_take hb) with hb | hb
    · exact beBytes_lt _ _ b hb
    · exact beBytes_lt _ _ b hb

end MagnitudeKey

theorem plain_eq_cons (hL : 0 < L) (hlt : M < 64 * 256 ^ (L - 1)) :
    ∃ b t, beBytes L (M + 128 * 256 ^ (L - 1)) = b :: t ∧ 128 ≤ b ∧ b < 192 := by
  have htop : M / 256 ^ (L - 1) < 64 := Nat.div_lt_of_lt_mul (Nat.mul_comm _ _ ▸ hlt)
  have hcons := beBytes_mark (v := M) (k := L - 1) (m := 128) (by omega)
  rw [Nat.sub_add_cancel hL] at hcons
  exact ⟨_, _, hcons, Nat.le_add_left _ _, by omega⟩

theorem exponent_eq_cons {n e : ℕ} (hpos : 0 < n) (hn : n < 10) (hcap : e < capacity n) :
    ∃ b t, beBytes n (e + marker n * 256 ^ (n - 1)) = (b + marker n) :: t ∧ b < 2 ^ (6 - n) := by
  have hfirst : e / 256 ^ (n - 1) < 2 ^ (6 - n) := Nat.div_lt_of_lt_mul (Nat.mul_comm _ _ ▸ hcap)
  have hcons := beBytes_mark (add_marker_lt n hn hpos _ hfirst)
  rw [Nat.sub_add_cancel hpos] at hcons
  exact ⟨_, _, hcons, hfirst⟩

theorem exponent_lt {n e : ℕ} (hpos : 0 < n) (hn : n < 10) (hcap : e < capacity n) :
    e + marker n * 256 ^ (n - 1) < 256 ^ n := by
  have hfirst : e / 256 ^ (n - 1) < 2 ^ (6 - n) := Nat.div_lt_of_lt_mul (Nat.mul_comm _ _ ▸ hcap)
  have hbyte := add_marker_lt n hn hpos _ hfirst
  have hp : 0 < 256 ^ (n - 1) := Nat.pow_pos (by omega)
  have hdiv : (e + marker n * 256 ^ (n - 1)) / 256 ^ (n - 1) < 256 := by rwa [Nat.add_mul_div_right _ _ hp]
  have := (Nat.div_lt_iff_lt_mul hp).mp hdiv
  rwa [← pow_succ', Nat.sub_add_cancel hpos] at this

theorem MagnitudeKey.eq_cons (hL : 0 < L) (h : MagnitudeKey L M key) : ∃ b t, key = b :: t ∧ 128 ≤ b ∧ b < 256 := by
  cases h with
  | plain hlt =>
    obtain ⟨b, t, hcons, hlo, hhi⟩ := plain_eq_cons hL hlt
    exact ⟨b, t, hcons, hlo, by omega⟩
  | chopped n hle hpos hn hbig hcap =>
    obtain ⟨b, t, hcons, hb⟩ := exponent_eq_cons hpos hn hcap
    have hlo := le_marker n hn hpos
    have hhi := add_marker_lt n hn hpos b hb
    obtain ⟨k, rfl⟩ := Nat.exists_eq_add_of_lt hL
    exact ⟨b + marker n, (t ++ beBytes (size M) M).take (0 + k), by rw [hcons]; rfl, by omega, hhi⟩

theorem cmp_exponent {n : ℕ} (hpos : 0 < n) (hn : n < 10) (hL : 0 < L) (hM : 64 * 256 ^ (L - 1) ≤ M)
    (hM' : 64 * 256 ^ (L - 1) ≤ M') (hcap : size M - L < capacity n) (hcap' : size M' - L < capacity n) (hle : M ≤ M') :
    cmp (beBytes n (size M - L + marker n * 256 ^ (n - 1)) ++ beBytes (size M) M)
      (beBytes n (size M' - L + marker n * 256 ^ (n - 1)) ++ beBytes (size M') M') ≠ .gt := by
  have hs := le_size_of_chopped hL hM
  have hs' := le_size_of_chopped hL hM'
  rw [cmp_append (by simp), cmp_beBytes (exponent_lt hpos hn hcap) (exponent_lt hpos hn hcap'), cmp_add_right]
  rcases (size_mono hle).lt_or_eq with hlt | heq
  · rw [cmp_eq_lt_iff _ _ |>.mpr (by omega), Ordering.lt_then]
    simp
  · rw [heq, cmp_self_eq_eq, Ordering.eq_then,
      cmp_beBytes (size_le_iff.mp heq.le) (size_le_iff.mp (le_refl _)), Ne, cmp_eq_gt_iff]
    omega

theorem MagnitudeKey.mono (hL : 0 < L) (h : MagnitudeKey L M key) (h' : MagnitudeKey L M' key') (hle : M ≤ M')
    (hsmall : size M' < L + 2 ^ 48) : cmp key key' ≠ .gt := by
  have hhead {b b' : ℕ} (hb : b < b') (t t' : List ℕ) : cmp (b :: t) (b' :: t') ≠ .gt := by
    rw [cmp_cons, cmp_eq_lt_iff _ _ |>.mpr hb, Ordering.lt_then]
    simp
  have hfull : 256 ^ L = 256 * 256 ^ (L - 1) := by rw [← pow_succ', Nat.sub_add_cancel hL]
  cases h with
  | plain hlt =>
    cases h' with
    | plain hlt' =>
      rw [cmp_beBytes (by omega) (by omega), cmp_add_right, Ne, cmp_eq_gt_iff]
      omega
    | chopped n' hle' hpos' hn' hbig' hcap' =>
      obtain ⟨b, t, hcons, -, hb⟩ := plain_eq_cons hL hlt
      obtain ⟨b', t', hcons', hb'⟩ := exponent_eq_cons hpos' hn' hcap'
      have hmarker := le_marker n' hn' hpos'
      obtain ⟨k, hk⟩ := Nat.exists_eq_add_of_lt hL
      rw [hcons, hcons', hk, cons_append, take_succ_cons]
      exact hhead (by omega) _ _
  | chopped n hle1 hpos hn hbig hcap =>
    cases h' with
    | plain hlt' => omega
    | chopped n' hle' hpos' hn' hbig' hcap' =>
      have hs := le_size_of_chopped hL hle1
      have hs' := le_size_of_chopped hL hle'
      have hsize := size_mono hle
      have hn8 : n' < 8 := by
        by_contra hge
        have h7 : 2 ^ 48 ≤ size M' - L := hbig' 7 (by omega) (by omega)
        omega
      have hcut {w e u : ℕ} (hu : L ≤ size u) : L ≤ (beBytes w e ++ beBytes (size u) u).length := by
        rw [length_append, length_beBytes, length_beBytes]
        omega
      refine cmp_take_ne_gt (hcut hs) (hcut hs') ?_
      rcases lt_trichotomy n n' with hlt | rfl | hlt
      · obtain ⟨b, t, hcons, hb⟩ := exponent_eq_cons hpos hn hcap
        obtain ⟨b', t', hcons', -⟩ := exponent_eq_cons hpos' hn' hcap'
        have := marker_lt n' hn8 n hlt hpos b hb
        rw [hcons, hcons', cons_append, cons_append]
        exact hhead (by omega) _ _
      · exact cmp_exponent hpos hn hL hle1 hle' hcap hcap' hle
      · have := hbig n' hpos' hlt
        omega

end

theorem mul_pow_succ_le {a b p q : ℕ} (h : a * p ≤ b * q) (hpq : p ≤ q) (d : ℕ) : a * p ^ (d + 1) ≤ b * q ^ (d + 1) :=
  calc a * p ^ (d + 1) = a * p * p ^ d := by ring
    _ ≤ b * q * q ^ d := Nat.mul_le_mul h (Nat.pow_le_pow_left hpq d)
    _ = b * q ^ (d + 1) := by ring

theorem chop_grows {u d : ℕ} (hu : 3 ≤ u) (hd : 0 < d) : (u + 2) * 10 ^ (d * 7) ≤ u * 256 ^ (d * 3) := by
  obtain ⟨d, rfl⟩ := Nat.exists_eq_add_of_lt hd
  have hone : (u + 2) * 10 ^ 7 ≤ u * 256 ^ 3 := by omega
  calc (u + 2) * 10 ^ ((0 + d + 1) * 7) = (u + 2) * (10 ^ 7) ^ (d + 1) := by rw [← pow_mul, zero_add, Nat.mul_comm 7]
    _ ≤ u * (256 ^ 3) ^ (d + 1) := mul_pow_succ_le hone (by omega) d
    _ = u * 256 ^ ((0 + d + 1) * 3) := by rw [← pow_mul, zero_add, Nat.mul_comm 3]

section

variable {L : ℕ} {ds ds' : List Char}

theorem number_chopDigits (h : Canonical ds) (hL : 12 ≤ indexIntlenStrlen L) :
    number (chopDigits L ds) = number ds / 10 ^ (chopCount L ds * 7) := by
  have hcut : chopCount L ds * 7 ≤ ds.length := by
    unfold chopCount
    omega
  have hlen : (ds.drop (ds.length - chopCount L ds * 7)).length = chopCount L ds * 7 := by
    rw [length_drop]
    omega
  have hlow := number_lt fun c hc => h.digits c (mem_of_mem_drop (i := ds.length - chopCount L ds * 7) hc)
  rw [hlen] at hlow
  have hsplit := number_append (ds.take (ds.length - chopCount L ds * 7)) (ds.drop (ds.length - chopCount L ds * 7))
  rw [take_append_drop, hlen] at hsplit
  rw [hsplit, Nat.mul_comm, Nat.mul_add_div (Nat.pow_pos (by omega)), Nat.div_eq_of_lt hlow, Nat.add_zero, chopDigits]

theorem magnitude_mono (h : Canonical ds) (h' : Canonical ds') (hL : 4 ≤ L) (hL' : L < 256) (isNeg : Bool)
    (hle : number ds ≤ number ds') : magnitude L isNeg ds ≤ magnitude L isNeg ds' := by
  obtain ⟨h12, hpow, -⟩ := strlen_facts L hL' hL
  have hlen : ds.length ≤ ds'.length := by
    by_contra hlt
    exact absurd (h'.lt_of_length_lt h (by omega)) (by omega)
  obtain ⟨d, hd⟩ := Nat.exists_eq_add_of_le (show chopCount L ds ≤ chopCount L ds' by unfold chopCount; omega)
  have hdiv : number ds / 10 ^ (chopCount L ds * 7) ≤ number ds' / 10 ^ (chopCount L ds * 7) := Nat.div_le_div_right hle
  rcases Nat.eq_zero_or_pos d with rfl | hd0
  · rw [add_zero] at hd
    unfold magnitude chopMagnitude
    rw [number_chopDigits h h12, number_chopDigits h' h12, hd]
    exact Nat.mul_le_mul_right _ (Nat.sub_le_sub_right hdiv _)
  · have hbig : 256 ^ (L - 1) ≤ chopMagnitude L isNeg ds' := le_chopMagnitude h' hL hL' isNeg (by omega)
    have hthree : 3 ≤ chopMagnitude L isNeg ds' := by
      have : 256 ^ 1 ≤ 256 ^ (L - 1) := Nat.pow_le_pow_right (by omega) (by omega)
      omega
    have hneg := Bool.toNat_le isNeg
    have hleft : number ds' / 10 ^ (chopCount L ds * 7) < (chopMagnitude L isNeg ds' + 2) * 10 ^ (d * 7) := by
      rw [← Nat.div_lt_iff_lt_mul (Nat.pow_pos (by omega)), Nat.div_div_eq_div_mul, ← pow_add, ← Nat.add_mul, ← hd,
        ← number_chopDigits h' h12]
      unfold chopMagnitude at hthree ⊢
      omega
    calc magnitude L isNeg ds ≤ number ds' / 10 ^ (chopCount L ds * 7) * 256 ^ (chopCount L ds * 3) := by
          refine Nat.mul_le_mul_right _ (Nat.le_trans (Nat.sub_le ..) ?_)
          rw [number_chopDigits h h12]
          exact hdiv
      _ ≤ chopMagnitude L isNeg ds' * 256 ^ (d * 3) * 256 ^ (chopCount L ds * 3) :=
          Nat.mul_le_mul_right _ (hleft.le.trans (chop_grows hthree hd0))
      _ = magnitude L isNeg ds' := by
          rw [magnitude, hd, Nat.mul_assoc, ← pow_add, ← Nat.add_mul, Nat.add_comm d]

theorem size_magnitude_le (h : Canonical ds) (hL : 4 ≤ L) (hL' : L < 256) (isNeg : Bool) :
    size (magnitude L isNeg ds) ≤ L + 3 + chopCount L ds * 3 := by
  rw [size_le_iff, magnitude, pow_add]
  exact Nat.mul_lt_mul_of_pos_right (chopMagnitude_lt h hL hL' isNeg) (Nat.pow_pos (by omega))

end

/-! ## Below zero -/

theorem cmp_complement {s t : List ℕ} (hs : ∀ b ∈ s, b < 256) (ht : ∀ b ∈ t, b < 256) (hlen : s.length = t.length) :
    cmp (s.map (· ^^^ 0xff)) (t.map (· ^^^ 0xff)) = cmp t s := by
  induction s generalizing t with
  | nil =>
    rw [eq_nil_of_length_eq_zero hlen.symm]
    rfl
  | cons b s ih =>
    cases t with
    | nil => cases hlen
    | cons c t =>
      obtain ⟨hb, hs⟩ := List.forall_mem_cons.mp hs
      obtain ⟨hc, ht⟩ := List.forall_mem_cons.mp ht
      rw [map_cons, map_cons, cmp_cons, cmp_cons, ih hs ht (Nat.succ_inj.mp hlen), complement_octet b hb,
        complement_octet c hc]
      congr 1
      exact cmp_congr (by omega) (by omega)

theorem MagnitudeKey.unique {L M : ℕ} {key key' : List ℕ} (h : MagnitudeKey L M key) (h' : MagnitudeKey L M key') :
    key = key' := by
  cases h with
  | plain hlt =>
    cases h' with
    | plain hlt' => rfl
    | chopped n' hle' hpos' hn' hbig' hcap' => omega
  | chopped n hle hpos hn hbig hcap =>
    cases h' with
    | plain hlt' => omega
    | chopped n' hle' hpos' hn' hbig' hcap' =>
      obtain rfl : n = n' := by
        by_contra hne
        rcases Nat.lt_or_gt_of_ne hne with hlt | hlt
        · exact absurd (hbig' n hpos hlt) (by omega)
        · exact absurd (hbig n' hpos' hlt) (by omega)
      rfl

inductive IntegerKey (L : ℕ) : List Char → List ℕ → Prop where
  | digits {ds key} (h : Canonical ds) (hkey : MagnitudeKey L (magnitude L false ds) key) : IntegerKey L ds key
  | minus {ds key} (h : Canonical ds) (h0 : ds.head? ≠ some '0') (hkey : MagnitudeKey L (magnitude L true ds) key) :
      IntegerKey L ('-' :: ds) (key.map (· ^^^ 0xff))

namespace IntegerKey

variable {L : ℕ} {s t : List Char} {key key' : List ℕ}

theorem length (hL : 0 < L) (h : IntegerKey L s key) : key.length = L := by
  cases h with
  | digits h hkey => exact hkey.length hL
  | minus h h0 hkey => rw [length_map, hkey.length hL]

theorem unique (h : IntegerKey L s key) (h' : IntegerKey L s key') : key = key' := by
  cases h with
  | digits h hkey =>
    cases h' with
    | digits h' hkey' => exact hkey.unique hkey'
    | minus h' h0' hkey' => exact absurd rfl h.head?_ne_minus
  | minus h h0 hkey =>
    cases h' with
    | digits h' hkey' => exact absurd rfl h'.head?_ne_minus
    | minus h' h0' hkey' => rw [hkey.unique hkey']

theorem exponent_small {ds : List Char} (h : Canonical ds) (hL : 4 ≤ L) (hL' : L < 256) (isNeg : Bool)
    (hlen : 3 * ds.length ≤ 7 * 2 ^ 48) : size (magnitude L isNeg ds) < L + 2 ^ 48 := by
  have hsize := size_magnitude_le h hL hL' isNeg
  have h12 := (strlen_facts L hL' hL).1
  have hcount : chopCount L ds ≤ (ds.length - 9) / 7 := by
    unfold chopCount
    omega
  omega

theorem mono (hL : 4 ≤ L) (hL' : L < 256) (h : IntegerKey L s key) (h' : IntegerKey L t key')
    (hs : 3 * s.length ≤ 7 * 2 ^ 48) (ht : 3 * t.length ≤ 7 * 2 ^ 48) (hle : integerValue s ≤ integerValue t) : key ≤ key' := by
  rw [← cmp_ne_gt]
  cases h with
  | digits h hkey =>
    rw [h.integerValue_eq] at hle
    cases h' with
    | digits h' hkey' =>
      rw [h'.integerValue_eq] at hle
      exact hkey.mono (by omega) hkey' (magnitude_mono h h' hL hL' false (by omega)) (exponent_small h' hL hL' false ht)
    | minus h' h0' hkey' =>
      have := number_pos h'.digits h'.ne_nil h0'
      rw [integerValue] at hle
      omega
  | minus h h0 hkey =>
    rw [length_cons] at hs
    rw [integerValue] at hle
    cases h' with
    | digits h' hkey' =>
      obtain ⟨b, p, rfl, hb, hb'⟩ := hkey.eq_cons (by omega)
      obtain ⟨c, q, rfl, hc, -⟩ := hkey'.eq_cons (by omega)
      rw [map_cons, complement_octet b hb', cmp_cons, cmp_eq_lt_iff _ _ |>.mpr (by omega), Ordering.lt_then]
      simp
    | minus h' h0' hkey' =>
      rw [integerValue] at hle
      rw [cmp_complement hkey.bytes hkey'.bytes ((hkey.length (by omega)).trans (hkey'.length (by omega)).symm)]
      exact hkey'.mono (by omega) hkey (magnitude_mono h' h hL hL' true (by omega)) (exponent_small h hL hL' true (by omega))

end IntegerKey

theorem val2key_integerKey {L : ℕ} {s : List Char} (hL : 4 ≤ L) (hL' : L < 256) (hv : integerValidate s = true)
    (hlen : s.length < 2 ^ 64) :
    ∃ key, IntegerKey L s key ∧ ∀ hex n, Fits L n s → integerVal2Key hex L s n = some key := by
  have hfits : Fits L (max 64 s.length) s := ⟨le_max_left .., (Nat.min_le_left ..).trans (le_max_right ..)⟩
  rcases validate_cases hv with h | ⟨ds, rfl, h, h0⟩
  · obtain ⟨key, hkey, -⟩ := val2key_digits (fun _ _ => none) h hL hL' hfits hlen
    refine ⟨key, .digits h hkey, fun hex n hn => ?_⟩
    obtain ⟨key', hkey', heq⟩ := val2key_digits hex h hL hL' hn hlen
    rw [heq, hkey.unique hkey']
  · have hlen' : ds.length < 2 ^ 64 := Nat.lt_of_succ_lt hlen
    obtain ⟨key, hkey, -⟩ := val2key_minus (fun _ _ => none) h h0 hL hL' hfits hlen'
    refine ⟨_, .minus h h0 hkey, fun hex n hn => ?_⟩
    obtain ⟨key', hkey', heq⟩ := val2key_minus hex h h0 hL hL' hn hlen'
    rw [heq, hkey.unique hkey']

theorem le_foldl_max (l : List ℕ) (m : ℕ) : m ≤ l.foldl max m ∧ ∀ x ∈ l, x ≤ l.foldl max m := by
  induction l generalizing m with
  | nil => simp
  | cons y l ih =>
    obtain ⟨hm, hl⟩ := ih (max m y)
    refine ⟨(le_max_left m y).trans hm, fun x hx => ?_⟩
    rcases List.mem_cons.mp hx with rfl | hx
    · exact (le_max_right m x).trans hm
    · exact hl x hx

theorem mapM_eq_map {α β : Type*} {f : α → Option β} {g : α → β} {l : List α} (h : ∀ x ∈ l, f x = some (g x)) :
    l.mapM f = some (l.map g) := by
  induction l with
  | nil => rfl
  | cons x l ih =>
    obtain ⟨hx, hl⟩ := List.forall_mem_cons.mp h
    simp [mapM_cons, hx, ih hl]

section

variable (hex : List Char → ℕ → Option (List ℕ))

theorem integerFilter_eq {L : ℕ} {s : List Char} {key : List ℕ}
    (hkey : ∀ hex n, Fits L n s → integerVal2Key hex L s n = some key) : integerFilter hex L s = some key := by
  refine hkey hex _ ⟨?_, ?_⟩
  · split_ifs <;> omega
  · unfold INDEX_INTLEN_CHOP
    split_ifs <;> omega

theorem integerIndexer_eq {L : ℕ} {values : List (List Char)} {key : List Char → List ℕ} (hne : values ≠ [])
    (hkey : ∀ s ∈ values, ∀ hex n, Fits L n s → integerVal2Key hex L s n = some (key s)) :
    integerIndexer hex L values = some (values.map key) := by
  rw [integerIndexer]
  simp only [if_neg hne]
  refine mapM_eq_map fun s hs => hkey s hs hex _ ?_
  have hmax := (le_foldl_max (values.map List.length) 0).2 s.length (List.mem_map_of_mem hs)
  unfold INDEX_INTLEN_CHOP
  constructor
  · split_ifs <;> omega
  · split_ifs <;> omega

theorem cfgIxIntlen_bounds (value_int : ℤ) : 4 ≤ cfgIxIntlen value_int ∧ cfgIxIntlen value_int < 256 := by
  unfold cfgIxIntlen SLAP_INDEX_INTLEN_DEFAULT
  split_ifs <;> omega

/-- For every length that can be configured: the keys of one function have that length and keep the order of the integers,
as long as the exponents stay below 2^48; and `integerMatch` gives that order. -/
theorem integer_keys_ordered (value_int : ℤ) :
    ∃ key : List Char → List ℕ,
      (∀ s, integerValidate s = true → s.length < 2 ^ 64 → (key s).length = cfgIxIntlen value_int ∧
        (∀ n, Fits (cfgIxIntlen value_int) n s → integerVal2Key hex (cfgIxIntlen value_int) s n = some (key s)) ∧
        integerFilter hex (cfgIxIntlen value_int) s = some (key s)) ∧
      (∀ values, values ≠ [] → (∀ s ∈ values, integerValidate s = true ∧ s.length < 2 ^ 64) →
        integerIndexer hex (cfgIxIntlen value_int) values = some (values.map key)) ∧
      (∀ a b, integerValidate a = true → integerValidate b = true → 3 * a.length ≤ 7 * 2 ^ 48 → 3 * b.length ≤ 7 * 2 ^ 48 →
        integerValue a ≤ integerValue b → key a ≤ key b) ∧
      ∀ a b, integerValidate a = true → integerValidate b = true →
        (∀ ext ordering, (ext && ordering) = false → cmp (integerMatch ext ordering a b) 0 = cmp (integerValue a) (integerValue b)) ∧
        integerMatch true true a b = if integerValue b ≤ integerValue a then 1 else 0 := by
  obtain ⟨hL, hL'⟩ := cfgIxIntlen_bounds value_int
  generalize cfgIxIntlen value_int = L at hL hL' ⊢
  have hex_key (s : List Char) : ∃ key, integerValidate s = true → s.length < 2 ^ 64 →
      IntegerKey L s key ∧ ∀ hex n, Fits L n s → integerVal2Key hex L s n = some key := by
    by_cases h : integerValidate s = true ∧ s.length < 2 ^ 64
    · obtain ⟨key, hkey⟩ := val2key_integerKey hL hL' h.1 h.2
      exact ⟨key, fun _ _ => hkey⟩
    · exact ⟨[], fun hv hlen => absurd ⟨hv, hlen⟩ h⟩
  choose key hkey using hex_key
  refine ⟨key, fun s hv hlen => ?_, fun values hne hall => ?_, fun a b ha hb hla hlb hle => ?_, fun a b ha hb => ?_⟩
  · obtain ⟨hk, heq⟩ := hkey s hv hlen
    exact ⟨hk.length (by omega), heq hex, integerFilter_eq hex heq⟩
  · exact integerIndexer_eq hex hne fun s hs => (hkey s (hall s hs).1 (hall s hs).2).2
  · exact IntegerKey.mono hL hL' (hkey a ha (by omega)).1 (hkey b hb (by omega)).1 hla hlb hle
  · exact ⟨fun ext ordering hext => integerMatch_sign ha hb hext, integerMatch_ext ha hb⟩

theorem integer_keys_ordered_minus : ∃ key : List Char → List ℕ,
    integerIndexer (fun _ _ => none) (cfgIxIntlen 4) [['1', '0'], ['-', '3']] = some [key ['1', '0'], key ['-', '3']] ∧
      (key ['-', '3']).length = 4 ∧ key ['-', '3'] ≤ key ['1', '0'] ∧
      cmp (integerMatch false true ['-', '3'] ['1', '0']) 0 = cmp (-3 : ℤ) 10 := by
  obtain ⟨key, hkey, hindexer, hle, hmatch⟩ := integer_keys_ordered (fun _ _ => none) 4
  refine ⟨key, hindexer _ (by simp) (by decide), (hkey _ (by decide) (by decide)).1, ?_, ?_⟩
  · exact hle _ _ (by decide) (by decide) (by decide) (by decide) (by decide)
  · exact (hmatch _ _ (by decide) (by decide)).1 false true rfl

/-- A one and `8 + 7 * c` zeros. -/
def largeText (c : ℕ) : List Char := '1' :: List.replicate (8 + 7 * c) '0'

theorem canonical_largeText (c : ℕ) : Canonical (largeText c) := by
  refine ⟨?_, by simp [largeText], Or.inr (by simp [largeText])⟩
  simp [largeText, Digits]

theorem validate_largeText (c : ℕ) : integerValidate (largeText c) = true := by
  simp [largeText, integerValidate]

theorem length_largeText (c : ℕ) : (largeText c).length = 9 + 7 * c := by
  rw [largeText, length_cons, length_replicate]
  omega

theorem largeText_lt {c c' : ℕ} (h : c < c') : integerValue (largeText c) < integerValue (largeText c') := by
  have hlt := (canonical_largeText c).lt_of_length_lt (canonical_largeText c')
    (by rw [length_largeText, length_largeText]; omega)
  rw [(canonical_largeText c).integerValue_eq, (canonical_largeText c').integerValue_eq]
  omega

theorem magnitude_largeText (c : ℕ) : magnitude 4 false (largeText c) = 100000000 * 256 ^ (c * 3) := by
  have hcount : chopCount 4 (largeText c) = c := by
    rw [chopCount, length_largeText, show indexIntlenStrlen 4 = 12 from rfl]
    omega
  have hdigits : chopDigits 4 (largeText c) = '1' :: List.replicate 8 '0' := by
    rw [chopDigits, hcount, length_largeText, show 9 + 7 * c - c * 7 = 8 + 1 by omega, largeText, take_succ_cons,
      take_replicate, show min 8 (8 + 7 * c) = 8 by omega]
  rw [magnitude, chopMagnitude, hcount, hdigits]
  rfl

theorem integerFilter_largeText {c n : ℕ} (h4 : 4 ≤ n) (hn : n < 10) (hlen : 9 + 7 * c < 2 ^ 64)
    (hbig : ∀ m, 0 < m → m < n → capacity m ≤ c * 3) (hcap : c * 3 < capacity n) :
    integerFilter hex 4 (largeText c) = some ((beBytes n (c * 3 + marker n * 256 ^ (n - 1))).take 4) := by
  have hsize : size (100000000 * 256 ^ (c * 3)) - 4 = c * 3 := by
    rw [size_mul_pow (by omega), size_eq_of_le_of_lt (n := 3) (by omega) (by omega)]
    omega
  obtain ⟨key, hkey, heq⟩ := val2key_integerKey (le_refl 4) (by omega) (validate_largeText c)
    (by rw [length_largeText]; exact hlen)
  have hlow : 64 * 256 ^ (4 - 1) ≤ 100000000 * 256 ^ (c * 3) := by
    have hone : 32 ≤ c * 3 := hbig 1 (by omega) (by omega)
    have : 256 ^ 1 ≤ 256 ^ (c * 3) := Nat.pow_le_pow_right (by omega) (by omega)
    omega
  have hmag := MagnitudeKey.chopped n hlow (by omega) hn (by rwa [hsize]) (by rwa [hsize])
  rw [hsize, take_append_of_le_length (by simpa using h4)] at hmag
  rw [integerFilter_eq hex heq, hkey.unique (.digits (canonical_largeText c) (by rwa [magnitude_largeText]))]

end

/-- An exponent of 2^47 + 1 in seven bytes is followed by one of 2^48 + 2 in eight; and in an extensible match of the ordering
rule 1 and 2 give zero. -/
theorem integer_keys_not_ordered :
    integerValidate (largeText 46912496118443) = true ∧ integerValidate (largeText 93824992236886) = true ∧
      integerValue (largeText 46912496118443) < integerValue (largeText 93824992236886) ∧
      integerFilter (fun _ _ => none) (cfgIxIntlen 4) (largeText 46912496118443) = some [255, 128, 0, 0] ∧
      integerFilter (fun _ _ => none) (cfgIxIntlen 4) (largeText 93824992236886) = some [255, 1, 0, 0] ∧
      ¬ [255, 128, 0, 0] ≤ [255, 1, 0, 0] ∧
      integerMatch true true ['1'] ['2'] = 0 ∧ integerValue ['1'] < integerValue ['2'] := by
  have hcapacity : ∀ m < 8, 0 < m → capacity m ≤ 93824992236886 * 3 := by decide
  have hcapacity' : ∀ m < 7, 0 < m → capacity m ≤ 46912496118443 * 3 := by decide
  refine ⟨validate_largeText _, validate_largeText _, largeText_lt (by omega), ?_, ?_, by decide, by decide, by decide⟩
  · exact integerFilter_largeText _ (n := 7) (by omega) (by omega) (by omega) (fun m h0 hm => hcapacity' m hm h0) (by decide)
  · exact integerFilter_largeText _ (n := 8) (by omega) (by omega) (by omega) (fun m h0 hm => hcapacity m hm h0) (by decide)

end Slapd
end ReOpenLDAP
