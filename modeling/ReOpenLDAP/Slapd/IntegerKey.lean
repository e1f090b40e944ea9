import ReOpenLDAP.Lutil.Str2bin
import ReOpenLDAP.Slapd.IntegerSyntax

/-!
# Slapd.IntegerKey

Ordered index keys of Integer: `index_intlen` bytes, for large values the approximate length instead of the low digits.
-/

namespace ReOpenLDAP
namespace Slapd

open Bytes Decimal Lutil List

def SLAP_INDEX_INTLEN_DEFAULT : ℕ := 4

def indexIntlenStrlen (intlen : ℕ) : ℕ := (8 * intlen - 1) * 146 / 485 + 3

/-- `index_intlen` for the number in the configuration. -/
def cfgIxIntlen (value_int : ℤ) : ℕ :=
  if value_int < SLAP_INDEX_INTLEN_DEFAULT then SLAP_INDEX_INTLEN_DEFAULT
  else if value_int > 255 then 255
  else value_int.toNat

def INDEX_INTLEN_CHOP : ℕ := 7

def INDEX_INTLEN_CHOPBYTES : ℕ := 3

/-- `~0x7fU` -/
def SIGNMASK : ℕ := 0xffffff80

/-- The bytes of `chop` into `lenbuf`, whose first `room` bytes are free, with one bit of the mask for each. -/
def exponentLoop (neg : ℕ) : ℕ → ℕ → ℕ → List ℕ → Option (List ℕ × ℕ)
  | 0, _, _, _ => none
  | room + 1, chop, signmask, lenp =>
    let b := chop % 256 ^^^ neg
    let signmask := signmask >>> 1
    let chop := chop / 256
    if chop ≠ 0 ∨ (signmask >>> 1) &&& (b ^^^ neg) ≠ 0 then exponentLoop neg room chop signmask (b :: lenp)
    else some (b :: lenp, signmask)

/-- `integerVal2Key` from where it omits a leading sign byte. No result is a failed assertion or an access outside a buffer. -/
def writeKey (intlen neg chop : ℕ) (itmp : List ℕ) : Option (List ℕ) :=
  let itmp := if itmp.head? = some neg then itmp.tail else itmp
  if itmp.length + chop < intlen then
    if chop = 0 then
      some ((List.replicate (intlen - itmp.length) neg ++ itmp).modifyHead (· ^^^ (SIGNMASK &&& 0xff)))
    else none
  else if itmp.length + chop ≠ intlen ∨ (itmp.headD 0 ^^^ neg) &&& 0xc0 ≠ 0 then
    (exponentLoop neg 10 (itmp.length + chop - intlen) SIGNMASK []).bind fun (lenp, signmask) =>
      let k := min lenp.length intlen
      if intlen - k ≤ itmp.length then
        some ((lenp.take k ++ itmp.take (intlen - k)).modifyHead (· ^^^ (signmask &&& 0xff)))
      else none
  else some (itmp.modifyHead (· ^^^ (SIGNMASK &&& 0xff)))

section

variable (hex : List Char → ℕ → Option (List ℕ))

/-- `bufsiz` is the size of `tmp`. No result is an error as well. -/
def integerVal2Key (intlen : ℕ) (s : List Char) (bufsiz : ℕ) : Option (List ℕ) :=
  let isNeg : Bool := s.head? == some '-'
  let neg := if isNeg then 0xff else 0
  let k := indexIntlenStrlen intlen - if isNeg then 0 else 1
  let chop := if s.length > k then (s.length - k + 2) / INDEX_INTLEN_CHOP else 0
  let val := s.take (s.length - chop * INDEX_INTLEN_CHOP)
  (lutilStr2bin hex val bufsiz).bind (writeKey intlen neg (chop * INDEX_INTLEN_CHOPBYTES))

def integerIndexer (intlen : ℕ) (values : List (List Char)) : Option (List (List ℕ)) :=
  let maxstrlen := indexIntlenStrlen intlen + INDEX_INTLEN_CHOP - 1
  let vlen := min ((values.map List.length).foldl max 0) maxstrlen
  if values = [] then none
  else values.mapM fun v =>
    integerVal2Key hex intlen v
      (if vlen > 64 then if v.length ≤ 64 then 64 else if v.length > maxstrlen then maxstrlen else v.length else 64)

def integerFilter (intlen : ℕ) (value : List Char) : Option (List ℕ) :=
  let maxstrlen := indexIntlenStrlen intlen + INDEX_INTLEN_CHOP - 1
  let len := if value.length < maxstrlen then value.length else maxstrlen
  integerVal2Key hex intlen value (if len > 64 then len else 64)

end

/-- The numbers below are held by `n` bytes whose first `n + 2` bits are zero. -/
def capacity (n : ℕ) : ℕ := 2 ^ (6 - n) * 256 ^ (n - 1)

def marker (n : ℕ) : ℕ := 256 - 2 ^ (7 - n)

theorem signmask_spec : (∀ n < 10, 0 < n → ∀ b < 256, SIGNMASK >>> (n + 1) &&& b = 0 ↔ b < 2 ^ (6 - n)) ∧
    (∀ n < 10, ∀ b < 2 ^ (6 - n), b ^^^ (SIGNMASK >>> n &&& 0xff) = b + marker n) ∧ ∀ t < 256, t &&& 0xc0 = 0 ↔ t < 64 := by
  decide +kernel

theorem xor_xor_self (a b : ℕ) : a ^^^ b ^^^ b = a := by rw [Nat.xor_assoc, Nat.xor_self, Nat.xor_zero]

theorem exponentLoop_goes_on {e j : ℕ} (hj : j < 9) :
    (e / 256 ^ (j + 1) ≠ 0 ∨ (SIGNMASK >>> (j + 1)) >>> 1 &&& e / 256 ^ j % 256 ≠ 0) ↔ capacity (j + 1) ≤ e := by
  have hpos : 0 < 256 ^ j := Nat.pow_pos (by omega)
  have hmask := signmask_spec.1 (j + 1) (by omega) (Nat.succ_pos j)
  have hsmall : 2 ^ (6 - (j + 1)) ≤ 2 ^ 5 := Nat.pow_le_pow_right (by omega) (by omega)
  rw [← Nat.shiftRight_add, capacity, Nat.add_sub_cancel, ← Nat.le_div_iff_mul_le hpos, pow_succ, ← Nat.div_div_eq_div_mul]
  generalize e / 256 ^ j = q
  by_cases hbig : q / 256 = 0
  · have hq : q < 256 := by omega
    simp [hbig, Nat.mod_eq_of_lt hq, hmask q hq]
  · simp only [Ne, hbig, not_false_iff, true_or, true_iff]
    omega

theorem exponentLoop_eq (neg : ℕ) {e : ℕ} (he : e < 2 ^ 64) (room j : ℕ) (hroom : j + room = 10) (hj : j < 9)
    (hbig : ∀ m, 0 < m → m ≤ j → capacity m ≤ e) :
    ∃ n, 0 < n ∧ n < 10 ∧ (∀ m, 0 < m → m < n → capacity m ≤ e) ∧ e < capacity n ∧
      exponentLoop neg room (e / 256 ^ j) (SIGNMASK >>> j) ((beBytes j e).map (· ^^^ neg)) =
        some ((beBytes n e).map (· ^^^ neg), SIGNMASK >>> n) := by
  induction room generalizing j with
  | zero => omega
  | succ room ih =>
    have hbytes : (e / 256 ^ j % 256 ^^^ neg) :: (beBytes j e).map (· ^^^ neg) = (beBytes (j + 1) e).map (· ^^^ neg) := rfl
    have hdiv : e / 256 ^ j / 256 = e / 256 ^ (j + 1) := by rw [Nat.div_div_eq_div_mul, pow_succ]
    have hmask : (SIGNMASK >>> j) >>> 1 = SIGNMASK >>> (j + 1) := (Nat.shiftRight_add _ _ _).symm
    simp only [exponentLoop, xor_xor_self, hmask, hbytes, hdiv, exponentLoop_goes_on hj]
    split_ifs with hc
    · have hj' : j + 1 < 9 := by
        by_contra hge
        obtain rfl : j = 8 := by omega
        exact absurd (Nat.lt_of_lt_of_le he hc) (lt_irrefl _)
      refine ih (j + 1) (by omega) hj' fun m h0 hm => ?_
      rcases Nat.of_le_succ hm with hm | rfl
      · exact hbig m h0 hm
      · exact hc
    · exact ⟨j + 1, Nat.succ_pos j, by omega, fun m h0 hm => hbig m h0 (Nat.le_of_lt_succ hm), Nat.lt_of_not_le hc, rfl⟩

/-! ## The key of a magnitude -/

inductive MagnitudeKey (L M : ℕ) : List ℕ → Prop where
  | plain (hlt : M < 64 * 256 ^ (L - 1)) : MagnitudeKey L M (beBytes L (M + 128 * 256 ^ (L - 1)))
  | chopped (n : ℕ) (hle : 64 * 256 ^ (L - 1) ≤ M) (hpos : 0 < n) (hn : n < 10)
      (hbig : ∀ m, 0 < m → m < n → capacity m ≤ size M - L) (hcap : size M - L < capacity n) :
      MagnitudeKey L M ((beBytes n (size M - L + marker n * 256 ^ (n - 1)) ++ beBytes (size M) M).take L)

theorem beBytes_mark {k v m : ℕ} (h : v / 256 ^ k + m < 256) :
    beBytes (k + 1) (v + m * 256 ^ k) = (v / 256 ^ k + m) :: beBytes k v := by
  rw [beBytes, Nat.add_mul_div_right _ _ (Nat.pow_pos (by omega)), Nat.mod_eq_of_lt h, ← beBytes_mod, Nat.add_mul_mod_self_right,
    beBytes_mod]

theorem modifyHead_beBytes (neg : ℕ) {mask k v m : ℕ} (hmask : v / 256 ^ k ^^^ mask = v / 256 ^ k + m) (h : v / 256 ^ k + m < 256) :
    ((beBytes (k + 1) v).map (· ^^^ neg)).modifyHead (· ^^^ mask) = (beBytes (k + 1) (v + m * 256 ^ k)).map (· ^^^ neg) := by
  rw [beBytes_mark h, beBytes, Nat.mod_eq_of_lt (Nat.lt_of_le_of_lt (Nat.le_add_right _ m) h), map_cons, map_cons,
    modifyHead_cons, ← hmask, Nat.xor_assoc, Nat.xor_comm neg, ← Nat.xor_assoc]

theorem modifyHead_take_append {n L : ℕ} (hn : 0 < n) (hL : 0 < L) {p : List ℕ} (hp : p.length = n) (t : List ℕ) (f : ℕ → ℕ) :
    (p.take (min n L) ++ t).modifyHead f = (p.modifyHead f).take (min n L) ++ t := by
  obtain ⟨b, p, rfl⟩ := exists_cons_of_length_pos (hp ▸ hn)
  obtain ⟨k, hk⟩ := Nat.exists_eq_add_of_lt (lt_min hn hL)
  rw [hk, zero_add]
  rfl

theorem omitSign {neg : ℕ} {bytes body : List ℕ} (h : SignedBytes neg bytes body) :
    (if bytes.head? = some neg then bytes.tail else bytes) = body := by
  rcases h with rfl | ⟨rfl, h⟩
  · simp
  · rw [if_neg h]

theorem extendSign {L neg u : ℕ} (hu : size u < L) :
    List.replicate (L - size u) neg ++ (beBytes (size u) u).map (· ^^^ neg) = (beBytes L u).map (· ^^^ neg) := by
  have hzero : u / 256 ^ size u = 0 := Nat.div_eq_of_lt (size_le_iff.mp (le_refl _))
  conv_rhs => rw [← Nat.sub_add_cancel hu.le, beBytes_add, hzero]
  rw [← reverse_leBytes (L - size u), leBytes_zero, reverse_replicate, map_append, map_replicate, Nat.zero_xor]

theorem xor_sign : ∀ t < 64, t ^^^ (SIGNMASK &&& 0xff) = t + 128 := by decide

theorem add_marker_lt : ∀ n < 10, 0 < n → ∀ b < 2 ^ (6 - n), b + marker n < 256 := by decide

theorem signbits_iff (neg : ℕ) {L u c : ℕ} (hL : 0 < L) (hchop : 0 < c → 256 ^ (L - 1) ≤ u) (hlen : L ≤ size u + c) :
    (size u + c ≠ L ∨ (((beBytes (size u) u).map (· ^^^ neg)).headD 0 ^^^ neg) &&& 0xc0 ≠ 0) ↔ 64 * 256 ^ (L - 1) ≤ u * 256 ^ c := by
  have hsize : L ≤ size u := by
    rcases Nat.eq_zero_or_pos c with hc | hc
    · omega
    · have := lt_size_iff.mpr (hchop hc)
      omega
  obtain ⟨k, hk⟩ := Nat.exists_eq_add_of_lt (Nat.lt_of_lt_of_le hL hsize)
  rw [zero_add] at hk
  by_cases heq : size u + c = L
  · obtain rfl : c = 0 := by omega
    obtain rfl : L = k + 1 := by omega
    have hu : u < 256 ^ k * 256 := pow_succ 256 k ▸ size_le_iff.mp hk.le
    have htop : u / 256 ^ k < 256 := Nat.div_lt_of_lt_mul hu
    rw [hk, beBytes, map_cons, headD_cons, xor_xor_self, Nat.mod_eq_of_lt htop, Nat.add_sub_cancel, pow_zero, mul_one,
      ← Nat.le_div_iff_mul_le (Nat.pow_pos (by omega))]
    simp [signmask_spec.2.2 _ htop]
  · have hbig : 256 ^ L ≤ u * 256 ^ c := by
      have hpos : 0 < u := Nat.pos_of_ne_zero fun h => by simp [h] at hk
      rw [← lt_size_iff, size_mul_pow hpos]
      omega
    have hpow : 256 ^ L = 256 * 256 ^ (L - 1) := by rw [← pow_succ', Nat.sub_add_cancel hL]
    simp only [Ne, heq, not_false_iff, true_or, true_iff]
    omega

theorem markExponent {L n neg e c u : ℕ} (hL : 0 < L) (hn0 : 0 < n) (hn : n < 10) (hcap : e < capacity n)
    (hpos : 0 < u) (htop : L - n ≤ size u) :
    (((beBytes n e).map (· ^^^ neg)).take (min n L) ++
        ((beBytes (size u) u).map (· ^^^ neg)).take (L - min n L)).modifyHead (· ^^^ (SIGNMASK >>> n &&& 0xff)) =
      ((beBytes n (e + marker n * 256 ^ (n - 1)) ++ beBytes (size (u * 256 ^ c)) (u * 256 ^ c)).take L).map (· ^^^ neg) := by
  have hfirst : e / 256 ^ (n - 1) < 2 ^ (6 - n) := Nat.div_lt_of_lt_mul (Nat.mul_comm _ _ ▸ hcap)
  have hmark := modifyHead_beBytes neg (signmask_spec.2.1 n hn _ hfirst) (add_marker_lt n hn hn0 _ hfirst)
  rw [Nat.sub_add_cancel hn0] at hmark
  have hcut : beBytes (size u + c) (u * 256 ^ c) = beBytes (size u) u ++ beBytes c (u * 256 ^ c) := by
    rw [beBytes_add, Nat.mul_div_cancel _ (Nat.pow_pos (by omega))]
  have htake (p : List ℕ) (hp : p.length = n) : p.take (min n L) = p.take L := by
    rw [take_eq_take_iff, hp]
    omega
  rw [modifyHead_take_append hn0 hL (by simp), hmark, htake _ (by simp), size_mul_pow hpos, hcut, take_append, length_beBytes,
    take_append_of_le_length (by simpa using htop), map_append, map_take, map_take,
    show L - min n L = L - n by omega]

theorem writeKey_magnitude {L neg c u : ℕ} {bytes : List ℕ} (hL : 0 < L)
    (hbytes : SignedBytes neg bytes ((beBytes (size u) u).map (· ^^^ neg))) (hchop : 0 < c → 256 ^ (L - 1) ≤ u)
    (he : size u + c < L + 2 ^ 64) :
    ∃ key, MagnitudeKey L (u * 256 ^ c) key ∧ writeKey L neg c bytes = some (key.map (· ^^^ neg)) := by
  have hlen : ((beBytes (size u) u).map (· ^^^ neg)).length = size u := by simp
  have hsize : 0 < c → L ≤ size u := fun hc => by
    have := lt_size_iff.mpr (hchop hc)
    omega
  have hL1 : L = L - 1 + 1 := (Nat.sub_add_cancel hL).symm
  have hpos : 0 < 256 ^ (L - 1) := Nat.pow_pos (by omega)
  simp only [writeKey, omitSign hbytes, hlen]
  by_cases hshort : size u + c < L
  · obtain rfl : c = 0 := by omega
    have hu : u < 256 ^ (L - 1) := size_le_iff.mp (by omega)
    have hzero : u / 256 ^ (L - 1) = 0 := Nat.div_eq_of_lt hu
    refine ⟨_, .plain (by omega), ?_⟩
    rw [if_pos hshort, if_pos rfl, extendSign (by omega), pow_zero, mul_one, hL1,
      modifyHead_beBytes (m := 128) neg (by rw [hzero]; rfl) (by rw [hzero]; omega)]
    rfl
  · rw [if_neg hshort]
    have hiff := signbits_iff neg hL hchop (by omega)
    split_ifs with hc
    · have hpos' : 0 < u * 256 ^ c := by omega
      have hM : size (u * 256 ^ c) = size u + c := size_mul_pow (Nat.pos_of_mul_pos_right hpos') c
      obtain ⟨n, hn0, hn, hbig, hcap, hloop⟩ := exponentLoop_eq neg (show size u + c - L < 2 ^ 64 by omega) 10 0 rfl (by omega)
        fun m h0 hm => by omega
      refine ⟨_, .chopped n (hiff.mp hc) hn0 hn (hM ▸ hbig) (hM ▸ hcap), ?_⟩
      have hloop' : exponentLoop neg 10 (size u + c - L) SIGNMASK [] =
          some ((beBytes n (size u + c - L)).map (· ^^^ neg), SIGNMASK >>> n) := by
        simpa [beBytes] using hloop
      have htop : L - min n L ≤ size u := by omega
      rw [hloop', Option.bind_some]
      simp only [length_map, length_beBytes]
      rw [if_pos htop, markExponent (c := c) hL hn0 hn hcap (Nat.pos_of_mul_pos_right hpos') (by omega), hM]
    · have hM := Nat.lt_of_not_le (hiff.not.mp hc)
      have hsizeL : size u = L := by
        have := not_or.mp hc
        omega
      obtain rfl : c = 0 := by omega
      rw [pow_zero, mul_one] at hM ⊢
      have htop : u / 256 ^ (L - 1) < 64 := Nat.div_lt_of_lt_mul (Nat.mul_comm _ _ ▸ hM)
      refine ⟨_, .plain hM, ?_⟩
      rw [hsizeL, hL1, modifyHead_beBytes (m := 128) neg (xor_sign _ htop) (by omega)]
      rfl

def chopCount (L : ℕ) (ds : List Char) : ℕ := (ds.length + 3 - indexIntlenStrlen L) / 7

def chopDigits (L : ℕ) (ds : List Char) : List Char := ds.take (ds.length - chopCount L ds * 7)

def chopMagnitude (L : ℕ) (isNeg : Bool) (ds : List Char) : ℕ := number (chopDigits L ds) - isNeg.toNat

def magnitude (L : ℕ) (isNeg : Bool) (ds : List Char) : ℕ := chopMagnitude L isNeg ds * 256 ^ (chopCount L ds * 3)

theorem strlen_facts : ∀ L < 256, 4 ≤ L → 12 ≤ indexIntlenStrlen L ∧ 256 ^ (L - 1) + 1 ≤ 10 ^ (indexIntlenStrlen L - 4) ∧
    10 ^ (indexIntlenStrlen L + 3) ≤ 256 ^ (L + 3) := by decide +kernel

theorem pow_ten_le {n : ℕ} (hn : 2 ≤ n) : 10 ^ n ≤ 256 ^ (n - 1) := by
  obtain ⟨k, rfl⟩ := Nat.exists_eq_add_of_le' hn
  calc 10 ^ (k + 2) = 10 ^ k * 100 := pow_add ..
    _ ≤ 256 ^ k * 256 := Nat.mul_le_mul (Nat.pow_le_pow_left (by omega) k) (by omega)

section

variable {L : ℕ} {ds : List Char}

theorem length_chopDigits (L : ℕ) (ds : List Char) : (chopDigits L ds).length = ds.length - chopCount L ds * 7 := by
  rw [chopDigits, length_take]
  omega

theorem length_chopDigits_bounds (ds : List Char) (hL : 12 ≤ indexIntlenStrlen L) :
    (chopDigits L ds).length ≤ indexIntlenStrlen L + 3 ∧
    (0 < chopCount L ds → indexIntlenStrlen L - 3 ≤ (chopDigits L ds).length) := by
  rw [length_chopDigits]
  unfold chopCount
  omega

theorem Canonical.chop (h : Canonical ds) (hL : 12 ≤ indexIntlenStrlen L) : Canonical (chopDigits L ds) := by
  have hlen := length_chopDigits L ds
  have hpos := List.length_pos_iff.mpr h.ne_nil
  have hlen0 : 0 < (chopDigits L ds).length := by
    rw [hlen]
    unfold chopCount
    omega
  refine ⟨fun c hc => h.digits c (mem_of_mem_take hc), ne_nil_of_length_pos hlen0, ?_⟩
  rcases h.no_zero with rfl | h0
  · left
    rw [chopDigits, take_of_length_le]
    simp [chopCount]
    omega
  · right
    rwa [chopDigits, List.head?_take, if_neg (by rw [← hlen]; omega)]

theorem chopMagnitude_lt (h : Canonical ds) (hL : 4 ≤ L) (hL' : L < 256) (isNeg : Bool) :
    chopMagnitude L isNeg ds < 256 ^ (L + 3) := by
  obtain ⟨h12, -, hpow⟩ := strlen_facts L hL' hL
  calc chopMagnitude L isNeg ds ≤ number (chopDigits L ds) := Nat.sub_le ..
    _ < 10 ^ (chopDigits L ds).length := number_lt (h.chop h12).digits
    _ ≤ 10 ^ (indexIntlenStrlen L + 3) := Nat.pow_le_pow_right (by omega) (length_chopDigits_bounds ds h12).1
    _ ≤ 256 ^ (L + 3) := hpow

theorem le_chopMagnitude (h : Canonical ds) (hL : 4 ≤ L) (hL' : L < 256) (isNeg : Bool) (hc : 0 < chopCount L ds) :
    256 ^ (L - 1) ≤ chopMagnitude L isNeg ds := by
  obtain ⟨h12, hpow, -⟩ := strlen_facts L hL' hL
  have hcan := h.chop h12
  have hlen := (length_chopDigits_bounds ds h12).2 hc
  have hne : chopDigits L ds ≠ ['0'] := fun heq => by
    rw [heq, length_singleton] at hlen
    omega
  have hle : 10 ^ (indexIntlenStrlen L - 4) ≤ number (chopDigits L ds) :=
    (Nat.pow_le_pow_right (by omega) (by omega)).trans (hcan.pow_le.resolve_left hne)
  have hneg := Bool.toNat_le isNeg
  unfold chopMagnitude
  omega

end

section

variable (hex : List Char → ℕ → Option (List ℕ))

/-- The buffer for the number holds its digits, as far as they are not chopped. -/
def Fits (L n : ℕ) (s : List Char) : Prop := 64 ≤ n ∧ min s.length (indexIntlenStrlen L + 6) ≤ n

theorem Fits.length_le {L n : ℕ} {s ds : List Char} (hn : Fits L n s) (hL : 12 ≤ indexIntlenStrlen L)
    (hs : ds.length ≤ s.length) : (chopDigits L ds).length ≤ n := by
  have := (length_chopDigits_bounds ds hL).1
  have := hn.2
  have := length_chopDigits L ds
  omega

theorem Fits.number_lt {L n : ℕ} {s ds : List Char} (hn : Fits L n s) (h : Canonical (chopDigits L ds))
    (hlen : (chopDigits L ds).length ≤ n) : number (chopDigits L ds) < 256 ^ (n - 1) :=
  calc number (chopDigits L ds) < 10 ^ (chopDigits L ds).length := Decimal.number_lt h.digits
    _ ≤ 10 ^ n := Nat.pow_le_pow_right (by omega) hlen
    _ ≤ 256 ^ (n - 1) := pow_ten_le (by have := hn.1; omega)

theorem writeKey_chop (neg : ℕ) {L : ℕ} {ds : List Char} {bytes : List ℕ} (isNeg : Bool) (h : Canonical ds) (hL : 4 ≤ L) (hL' : L < 256)
    (hlen : ds.length < 2 ^ 64)
    (hbytes : SignedBytes neg bytes ((beBytes (size (chopMagnitude L isNeg ds)) (chopMagnitude L isNeg ds)).map (· ^^^ neg))) :
    ∃ key, MagnitudeKey L (magnitude L isNeg ds) key ∧ writeKey L neg (chopCount L ds * 3) bytes = some (key.map (· ^^^ neg)) := by
  have hsize := size_le_iff.mpr (chopMagnitude_lt h hL hL' isNeg)
  have hchop : chopCount L ds * 3 ≤ 3 * ds.length / 7 := by
    have := (strlen_facts L hL' hL).1
    unfold chopCount
    omega
  exact writeKey_magnitude (by omega) hbytes (fun hc => le_chopMagnitude h hL hL' isNeg (by omega)) (by omega)

theorem val2key_digits {L n : ℕ} {ds : List Char} (h : Canonical ds) (hL : 4 ≤ L) (hL' : L < 256) (hn : Fits L n ds)
    (hlen : ds.length < 2 ^ 64) :
    ∃ key, MagnitudeKey L (magnitude L false ds) key ∧ integerVal2Key hex L ds n = some key := by
  obtain ⟨h12, -⟩ := strlen_facts L hL' hL
  have hcan := h.chop h12
  have hle := hn.length_le h12 (le_refl ds.length)
  have hcount : (if ds.length > indexIntlenStrlen L - 1 then (ds.length - (indexIntlenStrlen L - 1) + 2) / 7 else 0) =
      chopCount L ds := by
    unfold chopCount
    split_ifs <;> omega
  obtain ⟨bytes, hstr, hbytes⟩ :=
    lutilStr2bin_digits hex hcan.digits hcan.ne_nil hcan.no_zero (hn.number_lt hcan hle) hle (by have := hn.1; omega)
  obtain ⟨key, hkey, hwrite⟩ := writeKey_chop 0 false h hL hL' hlen (by simpa [chopMagnitude] using hbytes)
  refine ⟨key, hkey, ?_⟩
  simp only [Nat.xor_zero, List.map_id'] at hwrite
  have hminus : (ds.head? == some '-') = false := beq_eq_false_iff_ne.mpr h.head?_ne_minus
  simp only [integerVal2Key, hminus, Bool.false_eq_true, if_false, INDEX_INTLEN_CHOP, INDEX_INTLEN_CHOPBYTES, hcount]
  rw [← chopDigits, hstr, Option.bind_some, hwrite]

theorem val2key_minus {L n : ℕ} {ds : List Char} (h : Canonical ds) (h0 : ds.head? ≠ some '0') (hL : 4 ≤ L) (hL' : L < 256)
    (hn : Fits L n ('-' :: ds)) (hlen : ds.length < 2 ^ 64) :
    ∃ key, MagnitudeKey L (magnitude L true ds) key ∧ integerVal2Key hex L ('-' :: ds) n = some (key.map (· ^^^ 0xff)) := by
  obtain ⟨h12, -⟩ := strlen_facts L hL' hL
  have hcan := h.chop h12
  have hlt : (chopDigits L ds).length < n := by
    have h1 := (length_chopDigits_bounds ds h12).1
    have h2 := hn.2
    have h3 := length_chopDigits L ds
    rw [length_cons] at h2
    omega
  have hcut : 0 < (chopDigits L ds).length := List.length_pos_iff.mpr hcan.ne_nil
  rw [length_chopDigits] at hcut
  have hcount : (if ('-' :: ds).length > indexIntlenStrlen L then (('-' :: ds).length - indexIntlenStrlen L + 2) / 7 else 0) =
      chopCount L ds := by
    unfold chopCount
    rw [length_cons]
    split_ifs <;> omega
  have hval : ('-' :: ds).take (('-' :: ds).length - chopCount L ds * 7) = '-' :: chopDigits L ds := by
    rw [length_cons, show ds.length + 1 - chopCount L ds * 7 = ds.length - chopCount L ds * 7 + 1 by omega, take_succ_cons,
      chopDigits]
  have h0' : (chopDigits L ds).head? ≠ some '0' := by
    rwa [chopDigits, List.head?_take, if_neg (by omega)]
  obtain ⟨bytes, hstr, hbytes⟩ :=
    lutilStr2bin_minus hex hcan.digits hcan.ne_nil h0' (hn.number_lt hcan hlt.le) hlt
  obtain ⟨key, hkey, hwrite⟩ := writeKey_chop 0xff true h hL hL' hlen hbytes
  refine ⟨key, hkey, ?_⟩
  simp only [integerVal2Key, List.head?_cons, beq_self_eq_true, if_true, INDEX_INTLEN_CHOP, INDEX_INTLEN_CHOPBYTES, Nat.sub_zero,
    hcount, hval]
  rw [hstr, Option.bind_some, hwrite]

end

end Slapd
end ReOpenLDAP
