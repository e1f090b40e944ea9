import ReOpenLDAP.Lib.Bytes
import ReOpenLDAP.Lib.Decimal

/-!
# Lutil.Str2bin

`lutil_str2bin`: a number of any length from decimal to two's complement.

The buffer is filled from its end. Here it is a list with its last byte first, so that `ptr[-i]` is place `i - 1`.
A write in front of the buffer has no result.
-/

namespace ReOpenLDAP
namespace Lutil

open Bytes Decimal List Option

def factor1 : ℕ := 100000000 % 65536

def factor2 : ℕ := 100000000 / 65536

/-- `for (; part; j--) { part += out[j]; out[j] = part & 0xff; part >>= 8; }`, and how many bytes it went over. -/
def addPart : List ℕ → ℕ → Option (List ℕ × ℕ)
  | out, 0 => some (out, 0)
  | [], _ + 1 => none
  | b :: out, part + 1 => (addPart out ((part + 1 + b) / 256)).map fun (out', n) => ((part + 1 + b) % 256 :: out', n + 1)

/-- The same from place `j`; the second component is where the loop ends. -/
def addAt (j part : ℕ) (tmp : List ℕ) : Option (List ℕ × ℕ) :=
  (addPart (tmp.drop j) part).map fun (out, n) => (tmp.take j ++ out, j + n)

/-- `do { i--; new += out[i]; out[i] = new & 0xff; new >>= 8; } while (new)` -/
def addNew : List ℕ → ℕ → Option (List ℕ × ℕ)
  | [], _ => none
  | b :: out, new =>
    if (new + b) / 256 = 0 then some ((new + b) % 256 :: out, 1)
    else (addNew out ((new + b) / 256)).map fun (out', n) => ((new + b) % 256 :: out', n + 1)

/-- The loop over the bytes of the number, from byte `i`; `len` is where the last addition has ended. -/
def scaleFrom : ℕ → List ℕ → List ℕ → ℕ → Option (List ℕ × ℕ)
  | _, [], tmp, len => some (tmp, len)
  | i, b :: inp, tmp, _ => do
    let (tmp, _) ← addAt i (b * factor1) tmp
    let (tmp, len) ← addAt (i + 2) (b * factor2) tmp
    scaleFrom (i + 1) inp tmp len

def scale (bufsiz new : ℕ) (num : List ℕ) : Option (List ℕ) := do
  let (tmp, len) ← scaleFrom 0 num (List.replicate bufsiz 0) 0
  let (tmp, i) ← addNew tmp new
  some (tmp.take (max len i))

/-- `strtol` of a chunk, which has neither a sign nor a blank. -/
def strtol (s : List Char) : ℕ := number (s.takeWhile Char.isDigit)

/-- `while (len)`: the next chunk, and from then on eight digits at a time. -/
def convertLoop (bufsiz : ℕ) (chunk : ℕ) (pin : List Char) (num : List ℕ) : Option (List ℕ) :=
  if _h : pin = [] ∨ chunk = 0 then some num
  else (scale bufsiz (strtol (pin.take chunk)) num).bind fun num => convertLoop bufsiz 8 (pin.drop chunk) num
termination_by pin.length
decreasing_by
  have := List.length_pos_iff.mpr (not_or.mp _h).1
  have := (not_or.mp _h).2
  simp only [length_drop]
  omega

def convert (bufsiz : ℕ) (pin : List Char) : Option (List ℕ) :=
  convertLoop bufsiz (if pin.length % 8 = 0 then 8 else pin.length % 8) pin []

def increment : List ℕ → List ℕ
  | [] => []
  | b :: bs => if (b + 1) % 256 = 0 then (b + 1) % 256 :: increment bs else (b + 1) % 256 :: bs

def negate (num : List ℕ) : List ℕ := increment (num.map (· ^^^ 0xff))

/-- Prepend the sign byte if the sign bit is wrong. The top byte of no number at all is whatever the buffer held. -/
def signByte (bufsiz neg : ℕ) (num : List ℕ) : Option (List ℕ) :=
  match num.getLast? with
  | none => none
  | some top =>
    if (top ^^^ neg) &&& 0x80 ≠ 0 then if num.length < bufsiz then some (num ++ [neg]) else none
    else some num

section

-- what the branch for hex text does with it and the size of the buffer
variable (hex : List Char → ℕ → Option (List ℕ))

def hexText (s : List Char) : Bool :=
  (2 < s.length && s[0]? == some '0' && (s[1]? == some 'x' || s[1]? == some 'X')) ||
    (3 < s.length && s[0]? == some '\'' && s[s.length - 2]? == some '\'' && s[s.length - 1]? == some 'H')

def lutilStr2bin (s : List Char) (bufsiz : ℕ) : Option (List ℕ) :=
  if bufsiz < s.length then none
  else if hexText s then hex s bufsiz
  else do
    let isNeg : Bool := s[0]? == some '-'
    let num ← convert bufsiz (if isNeg then s.tail else s)
    let num ← signByte bufsiz (if isNeg then 0xff else 0) (if isNeg then negate num else num)
    some num.reverse

end

variable {n v new : ℕ}

theorem addPart_leBytes {part : ℕ} (h : v + part < 256 ^ n) : ∃ k, addPart (leBytes n v) part = some (leBytes n (v + part), k) ∧
      k ≤ size (v + part) ∧ size part ≤ k ∧ (v + part) / 256 ^ k = v / 256 ^ k := by
  induction n generalizing v part with
  | zero =>
    obtain ⟨rfl, rfl⟩ : v = 0 ∧ part = 0 := by
      rw [pow_zero] at h
      omega
    exact ⟨0, by simp [leBytes, addPart]⟩
  | succ n ih =>
    cases part with
    | zero => exact ⟨0, by simp [leBytes, addPart]⟩
    | succ part =>
      have hsum : v / 256 + (part + 1 + v % 256) / 256 = (v + (part + 1)) / 256 := by omega
      have hroom : (v + (part + 1)) / 256 < 256 ^ n := Nat.div_lt_of_lt_mul (by rwa [← pow_succ'])
      obtain ⟨k, hadd, hk, hpart, hhigh⟩ := ih (hsum ▸ hroom)
      rw [hsum] at hadd hk hhigh
      refine ⟨k + 1, ?_, ?_, ?_, ?_⟩
      · rw [leBytes, addPart, hadd, leBytes, show (part + 1 + v % 256) % 256 = (v + (part + 1)) % 256 by omega]
        rfl
      · rw [size_div (by omega)]
        omega
      · have := size_mono (show (part + 1) / 256 ≤ (part + 1 + v % 256) / 256 by omega)
        rw [size_div (by omega)]
        omega
      · rw [pow_succ', ← Nat.div_div_eq_div_mul, hhigh, Nat.div_div_eq_div_mul]

theorem addAt_leBytes {j part : ℕ} (hj : j ≤ n) (h : v + part * 256 ^ j < 256 ^ n) :
    ∃ k, addAt j part (leBytes n v) = some (leBytes n (v + part * 256 ^ j), k) ∧
      (256 ≤ part → v < 256 ^ (j + 2) → k = size (v + part * 256 ^ j)) := by
  have hpos : 0 < 256 ^ j := Nat.pow_pos (by omega)
  have hdiv : (v + part * 256 ^ j) / 256 ^ j = v / 256 ^ j + part := Nat.add_mul_div_right _ _ hpos
  have hroom : v / 256 ^ j + part < 256 ^ (n - j) := by
    rw [← hdiv]
    exact Nat.div_lt_of_lt_mul (by rwa [← pow_add, Nat.add_sub_cancel' hj])
  obtain ⟨k, hadd, hk, hpart, hhigh⟩ := addPart_leBytes hroom
  refine ⟨j + k, ?_, fun hbig hv => ?_⟩
  · have hlow : leBytes j v = leBytes j (v + part * 256 ^ j) := by
      rw [← leBytes_mod (le_refl j) (v + _), Nat.add_mul_mod_self_right, leBytes_mod (le_refl j)]
    have hcat : leBytes j (v + part * 256 ^ j) ++ leBytes (n - j) ((v + part * 256 ^ j) / 256 ^ j) =
        leBytes n (v + part * 256 ^ j) := by
      rw [← leBytes_add, Nat.add_sub_cancel' hj]
    rw [addAt, drop_leBytes hj, hadd, take_leBytes hj, hlow, ← hcat, hdiv]
    rfl
  · have htwo : 1 < k := Nat.lt_of_lt_of_le (lt_size_iff.mpr hbig) hpart
    have hlow : v / 256 ^ j < 256 ^ k := by
      refine Nat.lt_of_lt_of_le (Nat.div_lt_of_lt_mul ?_) (Nat.pow_le_pow_right (by omega) htwo)
      rwa [← pow_add]
    rw [Nat.div_eq_of_lt hlow, Nat.div_eq_zero_iff_lt (Nat.pow_pos (by omega)), ← size_le_iff] at hhigh
    have hle : 256 ^ j ≤ v + part * 256 ^ j := Nat.le_add_left_of_le (Nat.le_mul_of_pos_left _ (by omega))
    rw [size_div_pow hle, hdiv, Nat.le_antisymm hhigh hk]

theorem addNew_leBytes (hn : 0 < n) (h : v + new < 256 ^ n) : ∃ k, addNew (leBytes n v) new = some (leBytes n (v + new), k) ∧
      0 < k ∧ k ≤ max 1 (size (v + new)) ∧ (v + new) / 256 ^ k = v / 256 ^ k := by
  induction n generalizing v new with
  | zero => cases hn
  | succ n ih =>
    rw [leBytes, addNew]
    by_cases hc : (new + v % 256) / 256 = 0
    · refine ⟨1, ?_, one_pos, le_max_left _ _, by omega⟩
      rw [if_pos hc, leBytes, show (new + v % 256) % 256 = (v + new) % 256 by omega,
        show (v + new) / 256 = v / 256 by omega]
    · have hsum : v / 256 + (new + v % 256) / 256 = (v + new) / 256 := by omega
      have hroom : (v + new) / 256 < 256 ^ n := Nat.div_lt_of_lt_mul (by rwa [← pow_succ'])
      have hn' : 0 < n := by
        refine Nat.pos_of_ne_zero ?_
        rintro rfl
        rw [pow_zero] at hroom
        omega
      obtain ⟨k, hadd, hk, hsize, hhigh⟩ := ih hn' (hsum ▸ hroom)
      rw [hsum] at hadd hsize hhigh
      refine ⟨k + 1, ?_, Nat.succ_pos k, ?_, ?_⟩
      · rw [if_neg hc, hadd, leBytes, show (new + v % 256) % 256 = (v + new) % 256 by omega]
        rfl
      · have hpos := size_pos (show 0 < (v + new) / 256 by omega)
        rw [size_div (show 0 < v + new by omega)]
        omega
      · rw [pow_succ', ← Nat.div_div_eq_div_mul, hhigh, Nat.div_div_eq_div_mul]

theorem scaleFrom_leBytes {m : ℕ} (i r w len : ℕ) (hr : r < 256 ^ i) (hw : size w = m)
    (h : (r + w * 256 ^ i) * 100000000 < 256 ^ n) :
    scaleFrom i (leBytes m w) (leBytes n (r * 100000000)) len =
      some (leBytes n ((r + w * 256 ^ i) * 100000000), if w = 0 then len else size ((r + w * 256 ^ i) * 100000000)) := by
  induction m generalizing i r w len with
  | zero =>
    obtain rfl : w = 0 := by
      have := size_le_iff.mp (Nat.le_of_eq hw)
      rw [pow_zero] at this
      omega
    simp [leBytes, scaleFrom]
  | succ m ih =>
    have hwpos : 0 < w := by
      refine Nat.pos_of_ne_zero ?_
      rintro rfl
      simp at hw
    have hw' : size (w / 256) = m := by
      have := size_div hwpos
      omega
    have hp : 0 < 256 ^ i := Nat.pow_pos (by omega)
    have hp1 : 256 ^ (i + 1) = 256 * 256 ^ i := pow_succ' ..
    have hp2 : 256 ^ (i + 2) = 65536 * 256 ^ i := by rw [pow_add, mul_comm]; rfl
    have hr' : r + w % 256 * 256 ^ i < 256 ^ (i + 1) := by
      have := Nat.mul_le_mul_right (256 ^ i) (show w % 256 ≤ 255 by omega)
      omega
    -- what is left of the number
    have hrest : r + w % 256 * 256 ^ i + w / 256 * 256 ^ (i + 1) = r + w * 256 ^ i := by
      rw [hp1]
      calc r + w % 256 * 256 ^ i + w / 256 * (256 * 256 ^ i) = r + (256 * (w / 256) + w % 256) * 256 ^ i := by ring
        _ = _ := by rw [Nat.div_add_mod]
    have hsum : r * 100000000 + w % 256 * factor1 * 256 ^ i + w % 256 * factor2 * 256 ^ (i + 2) =
        (r + w % 256 * 256 ^ i) * 100000000 := by
      rw [hp2, factor1, factor2]
      ring
    have hle : (r + w % 256 * 256 ^ i) * 100000000 ≤ (r + w * 256 ^ i) * 100000000 := by
      rw [← hrest]
      omega
    have hin : i + 2 ≤ n := by
      have : 256 ^ (i + 2) < 256 ^ n := by
        rw [hp2]
        nlinarith
      exact (Nat.pow_lt_pow_iff_right (by omega)).mp this |>.le
    have hroom := Nat.lt_of_le_of_lt (hsum.le.trans hle) h
    obtain ⟨k1, h1, -⟩ := addAt_leBytes (show i ≤ n by omega) (Nat.lt_of_le_of_lt (Nat.le_add_right _ _) hroom)
    obtain ⟨k2, h2, hend⟩ := addAt_leBytes hin hroom
    rw [hsum] at h2 hend
    have hnext := ih (i + 1) (r + w % 256 * 256 ^ i) (w / 256) k2 hr' hw' (by rw [hrest]; exact h)
    rw [hrest] at hnext
    rw [leBytes, scaleFrom, h1]
    simp only [bind_eq_bind, bind_some, h2, hnext, if_neg hwpos.ne']
    by_cases hz : w / 256 = 0
    · have hbelow : r * 100000000 + w % 256 * factor1 * 256 ^ i < 256 ^ (i + 2 + 2) := by
        calc r * 100000000 + w % 256 * factor1 * 256 ^ i ≤ 256 ^ i * 100000000 + 255 * factor1 * 256 ^ i := by gcongr; omega
          _ = 256 ^ i * (100000000 + 255 * factor1) := by ring
          _ < 256 ^ i * 256 ^ 4 := Nat.mul_lt_mul_of_pos_left (by decide) hp
          _ = 256 ^ (i + 2 + 2) := by rw [← pow_add]
      have hbig : 256 ≤ w % 256 * factor2 := by
        unfold factor2
        omega
      rw [if_pos hz, hend hbig hbelow]
      rw [hz, zero_mul, add_zero] at hrest
      rw [hrest]
    · rw [if_neg hz]

theorem addNew_end {k : ℕ} (hk : 0 < k) (hsize : k ≤ max 1 (size (v + new)))
    (hhigh : (v + new) / 256 ^ k = v / 256 ^ k) : max (size v) k = max 1 (size (v + new)) := by
  have hmono := size_mono (Nat.le_add_right v new)
  have htop : size (v + new) ≤ max (size v) k := by
    have hdiv : (v + new) / 256 ^ max (size v) k = 0 := by
      obtain ⟨d, hd⟩ := Nat.exists_eq_add_of_le (le_max_right (size v) k)
      have hlow := size_le_iff.mp (le_max_left (size v) k)
      rw [hd] at hlow ⊢
      rw [pow_add, ← Nat.div_div_eq_div_mul, hhigh, Nat.div_div_eq_div_mul, ← pow_add, Nat.div_eq_of_lt hlow]
    rwa [Nat.div_eq_zero_iff_lt (Nat.pow_pos (by omega)), ← size_le_iff] at hdiv
  omega

theorem scale_bytes {w : ℕ} (hn : 0 < n) (h : w * 100000000 + new < 256 ^ n) : scale n new (leBytes (size w) w) =
      some (leBytes (max 1 (size (w * 100000000 + new))) (w * 100000000 + new)) := by
  have hmul := scaleFrom_leBytes (n := n) 0 0 w 0 (by simp) rfl (by simpa using Nat.lt_of_le_of_lt (Nat.le_add_right _ _) h)
  have hlen : (if w = 0 then 0 else size (w * 100000000)) = size (w * 100000000) := by
    split_ifs with hw
    · rw [hw, zero_mul, size_zero]
    · rfl
  simp only [zero_mul, zero_add, pow_zero, mul_one, leBytes_zero, hlen] at hmul
  obtain ⟨k, hadd, hk, hsize, hhigh⟩ := addNew_leBytes hn h
  have hroom : max 1 (size (w * 100000000 + new)) ≤ n := max_le hn (size_le_iff.mpr h)
  rw [scale, hmul]
  simp only [bind_eq_bind, bind_some, hadd, addNew_end hk hsize hhigh, take_leBytes hroom]

/-! ## The chunks -/

theorem strtol_digits {s : List Char} (h : Digits s) : strtol s = number s := by
  rw [strtol, List.takeWhile_eq_self_iff.mpr h]

theorem convertLoop_leBytes {w : ℕ} {ds : List Char} (hd : Digits ds) (h8 : 8 ∣ ds.length) (hw : 0 < w)
    (hn : w * 10 ^ ds.length + number ds < 256 ^ n) :
    convertLoop n 8 ds (leBytes (size w) w) =
      some (leBytes (size (w * 10 ^ ds.length + number ds)) (w * 10 ^ ds.length + number ds)) := by
  obtain ⟨q, hq⟩ := h8
  induction q generalizing w ds with
  | zero =>
    obtain rfl : ds = [] := eq_nil_of_length_eq_zero (by omega)
    rw [convertLoop]
    simp [number]
  | succ q ih =>
    have hne : ds ≠ [] := by
      rintro rfl
      simp at hq
    have hsplit := take_append_drop 8 ds
    have hdrop : (ds.drop 8).length = 8 * q := by
      rw [length_drop]
      omega
    have hval : w * 10 ^ ds.length + number ds =
        (w * 100000000 + number (ds.take 8)) * 10 ^ (ds.drop 8).length + number (ds.drop 8) := by
      conv_lhs => rw [← hsplit, number_append, length_append, length_take_of_le (by omega)]
      rw [pow_add]
      ring
    have hd1 : Digits (ds.take 8) := fun c hc => hd c (mem_of_mem_take hc)
    have hd2 : Digits (ds.drop 8) := fun c hc => hd c (mem_of_mem_drop hc)
    rw [hval] at hn ⊢
    have hstep : w * 100000000 + number (ds.take 8) < 256 ^ n :=
      Nat.lt_of_le_of_lt (Nat.le_add_right_of_le (Nat.le_mul_of_pos_right _ (Nat.pow_pos (by omega)))) hn
    have hnpos : 0 < n := by
      refine Nat.pos_of_ne_zero ?_
      rintro rfl
      rw [pow_zero] at hstep
      omega
    have hpos : 0 < w * 100000000 + number (ds.take 8) := by omega
    have hone : max 1 (size (w * 100000000 + number (ds.take 8))) = size (w * 100000000 + number (ds.take 8)) :=
      max_eq_right (size_pos hpos)
    rw [convertLoop, dif_neg (by simp [hne]), strtol_digits hd1, scale_bytes hnpos hstep, bind_some, hone]
    exact ih hd2 hpos hn hdrop

theorem convert_leBytes {ds : List Char} (hd : Digits ds) (hne : ds ≠ []) (h0 : ds = ['0'] ∨ ds.head? ≠ some '0')
    (hn : number ds < 256 ^ n) (hpos : 0 < n) :
    convert n ds = some (leBytes (max 1 (size (number ds))) (number ds)) := by
  obtain rfl | h0 := h0
  · have hscale := scale_bytes hpos (show 0 * 100000000 + 0 < 256 ^ n by simp)
    have hstrtol : strtol ['0'] = 0 := by decide
    rw [size_zero, zero_mul, zero_add] at hscale
    rw [convert, convertLoop, dif_neg (by simp), show ([] : List ℕ) = leBytes 0 0 from rfl]
    simpa [hstrtol, convertLoop, number, value] using hscale
  · rw [convert]
    have hlen := List.length_pos_iff.mpr hne
    generalize hc : (if ds.length % 8 = 0 then 8 else ds.length % 8) = c
    have hcle : 0 < c ∧ c ≤ ds.length ∧ 8 ∣ ds.length - c := by
      split_ifs at hc <;> omega
    obtain ⟨hc0, hcle, hc8⟩ := hcle
    have hd1 : Digits (ds.take c) := fun c hc => hd c (mem_of_mem_take hc)
    have hd2 : Digits (ds.drop c) := fun c hc => hd c (mem_of_mem_drop hc)
    have hfirst : 0 < number (ds.take c) := by
      refine number_pos hd1 ?_ ?_
      · rw [Ne, take_eq_nil_iff]
        simp [hne, hc0.ne']
      · rwa [List.head?_take, if_neg hc0.ne']
    have hval : number ds = number (ds.take c) * 10 ^ (ds.drop c).length + number (ds.drop c) := by
      conv_lhs => rw [← take_append_drop c ds, number_append]
    rw [hval] at hn ⊢
    have hscale := scale_bytes (w := 0) hpos
      (show 0 * 100000000 + number (ds.take c) < 256 ^ n by
        rw [zero_mul, zero_add]
        exact Nat.lt_of_le_of_lt (Nat.le_add_right_of_le (Nat.le_mul_of_pos_right _ (Nat.pow_pos (by omega)))) hn)
    rw [zero_mul, zero_add, size_zero, max_eq_right (size_pos hfirst)] at hscale
    have hlast : 0 < number (ds.take c) * 10 ^ (ds.drop c).length + number (ds.drop c) :=
      Nat.add_pos_left (Nat.mul_pos hfirst (Nat.pow_pos (by omega))) _
    rw [convertLoop, dif_neg (by simp [hne, hc0.ne']), strtol_digits hd1, show ([] : List ℕ) = leBytes 0 0 from rfl, hscale,
      bind_some, max_eq_right (size_pos hlast)]
    exact convertLoop_leBytes hd2 (by rwa [length_drop]) hfirst hn

theorem complement_octet : ∀ b < 256, b ^^^ 0xff = 255 - b := by decide +kernel

theorem increment_not {u : ℕ} (h : u + 1 < 256 ^ n) :
    increment ((leBytes n (u + 1)).map (· ^^^ 0xff)) = (leBytes n u).map (· ^^^ 0xff) := by
  induction n generalizing u with
  | zero =>
    rw [pow_zero] at h
    omega
  | succ n ih =>
    rw [leBytes, leBytes, map_cons, map_cons, increment, complement_octet _ (Nat.mod_lt _ (by omega)),
      complement_octet _ (Nat.mod_lt _ (by omega))]
    split_ifs with hcarry
    · have hq : (u + 1) / 256 = u / 256 + 1 := by omega
      rw [hq, ih (hq ▸ Nat.div_lt_of_lt_mul (by rwa [← pow_succ']))]
      congr 1
      omega
    · rw [show (u + 1) / 256 = u / 256 by omega]
      congr 1
      omega

/-- `body` is what follows a leading sign byte, if there is one. -/
def SignedBytes (neg : ℕ) (bytes body : List ℕ) : Prop := bytes = neg :: body ∨ bytes = body ∧ body.head? ≠ some neg

theorem signByte_bytes {m u : ℕ} (neg : ℕ) (hm : m = size u ∨ m = size u + 1) (hpos : 0 < m) (hroom : m < n) :
    ∃ num, signByte n neg ((leBytes m u).map (· ^^^ neg)) = some num ∧
      SignedBytes neg num.reverse ((beBytes (size u) u).map (· ^^^ neg)) := by
  obtain ⟨k, rfl⟩ := Nat.exists_eq_add_of_lt hpos
  rw [zero_add] at hm hroom ⊢
  have hxor : u / 256 ^ k % 256 ^^^ neg ^^^ neg = u / 256 ^ k % 256 := by rw [Nat.xor_assoc, Nat.xor_self, Nat.xor_zero]
  have hlast : ((leBytes (k + 1) u).map (· ^^^ neg)).getLast? = some (u / 256 ^ k % 256 ^^^ neg) := by
    rw [leBytes_add, map_append, List.getLast?_append]
    rfl
  have hbe : ((leBytes (k + 1) u).map (· ^^^ neg)).reverse = (beBytes (k + 1) u).map (· ^^^ neg) := by
    rw [← map_reverse, reverse_leBytes]
  rw [signByte, hlast]
  simp only [hxor, length_map, length_leBytes, hroom, if_true]
  rcases hm with hm | hm
  · have htop : u / 256 ^ k % 256 ≠ 0 := by
      have hlo : 256 ^ k ≤ u := lt_size_iff.mp (by omega)
      have hhi : u < 256 ^ k * 256 := pow_succ 256 k ▸ size_le_iff.mp (by omega)
      rw [Nat.mod_eq_of_lt (Nat.div_lt_of_lt_mul hhi)]
      exact (Nat.div_pos hlo (Nat.pow_pos (by omega))).ne'
    split_ifs with hbit
    · refine ⟨_, rfl, Or.inl ?_⟩
      rw [reverse_append, hbe, ← hm]
      rfl
    · refine ⟨_, rfl, Or.inr ⟨hm ▸ hbe, ?_⟩⟩
      rw [← hm, beBytes, map_cons, List.head?_cons]
      intro h
      have h' := Option.some.inj h
      apply htop
      rw [← hxor, h', Nat.xor_self]
  · -- the number before the complement is one larger, and its top byte is the sign
    have htop : u / 256 ^ k = 0 := Nat.div_eq_of_lt (size_le_iff.mp (by omega))
    rw [htop, if_neg (by simp)]
    refine ⟨_, rfl, Or.inl ?_⟩
    rw [hbe, beBytes, htop, show size u = k by omega]
    simp

section

variable (hex : List Char → ℕ → Option (List ℕ))
variable {ds : List Char}

theorem hexText_decimal (hd : Digits ds) : hexText ds = false ∧ hexText ('-' :: ds) = false := by
  have hx : ∀ c, ds[1]? = some c → c.isDigit = true := fun c hc => hd c (mem_of_getElem? hc)
  have hq : ∀ c, ds[0]? = some c → c.isDigit = true := fun c hc => hd c (mem_of_getElem? hc)
  have h1 : ds[1]? ≠ some 'x' := fun h => absurd (hx _ h) (by decide)
  have h2 : ds[1]? ≠ some 'X' := fun h => absurd (hx _ h) (by decide)
  have h3 : ds[0]? ≠ some '\'' := fun h => absurd (hq _ h) (by decide)
  constructor
  · simp [hexText, h1, h2, h3]
  · simp [hexText]

theorem lutilStr2bin_digits {n : ℕ} (hd : Digits ds) (hne : ds ≠ [])
    (h0 : ds = ['0'] ∨ ds.head? ≠ some '0') (hn : number ds < 256 ^ (n - 1)) (hlen : ds.length ≤ n) (hone : 1 < n) :
    ∃ bytes, lutilStr2bin hex ds n = some bytes ∧ SignedBytes 0 bytes (beBytes (size (number ds)) (number ds)) := by
  have hminus : (ds[0]? == some '-') = false := by
    rw [beq_eq_false_iff_ne]
    exact fun h => absurd (hd _ (mem_of_getElem? h)) (by decide)
  have hsize := size_le_iff.mpr hn
  have hroom : number ds < 256 ^ n := Nat.lt_of_lt_of_le hn (Nat.pow_le_pow_right (by omega) (by omega))
  have hconv := convert_leBytes hd hne h0 hroom (by omega)
  have hm : max 1 (size (number ds)) = size (number ds) ∨ max 1 (size (number ds)) = size (number ds) + 1 := by omega
  obtain ⟨num, hnum, hbytes⟩ := signByte_bytes 0 hm (by omega) (show _ < n by omega)
  simp only [Nat.xor_zero, List.map_id'] at hnum hbytes
  rw [lutilStr2bin, if_neg (by omega), (hexText_decimal hd).1]
  simp [hminus, hconv, hnum, hbytes]

theorem lutilStr2bin_minus {n : ℕ} (hd : Digits ds) (hne : ds ≠ []) (h0 : ds.head? ≠ some '0')
    (hn : number ds < 256 ^ (n - 1)) (hlen : ds.length < n) :
    ∃ bytes, lutilStr2bin hex ('-' :: ds) n = some bytes ∧
      SignedBytes 0xff bytes ((beBytes (size (number ds - 1)) (number ds - 1)).map (· ^^^ 0xff)) := by
  obtain ⟨u, hu⟩ := Nat.exists_eq_add_of_lt (number_pos hd hne h0)
  have hlen0 := List.length_pos_iff.mpr hne
  have hsize := size_le_iff.mpr hn
  have hroom : number ds < 256 ^ n := Nat.lt_of_lt_of_le hn (Nat.pow_le_pow_right (by omega) (by omega))
  have hconv := convert_leBytes hd hne (Or.inr h0) hroom (by omega)
  have hpos := size_pos (number_pos hd hne h0)
  rw [zero_add] at hu
  rw [max_eq_right hpos, hu] at hconv
  rw [hu] at hsize hpos ⊢
  have hsucc : size (u + 1) = size u ∨ size (u + 1) = size u + 1 := by
    have hle := size_mono (Nat.le_add_right u 1)
    have hlt : u + 1 < 256 ^ (size u + 1) := by
      have := size_le_iff.mp (le_refl (size u))
      rw [pow_succ]
      omega
    have := size_le_iff.mpr hlt
    omega
  obtain ⟨num, hnum, hbytes⟩ := signByte_bytes 0xff hsucc hpos (show _ < n by omega)
  have hneg := increment_not (size_le_iff.mp (le_refl (size (u + 1))))
  rw [lutilStr2bin, if_neg (by simp; omega), (hexText_decimal hd).2]
  simp [hconv, negate, hneg, hnum, hbytes]

end

end Lutil
end ReOpenLDAP
