import ReOpenLDAP.Lib.InPlace
import ReOpenLDAP.Libreldap.Base64

/-!
# Libreldap.Base64Inplace

`ldap_int_decode_b64_inplace` on the memory of a string and its `'\0'`, and `lutil_b64_pton` beside it. To read behind the `'\0'`,
and to write over a character that is not decoded yet, is `none`.
-/

namespace ReOpenLDAP
namespace Libreldap

open Ascii InPlace List Option

/-- `byte[i] = b`, when the characters in front of `done` are decoded. -/
def overwrite (mem : List Octet) (done i : ℕ) (b : Octet) : Option (List Octet) := if i < done then store mem i b else none

/-- `byte[i] |= b` -/
def orInto (mem : List Octet) (done i : ℕ) (b : Octet) : Option (List Octet) := do overwrite mem done i ((← mem[i]?) ||| b)

/-- The loop that checks `n` characters from `p` on. -/
def checkDigits (mem : List Octet) (p : ℕ) : ℕ → Option Bool
  | 0 => some true
  | n + 1 => do if b64Char (← mem[p]?) then checkDigits mem (p + 1) n else some false

/-- Four digits at `p` that become up to three octets at `i`, and how many. -/
def decodeDigits (mem : List Octet) (p i : ℕ) : Option (List Octet × ℕ) := do
  let p0 ← mem[p]?
  let mem ← overwrite mem (p + 1) i (byte (nib p0 <<< 2))
  let p1 ← mem[p + 1]?
  let mem ← orInto mem (p + 2) i (byte (nib p1 >>> 4))
  let mem ← overwrite mem (p + 2) (i + 1) (byte ((nib p1 &&& 0x0f) <<< 4))
  let p2 ← mem[p + 2]?
  if p2 = PAD then some (mem, 1)
  else
    let mem ← orInto mem (p + 3) (i + 1) (byte (nib p2 >>> 2))
    let mem ← overwrite mem (p + 3) (i + 2) (byte ((nib p2 &&& 0x03) <<< 6))
    let p3 ← mem[p + 3]?
    if p3 = PAD then some (mem, 2)
    else
      let mem ← orInto mem (p + 4) (i + 2) (byte (nib p3))
      some (mem, 3)

/-- The loop from the character `p` on, with `i` octets decoded: the memory, `bv_len`, and whether no character was invalid. -/
def inplaceLoop (mem : List Octet) (last p i : ℕ) : Option (List Octet × ℕ × Bool) :=
  if _h : p < last then do
    if ← checkDigits mem p 4 then
      let (mem, n) ← decodeDigits mem p i
      if n < 3 then some (mem, i + n, true) else inplaceLoop mem last (p + 4) (i + 3)
    else some (mem, i, false)
  else some (mem, i, true)
termination_by last - p

def ldapIntDecodeB64Inplace (mem : List Octet) (bv_len : ℕ) : Option (List Octet × ℕ × Bool) := do
  let (mem, len, ok) ← inplaceLoop mem bv_len 0 0
  if ok then some (← store mem len 0, len, true) else some (mem, len, false)

theorem byte_or_byte (x y : ℕ) : byte x ||| byte y = byte (x ||| y) := by
  refine Fin.ext ?_
  change (x % 256 ||| y % 256) % 256 = (x ||| y) % 256
  rw [show 256 = 2 ^ 8 from rfl, Nat.or_mod_two_pow, Nat.mod_mod, Nat.mod_mod, ← Nat.or_mod_two_pow]

def quadValue (p0 p1 p2 p3 : Octet) : List Octet :=
  byte (nib p0 <<< 2 ||| nib p1 >>> 4) ::
    if p2 = PAD then []
    else byte ((nib p1 &&& 0x0f) <<< 4 ||| nib p2 >>> 2) :: if p3 = PAD then [] else [byte ((nib p2 &&& 0x03) <<< 6 ||| nib p3)]

variable {mem : List Octet} {p i : ℕ} {p0 p1 p2 p3 : Octet}

theorem take_set_succ (hi : i < mem.length) (b : Octet) : (mem.set i b).take (i + 1) = mem.take i ++ [b] := by
  rw [take_succ_eq_append_getElem (by simpa using hi), take_set_of_le (Nat.le_refl i), getElem_set_self]

theorem decodeDigits_spec (hi : i ≤ p) (h0 : mem[p]? = some p0) (h1 : mem[p + 1]? = some p1) (h2 : mem[p + 2]? = some p2)
    (h3 : mem[p + 3]? = some p3) :
    ∃ mem', decodeDigits mem p i = some (mem', (quadValue p0 p1 p2 p3).length) ∧ mem'.length = mem.length ∧
      mem'.drop (p + 4) = mem.drop (p + 4) ∧
      mem'.take (i + (quadValue p0 p1 p2 p3).length) = mem.take i ++ quadValue p0 p1 p2 p3 := by
  have hlen : p + 3 < mem.length := (List.getElem?_eq_some_iff.mp h3).1
  have hover : ∀ {m : List Octet} {done j : ℕ} {b : Octet}, m.length = mem.length → j < done → done ≤ p + 4 →
      overwrite m done j b = some (m.set j b) := by
    intro m done j b hm hj hdone
    rw [overwrite, if_pos hj, store_eq (by omega)]
  have hor : ∀ {m : List Octet} {done j : ℕ} {a b : Octet}, m.length = mem.length → j < done → done ≤ p + 4 →
      orInto (m.set j a) done j b = some (m.set j (a ||| b)) := by
    intro m done j a b hm hj hdone
    rw [orInto, List.getElem?_set_self (by omega), bind_eq_bind, bind_some, hover (by simpa using hm) hj hdone, List.set_set]
  have hget : ∀ {m : List Octet} {j k : ℕ} {b : Octet}, j < k → (m.set j b)[k]? = m[k]? := fun h => List.getElem?_set_ne h.ne
  have hdrop : ∀ {m : List Octet} {j : ℕ} {b : Octet}, j < p + 4 → (m.set j b).drop (p + 4) = m.drop (p + 4) := drop_set_of_lt
  unfold decodeDigits quadValue
  simp only [bind_eq_bind]
  rw [h0, bind_some, hover rfl (by omega) (by omega), bind_some, hget (by omega), h1, bind_some,
    hor rfl (by omega) (by omega), bind_some, hover (by simp) (by omega) (by omega), bind_some, hget (by omega),
    hget (by omega), h2, bind_some, byte_or_byte]
  by_cases hp2 : p2 = PAD
  · rw [if_pos hp2, if_pos hp2]
    refine ⟨_, rfl, by simp, by rw [hdrop (by omega), hdrop (by omega)], ?_⟩
    rw [length_singleton, take_set_of_le (Nat.le_refl _), take_set_succ (by omega)]
  · rw [if_neg hp2, if_neg hp2, hor (by simp) (by omega) (by omega), bind_some, hover (by simp) (by omega) (by omega),
      bind_some, hget (by omega), hget (by omega), hget (by omega), h3, bind_some, byte_or_byte]
    by_cases hp3 : p3 = PAD
    · rw [if_pos hp3, if_pos hp3]
      refine ⟨_, rfl, by simp, by rw [hdrop (by omega), hdrop (by omega), hdrop (by omega)], ?_⟩
      rw [length_cons, length_singleton, take_set_of_le (by omega), ← Nat.add_assoc,
        take_set_succ (by simp; omega), take_set_succ (by omega), append_assoc]
      rfl
    · rw [if_neg hp3, if_neg hp3, hor (by simp) (by omega) (by omega), bind_some, byte_or_byte]
      refine ⟨_, rfl, by simp, by rw [hdrop (by omega), hdrop (by omega), hdrop (by omega)], ?_⟩
      rw [length_cons, length_cons, length_singleton, ← Nat.add_assoc, ← Nat.add_assoc,
        take_set_succ (by simp; omega), take_set_succ (by simp; omega), take_set_succ (by omega), append_assoc, append_assoc]
      rfl
def validGroup (p0 p1 p2 p3 : Octet) : Bool := b64Char p0 && b64Char p1 && b64Char p2 && b64Char p3

theorem decodeB64_group (p : List Octet) : decodeB64 (p0 :: p1 :: p2 :: p3 :: p) =
    if validGroup p0 p1 p2 p3 then
      if (quadValue p0 p1 p2 p3).length < 3 then (quadValue p0 p1 p2 p3, true)
      else (quadValue p0 p1 p2 p3 ++ (decodeB64 p).1, (decodeB64 p).2)
    else ([], false) := by
  rw [decodeB64, validGroup, quadValue]
  by_cases hv : b64Char p0 ∧ b64Char p1 ∧ b64Char p2 ∧ b64Char p3 <;> by_cases hp2 : p2 = PAD <;> by_cases hp3 : p3 = PAD <;>
    simp_all [and_assoc]

theorem checkDigits_text {s : List Octet} (n : ℕ) (h : mem.drop p = s ++ [0]) :
    checkDigits mem p n = some (decide (n ≤ s.length) && (s.take n).all b64Char) := by
  induction n generalizing p s with
  | zero => simp [checkDigits]
  | succ n ih =>
    have hp : mem[p]? = (s ++ [0])[0]? := by rw [← h, List.getElem?_drop, Nat.add_zero]
    have hnext : mem.drop (p + 1) = (s ++ [0]).tail := by rw [← h, tail_drop]
    cases s with
    | nil =>
      rw [checkDigits, hp]
      rfl
    | cons c s =>
      have hrest := ih (p := p + 1) (s := s) hnext
      rw [checkDigits, hp]
      cases hc : b64Char c <;> simp [hc, hrest]

theorem inplaceLoop_spec {mem : List Octet} {p i : ℕ} {s : List Octet} (h : mem.drop p = s ++ [0]) (hi : i ≤ p) :
    ∃ mem', inplaceLoop mem (p + s.length) p i = some (mem', i + (decodeB64 s).1.length, (decodeB64 s).2) ∧
      mem'.length = mem.length ∧ mem'.take (i + (decodeB64 s).1.length) = mem.take i ++ (decodeB64 s).1 := by
  match s, h with
  | [], _ => exact ⟨mem, by rw [inplaceLoop, dif_neg (by simp)]; rfl, rfl, by simp [decodeB64]⟩
  | [_], h | [_, _], h | [_, _, _], h =>
    refine ⟨mem, ?_, rfl, by simp [decodeB64]⟩
    rw [inplaceLoop, dif_pos (by simp), checkDigits_text 4 h]
    rfl
  | p0 :: p1 :: p2 :: p3 :: rest, h =>
    have hcheck := checkDigits_text 4 h
    have hget : ∀ k, mem[p + k]? = (p0 :: p1 :: p2 :: p3 :: (rest ++ [0]))[k]? := by
      intro k
      rw [← List.getElem?_drop, h]
      rfl
    rw [inplaceLoop, dif_pos (by simp), hcheck, decodeB64_group]
    cases hv : validGroup p0 p1 p2 p3 with
    | false =>
      refine ⟨mem, ?_, rfl, by simp⟩
      rw [show (decide (4 ≤ (p0 :: p1 :: p2 :: p3 :: rest).length) && ((p0 :: p1 :: p2 :: p3 :: rest).take 4).all b64Char) = false by
        simpa [validGroup, and_assoc] using hv]
      rfl
    | true =>
      obtain ⟨mem', hrun, hlen, hdrop, htake⟩ := decodeDigits_spec hi (hget 0) (hget 1) (hget 2) (hget 3)
      rw [show (decide (4 ≤ (p0 :: p1 :: p2 :: p3 :: rest).length) && ((p0 :: p1 :: p2 :: p3 :: rest).take 4).all b64Char) = true by
        simpa [validGroup, and_assoc] using hv]
      simp only [bind_eq_bind, bind_some, if_true, hrun]
      by_cases hn : (quadValue p0 p1 p2 p3).length < 3
      · rw [if_pos hn, if_pos hn]
        exact ⟨mem', rfl, hlen, htake⟩
      · have hthree : (quadValue p0 p1 p2 p3).length = 3 := by
          unfold quadValue at hn ⊢
          split_ifs at hn ⊢ <;> simp_all
        have hnext : mem'.drop (p + 4) = rest ++ [0] := by
          rw [hdrop, ← drop_drop, h]
          rfl
        obtain ⟨mem'', hloop, hlen', htake'⟩ := inplaceLoop_spec hnext (show i + 3 ≤ p + 4 by omega)
        rw [if_neg hn, if_neg hn, length_append, hthree]
        refine ⟨mem'', ?_, hlen'.trans hlen, ?_⟩
        · rw [show p + (p0 :: p1 :: p2 :: p3 :: rest).length = p + 4 + rest.length by simp; omega, hloop, Nat.add_assoc]
        · rw [← Nat.add_assoc, htake', ← hthree, htake, append_assoc]
termination_by s.length

theorem length_decodeB64 (s : List Octet) : (decodeB64 s).1.length ≤ s.length := by
  fun_induction decodeB64 s <;> (simp_all; try omega)

theorem inplace_decodes (s : List Octet) : ∃ mem', ldapIntDecodeB64Inplace (s ++ [0]) s.length =
    some (mem', (decodeB64 s).1.length, (decodeB64 s).2) ∧ mem'.take (decodeB64 s).1.length = (decodeB64 s).1 := by
  obtain ⟨mem', hrun, hlen, htake⟩ := @inplaceLoop_spec (s ++ [0]) 0 0 s rfl (Nat.le_refl 0)
  rw [Nat.zero_add, Nat.zero_add] at hrun
  rw [Nat.zero_add, take_zero, List.nil_append] at htake
  have hroom : (decodeB64 s).1.length < mem'.length := by
    rw [hlen, length_append]
    exact Nat.lt_succ_of_le (length_decodeB64 s)
  rw [ldapIntDecodeB64Inplace, hrun, bind_eq_bind, bind_some]
  cases (decodeB64 s).2 with
  | false => exact ⟨mem', rfl, htake⟩
  | true =>
    refine ⟨mem'.set (decodeB64 s).1.length 0, ?_, by rw [take_set_of_le (Nat.le_refl _), htake]⟩
    simp only [if_true, store_eq hroom, bind_eq_bind, bind_some]

/-! ## `lutil_b64_pton` -/

/-- `strchr(Base64, ch) - Base64` -/
def base64Pos (ch : Octet) : Option ℕ := nib2b64.idxOf? ch

/-- `switch (state)`: the state, the octets in front of `tarindex` and the one there; `none` is the return of -1. -/
def ptonStore (targsize state : ℕ) (out : List Octet) (cur : Octet) (pos : ℕ) : Option (ℕ × List Octet × Octet) :=
  match state with
  | 0 => if targsize ≤ out.length then none else some (1, out, byte (pos <<< 2))
  | 1 => if targsize ≤ out.length + 1 then none else some (2, out ++ [cur ||| byte (pos >>> 4)], byte ((pos &&& 0x0f) <<< 4))
  | 2 => if targsize ≤ out.length + 1 then none else some (3, out ++ [cur ||| byte (pos >>> 2)], byte ((pos &&& 0x03) <<< 6))
  | _ => if targsize ≤ out.length then none else some (0, out ++ [cur ||| byte pos], 0)

def ptonDigits (targsize : ℕ) : ℕ → List Octet → Octet → List Octet → Option (ℕ × List Octet × Octet × List Octet)
  | state, out, cur, [] => some (state, out, cur, [])
  | state, out, cur, ch :: src =>
    if isSpace ch then ptonDigits targsize state out cur src
    else if ch = PAD then some (state, out, cur, ch :: src)
    else
      (base64Pos ch).bind fun pos => (ptonStore targsize state out cur pos).bind fun t => ptonDigits targsize t.1 t.2.1 t.2.2 src

def ptonEnd (state : ℕ) (src : List Octet) : Bool :=
  if state = 2 then
    match src.dropWhile isSpace with
    | ch :: src => ch = PAD && src.all isSpace
    | [] => false
  else src.all isSpace

/-- `lutil_b64_pton` with a target: what it stores there, and `none` for -1. -/
def lutilB64Pton (targsize : ℕ) (src : List Octet) : Option (List Octet) :=
  match ptonDigits targsize 0 [] 0 src with
  | none => none
  | some (state, out, _, []) => if state = 0 then some out else none
  | some (state, out, cur, _ :: src) => if 2 ≤ state ∧ ptonEnd state src ∧ cur = 0 then some out else none

section

variable {targsize state : ℕ} {out src : List Octet} {cur : Octet}

theorem pton_pad : ptonDigits targsize state out cur (PAD :: src) = some (state, out, cur, PAD :: src) := by
  rw [ptonDigits, if_neg (by decide), if_pos rfl]

theorem sextet_place :
    (∀ c : Octet, b64Char c = true → c ≠ PAD → sextet (nib c) = c ∧ nib c < 64 ∧ isSpace c = false) ∧
      ∀ i : Fin 64, nib2b64.idxOf (sextet i.val) = i.val ∧ base64Pos (sextet i.val) = some i.val := by
  decide +kernel

theorem pton_digit {c : Octet} (h : b64Char c = true) (hpad : c ≠ PAD) : ptonDigits targsize state out cur (c :: src) =
    (ptonStore targsize state out cur (nib c)).bind fun t => ptonDigits targsize t.1 t.2.1 t.2.2 src := by
  obtain ⟨hc, hlt, hspace⟩ := sextet_place.1 c h hpad
  have hpos : base64Pos c = some (nib c) := by simpa [hc] using (sextet_place.2 ⟨nib c, hlt⟩).2
  rw [ptonDigits, hspace, if_neg Bool.false_ne_true, if_neg hpad, hpos, bind_some]

theorem pton_group (hv : validGroup p0 p1 p2 p3 = true) {out' rest : List Octet} {cur' : Octet}
    (h : ptonDigits targsize 0 out cur (p0 :: p1 :: p2 :: p3 :: src) = some (state, out', cur', rest)) :
    (state < 2 ∧ rest ≠ []) ∨ ((quadValue p0 p1 p2 p3).length < 3 ∧ out' = out ++ quadValue p0 p1 p2 p3) ∨
    ((quadValue p0 p1 p2 p3).length = 3 ∧
      ∃ cur, ptonDigits targsize 0 (out ++ quadValue p0 p1 p2 p3) cur src = some (state, out', cur', rest)) := by
  simp only [validGroup, Bool.and_eq_true] at hv
  obtain ⟨⟨⟨h0, h1⟩, h2⟩, h3⟩ := hv
  by_cases hp0 : p0 = PAD
  · rw [hp0, pton_pad] at h
    cases h
    exact .inl ⟨by simp, by simp⟩
  rw [pton_digit h0 hp0] at h
  obtain ⟨t, hstore, h⟩ := Option.bind_eq_some_iff.mp h
  obtain rfl := Option.some.inj (Option.ite_none_left_eq_some.mp hstore).2
  by_cases hp1 : p1 = PAD
  · rw [hp1, pton_pad] at h
    cases h
    exact .inl ⟨by simp, by simp⟩
  rw [pton_digit h1 hp1] at h
  obtain ⟨t, hstore, h⟩ := Option.bind_eq_some_iff.mp h
  obtain rfl := Option.some.inj (Option.ite_none_left_eq_some.mp hstore).2
  by_cases hp2 : p2 = PAD
  · rw [hp2, pton_pad] at h
    cases h
    refine .inr (.inl ⟨by simp [quadValue, hp2], ?_⟩)
    rw [quadValue, if_pos hp2, byte_or_byte]
  rw [pton_digit h2 hp2] at h
  obtain ⟨t, hstore, h⟩ := Option.bind_eq_some_iff.mp h
  obtain rfl := Option.some.inj (Option.ite_none_left_eq_some.mp hstore).2
  by_cases hp3 : p3 = PAD
  · rw [hp3, pton_pad] at h
    cases h
    refine .inr (.inl ⟨by simp [quadValue, hp2, hp3], ?_⟩)
    rw [quadValue, if_neg hp2, if_pos hp3, byte_or_byte, byte_or_byte, append_assoc]
    rfl
  rw [pton_digit h3 hp3] at h
  obtain ⟨t, hstore, h⟩ := Option.bind_eq_some_iff.mp h
  obtain rfl := Option.some.inj (Option.ite_none_left_eq_some.mp hstore).2
  refine .inr (.inr ⟨by simp [quadValue, hp2, hp3], 0, ?_⟩)
  rw [← h, quadValue, if_neg hp2, if_neg hp3, byte_or_byte, byte_or_byte, byte_or_byte, append_assoc, append_assoc]
  rfl

end

theorem ptonDigits_decode {s : List Octet} (hok : (decodeB64 s).2 = true) {targsize : ℕ} {out : List Octet} {cur : Octet} {state : ℕ}
    {out' rest : List Octet} {cur' : Octet} (h : ptonDigits targsize 0 out cur s = some (state, out', cur', rest)) :
    (state < 2 ∧ rest ≠ []) ∨ out' = out ++ (decodeB64 s).1 := by
  match s with
  | [] =>
    simp only [ptonDigits, Option.some.injEq, Prod.mk.injEq] at h
    exact .inr (by simp [decodeB64, h.2.1])
  | [_] | [_, _] | [_, _, _] => simp [decodeB64] at hok
  | p0 :: p1 :: p2 :: p3 :: rest' =>
    rw [decodeB64_group] at hok ⊢
    cases hv : validGroup p0 p1 p2 p3 with
    | false => simp [hv] at hok
    | true =>
      rw [hv] at hok
      obtain hstate | ⟨hn, hout⟩ | ⟨hn, cur, hnext⟩ := pton_group hv h
      · exact .inl hstate
      · rw [if_pos rfl, if_pos hn]
        exact .inr hout
      · have hlt : ¬ (quadValue p0 p1 p2 p3).length < 3 := by omega
        rw [if_pos rfl, if_neg hlt] at hok ⊢
        rw [← append_assoc]
        exact ptonDigits_decode hok hnext
termination_by s.length

theorem pton_decode {s v : List Octet} {targsize : ℕ} (hok : (decodeB64 s).2 = true) (h : lutilB64Pton targsize s = some v) :
    v = (decodeB64 s).1 := by
  unfold lutilB64Pton at h
  split at h
  · cases h
  · rename_i hdigits
    split_ifs at h with hstate
    obtain rfl := Option.some.inj h
    simpa using ptonDigits_decode hok hdigits
  · rename_i hdigits
    split_ifs at h with hstate
    obtain rfl := Option.some.inj h
    obtain ⟨hlt, -⟩ | hout := ptonDigits_decode hok hdigits
    · omega
    · simpa using hout

inductive WellFormed : List Octet → Prop where
  | nil : WellFormed []
  | group {a b c d : Octet} {s : List Octet} (hq : ∀ x ∈ [a, b, c, d], x ∈ nib2b64) (hs : WellFormed s) :
      WellFormed (a :: b :: c :: d :: s)
  | onePad {a b c : Octet} (hq : ∀ x ∈ [a, b, c], x ∈ nib2b64) : WellFormed [a, b, c, PAD]
  | twoPads {a b : Octet} (hq : ∀ x ∈ [a, b], x ∈ nib2b64) : WellFormed [a, b, PAD, PAD]

/-- The lowest `n` bits, the highest one first. -/
def bits (n x : ℕ) : List Bool := (List.range n).reverse.map x.testBit

/-- Six bits for each digit are eight for each octet of the value, and bits that do not fill one. -/
def Denotes (s value : List Octet) : Prop :=
  ∃ left, left.length < 8 ∧ ((s.filter (· ≠ PAD)).flatMap fun c => bits 6 (nib2b64.idxOf c)) = (value.flatMap fun a => bits 8 a.val) ++ left

/-- The groups that are looked at, up to the first one that ends with a pad, are of digits and pads. -/
def readable : List Octet → Bool
  | [] => true
  | p0 :: p1 :: p2 :: p3 :: p => validGroup p0 p1 p2 p3 && (p2 = PAD || p3 = PAD || readable p)
  | _ => false

/-- In these groups a pad is the last character of the string, or the last but one in front of a pad. -/
def padsLast : List Octet → Bool
  | p0 :: p1 :: p2 :: p3 :: p => p0 ≠ PAD && p1 ≠ PAD && (if p2 = PAD ∨ p3 = PAD then p3 = PAD && p = [] else padsLast p)
  | _ => true

theorem readable_eq (s : List Octet) : (decodeB64 s).2 = readable s := by
  fun_induction decodeB64 s <;> simp_all [readable, validGroup]

theorem mem_digits {c : Octet} : c ∈ nib2b64 ↔ b64Char c = true ∧ c ≠ PAD := by
  constructor
  · intro h
    obtain ⟨i, hi, rfl⟩ := List.mem_iff_getElem.mp h
    have hspec := sextet_spec (n := i) hi
    rw [sextet, List.getD_eq_getElem?_getD, List.getElem?_eq_getElem hi] at hspec
    exact ⟨hspec.1, hspec.2.1⟩
  · rintro ⟨hchar, hpad⟩
    obtain ⟨hc, hlt, -⟩ := sextet_place.1 c hchar hpad
    rw [← hc, sextet, List.getD_eq_getElem?_getD, List.getElem?_eq_getElem (show nib c < nib2b64.length from hlt)]
    exact List.getElem_mem hlt

theorem wellFormed_iff (s : List Octet) : WellFormed s ↔ readable s = true ∧ padsLast s = true := by
  constructor
  · intro h
    induction h with
    | nil => decide
    | group hq _ ih => simp_all [readable, padsLast, validGroup, mem_digits]
    | onePad hq | twoPads hq => simp_all [readable, padsLast, validGroup, mem_digits, show b64Char PAD = true by decide]
  · rintro ⟨hr, hl⟩
    fun_induction readable s with
    | case1 => exact .nil
    | case2 p0 p1 p2 p3 p ih =>
      simp only [padsLast, validGroup, Bool.and_eq_true, Bool.or_eq_true, decide_eq_true_eq] at hr hl
      obtain ⟨⟨⟨⟨h0, h1⟩, h2⟩, h3⟩, hp⟩ := hr
      by_cases hp2 : p2 = PAD
      · obtain ⟨⟨hp0, hp1⟩, rfl, rfl⟩ : (p0 ≠ PAD ∧ p1 ≠ PAD) ∧ p3 = PAD ∧ p = [] := by simpa [hp2] using hl
        rw [hp2]
        exact .twoPads (by simp [mem_digits, *])
      · by_cases hp3 : p3 = PAD
        · obtain ⟨⟨hp0, hp1⟩, rfl⟩ : (p0 ≠ PAD ∧ p1 ≠ PAD) ∧ p = [] := by simpa [hp3] using hl
          rw [hp3]
          exact .onePad (by simp [mem_digits, *])
        · obtain ⟨⟨hp0, hp1⟩, hlast⟩ : (p0 ≠ PAD ∧ p1 ≠ PAD) ∧ padsLast p = true := by simpa [hp2, hp3] using hl
          exact .group (by simp [mem_digits, *]) (ih (by simpa [hp2, hp3] using hp) hlast)
    | case3 => cases hr

theorem nib_digit {c : Octet} (h : c ∈ nib2b64) : nib2b64.idxOf c = nib c ∧ nib c < 64 := by
  obtain ⟨hc, hlt, -⟩ := sextet_place.1 c (mem_digits.mp h).1 (mem_digits.mp h).2
  exact ⟨by simpa [hc] using (sextet_place.2 ⟨nib c, hlt⟩).1, hlt⟩

theorem bits_add (i j x : ℕ) : bits (i + j) x = bits i (x >>> j) ++ bits j x := by
  rw [bits, Nat.add_comm i j, range_add, reverse_append, map_append, bits, bits, ← map_reverse, List.map_map]
  simp [Function.comp_def]

theorem bits_mod (n x : ℕ) : bits n (x % 2 ^ n) = bits n x := by
  refine map_congr_left fun i hi => ?_
  have hlt : i < n := by simpa using hi
  simp [Nat.testBit_mod_two_pow, hlt]

theorem byte_val (n : ℕ) : (byte n).val = n % 2 ^ 8 := rfl

theorem bits_byte (i j : ℕ) {x y : ℕ} (hy : y < 2 ^ j) (h : i + j = 8) : bits 8 (byte (x <<< j ||| y)).val = bits i x ++ bits j y := by
  have hshift : (x <<< j ||| y) >>> j = x := by
    rw [← Nat.shiftLeft_add_eq_or_of_lt hy, Nat.shiftLeft_eq, Nat.shiftRight_eq_div_pow, Nat.mul_comm,
      Nat.mul_add_div (Nat.two_pow_pos j), Nat.div_eq_of_lt hy, Nat.add_zero]
  have hlow : (x <<< j ||| y) % 2 ^ j = y := by
    rw [← Nat.shiftLeft_add_eq_or_of_lt hy, Nat.shiftLeft_eq, Nat.mul_add_mod_self_right, Nat.mod_eq_of_lt hy]
  rw [byte_val, bits_mod, ← h, bits_add, hshift, ← bits_mod j, hlow]

theorem wellFormed_denotes {s : List Octet} (h : WellFormed s) : Denotes s (decodeB64 s).1 := by
  have hpad : b64Char PAD = true := by decide
  have hsplit : ∀ i j x : ℕ, i + j = 6 → bits 6 x = bits i (x >>> j) ++ bits j (x &&& 2 ^ j - 1) := by
    intro i j x hij
    rw [Nat.and_two_pow_sub_one_eq_mod, bits_mod, ← hij, bits_add]
  have hfirst : ∀ {a b : Octet}, b ∈ nib2b64 → bits 8 (byte (nib a <<< 2 ||| nib b >>> 4)).val = bits 6 (nib a) ++ bits 2 (nib b >>> 4) := by
    intro a b hb
    have hlt := (nib_digit hb).2
    exact bits_byte 6 2 (by rw [Nat.shiftRight_eq_div_pow]; omega) rfl
  have hsecond : ∀ {b c : Octet}, c ∈ nib2b64 →
      bits 8 (byte ((nib b &&& 0x0f) <<< 4 ||| nib c >>> 2)).val = bits 4 (nib b &&& 0x0f) ++ bits 4 (nib c >>> 2) := by
    intro b c hc
    have hlt := (nib_digit hc).2
    exact bits_byte 4 4 (by rw [Nat.shiftRight_eq_div_pow]; omega) rfl
  induction h with
  | nil => exact ⟨[], by decide, rfl⟩
  | @group a b c d s hq _ ih =>
    obtain ⟨left, hlt, heq⟩ := ih
    obtain ⟨ha, hb, hc, hd⟩ : a ∈ nib2b64 ∧ b ∈ nib2b64 ∧ c ∈ nib2b64 ∧ d ∈ nib2b64 := by simpa using hq
    refine ⟨left, hlt, ?_⟩
    have hthird := bits_byte 2 6 (x := nib c &&& 0x03) (nib_digit hd).2 rfl
    simpa [decodeB64_group, validGroup, quadValue, mem_digits.mp ha, mem_digits.mp hb, mem_digits.mp hc, mem_digits.mp hd,
      (nib_digit ha).1, (nib_digit hb).1, (nib_digit hc).1, (nib_digit hd).1, hfirst hb, hsecond hc, hthird,
      hsplit 2 4 (nib b) rfl, hsplit 4 2 (nib c) rfl] using heq
  | @onePad a b c hq =>
    obtain ⟨ha, hb, hc⟩ : a ∈ nib2b64 ∧ b ∈ nib2b64 ∧ c ∈ nib2b64 := by simpa using hq
    refine ⟨bits 2 (nib c &&& 0x03), by simp [bits], ?_⟩
    simp [decodeB64_group, validGroup, quadValue, mem_digits.mp ha, mem_digits.mp hb, mem_digits.mp hc, hpad,
      (nib_digit ha).1, (nib_digit hb).1, (nib_digit hc).1, hfirst hb, hsecond hc, hsplit 2 4 (nib b) rfl, hsplit 4 2 (nib c) rfl]
  | @twoPads a b hq =>
    obtain ⟨ha, hb⟩ : a ∈ nib2b64 ∧ b ∈ nib2b64 := by simpa using hq
    refine ⟨bits 4 (nib b &&& 0x0f), by simp [bits], ?_⟩
    simp [decodeB64_group, validGroup, quadValue, mem_digits.mp ha, mem_digits.mp hb, hpad,
      (nib_digit ha).1, (nib_digit hb).1, hfirst hb, hsplit 2 4 (nib b) rfl]

/-- A run on the string reads and overwrites only what it may, it succeeds for the well-formed strings alone and yields the octets
that they denote, which are those that `lutil_b64_pton` stores where it accepts the string. -/
def DecodesExactly (s : List Octet) : Prop :=
  ∃ mem' len ok, ldapIntDecodeB64Inplace (s ++ [0]) s.length = some (mem', len, ok) ∧ (ok = true ↔ WellFormed s) ∧
    (ok = true → Denotes s (mem'.take len) ∧ ∀ targsize v, lutilB64Pton targsize s = some v → mem'.take len = v)

theorem decode_b64_iff (s : List Octet) : DecodesExactly s ↔ (readable s = true → padsLast s = true) := by
  obtain ⟨mem', hrun, htake⟩ := inplace_decodes s
  rw [readable_eq] at hrun
  constructor
  · rintro ⟨_, _, _, hrun', hok, -⟩ hr
    rw [hrun, hr] at hrun'
    cases hrun'
    exact ((wellFormed_iff s).mp (hok.mp rfl)).2
  · intro h
    have hok : readable s = true ↔ WellFormed s := by
      rw [wellFormed_iff]
      exact ⟨fun hr => ⟨hr, h hr⟩, And.left⟩
    refine ⟨mem', _, _, hrun, hok, fun hr => ?_⟩
    rw [htake]
    exact ⟨wellFormed_denotes (hok.mp hr), fun targsize v hv => (pton_decode ((readable_eq s).trans hr) hv).symm⟩

/-- A pad in front is taken for a digit. -/
theorem decode_b64_misplaced : ¬ DecodesExactly (text "=AAA") := by
  rintro ⟨mem', len, ok, hrun, hok, -⟩
  obtain ⟨mem'', hrun', -⟩ := inplace_decodes (text "=AAA")
  rw [hrun'] at hrun
  cases hrun
  exact absurd ((wellFormed_iff _).mp (hok.mp (by decide))).2 (by decide)

end Libreldap
end ReOpenLDAP
