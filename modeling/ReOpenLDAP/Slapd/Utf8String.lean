import ReOpenLDAP.Lib.Ascii

/-!
# Slapd.Utf8String

`UTF8StringValidate`: the check of texts in UTF-8.

A text is read with the NUL behind it. A read behind that has no result. True stands for `LDAP_SUCCESS`, false for
`LDAP_INVALID_SYNTAX`.
-/

namespace ReOpenLDAP
namespace Slapd
namespace Utf8

open Ascii List Option

def ldapUtf8Lentab : List ℕ :=
  List.replicate 66 0 ++ List.replicate 30 2 ++ List.replicate 16 3 ++ List.replicate 8 4 ++ List.replicate 4 5 ++
    List.replicate 2 6 ++ List.replicate 2 0

def ldapUtf8Mintab : List Octet :=
  0x20 :: List.replicate 15 0x80 ++ 0x30 :: List.replicate 7 0x80 ++ 0x38 :: List.replicate 3 0x80 ++
    [0x3c, 0x80, 0x00, 0x00]

def isAscii (c : Octet) : Bool := c &&& 0x80 = 0

/-- `(c & 0xC0) == 0x80` -/
def isTail (c : Octet) : Bool := c &&& 0xC0 = 0x80

/-- `LDAP_UTF8_CHARLEN` -/
def charlen (c : Octet) : ℕ := if isAscii c then 1 else ldapUtf8Lentab.getD (c ^^^ 0x80).val 0

/-- `ldap_utf8_mintab[c & 0x1f] & second` -/
def shortest (c second : Octet) : Bool := ldapUtf8Mintab.getD (c &&& 0x1f).val 0 &&& second ≠ 0

/-- `LDAP_UTF8_CHARLEN2` -/
def charlen2 (u : List Octet) : Option ℕ := do
  let c ← u[0]?
  if charlen c < 3 then return charlen c
  let second ← u[1]?
  return if shortest c second then charlen c else 0

/-- The cases of `switch (len)`, from `u[k]` down to `u[1]`. -/
def tails (u : List Octet) : ℕ → Option Bool
  | 0 => some true
  | k + 1 => u[k + 1]?.bind fun c => if isTail c then tails u k else some false

/-- The loop of `ldap_utf8_next`, for at most `k` octets from `u[i]` on. -/
def nextFrom (u : List Octet) : ℕ → ℕ → Option ℕ
  | 0, i => some i
  | k + 1, i => u[i]?.bind fun c => if isTail c then nextFrom u k (i + 1) else some i

/-- `LDAP_UTF8_OFFSET` -/
def offset (u : List Octet) : Option ℕ := u[0]?.bind fun c => if isAscii c then some 1 else nextFrom u 5 1

def checkChar (u : List Octet) : Option (Option ℕ) := do
  let len ← charlen2 u
  if len = 0 then return none
  if ← tails u (len - 1) then return if (← offset u) = len then some len else none
  else return none

/-- `for (; u < end; u += len)` and the check behind it, with the distance to the end. -/
def validateLoop (u : List Octet) (left : ℤ) : Option Bool :=
  if left ≤ 0 then some (left = 0)
  else (checkChar u).bind fun
    | some (len + 1) => validateLoop (u.drop (len + 1)) (left - (len + 1 : ℕ))
    | _ => some false
termination_by left.toNat
decreasing_by omega

def utf8StringValidate (directoryString : Bool) (s : List Octet) : Option Bool :=
  if s = [] ∧ directoryString = true then some false else validateLoop (s ++ [0]) s.length

inductive Utf8Char : List Octet → Prop where
  | mk {c : Octet} {tail : List Octet} : charlen c = tail.length + 1 → (∀ t ∈ tail, isTail t = true) →
      (∀ second, 3 ≤ charlen c → tail.head? = some second → shortest c second = true) → Utf8Char (c :: tail)

inductive Utf8String : List Octet → Prop where
  | nil : Utf8String []
  | cons {w rest : List Octet} : Utf8Char w → Utf8String rest → Utf8String (w ++ rest)

def Cut (s : List Octet) : Prop :=
  ∃ c second tail, s = c :: second :: tail ∧ tail.length + 3 < charlen c ∧ shortest c second = true

inductive Truncated : List Octet → Prop where
  | cut {s : List Octet} : Cut s → Truncated s
  | cons {w rest : List Octet} : Utf8Char w → Truncated rest → Truncated (w ++ rest)

theorem charlen_spec : ∀ c, charlen c ≤ 6 ∧ (isTail c = true → charlen c = 0) ∧ (isAscii c = true ↔ charlen c = 1) ∧
    (isPrint c = true → charlen c = 1 ∧ c ≠ 0) ∧ shortest c 0 = false := by
  decide +kernel

theorem shortest_zero (c : Octet) : shortest c 0 = false := (charlen_spec c).2.2.2.2

variable {w rest s : List Octet} {c : Octet}

theorem Utf8Char.ne_nil (h : Utf8Char w) : w ≠ [] := by
  cases h
  exact cons_ne_nil _ _

theorem Utf8Char.unique {w' rest' : List Octet} (h : Utf8Char w) (h' : Utf8Char w') (happ : w ++ rest = w' ++ rest') :
    w = w' ∧ rest = rest' := by
  cases h with
  | @mk c tail hlen _ _ =>
    cases h' with
    | @mk c' tail' hlen' _ _ =>
      rw [cons_append, cons_append] at happ
      obtain ⟨rfl, htails⟩ := List.cons.inj happ
      have hlen'' : tail.length = tail'.length := by omega
      obtain ⟨rfl, rfl⟩ := append_inj htails hlen''
      exact ⟨rfl, rfl⟩

theorem Utf8Char.not_cut (h : Utf8Char w) : ¬ Cut (w ++ rest) := by
  rintro ⟨c, second, tail, happ, hlen, -⟩
  cases h with
  | @mk c' tail' hlen' _ _ =>
    obtain ⟨rfl, happ⟩ := List.cons.inj happ
    have := congrArg List.length happ
    simp only [length_append, length_cons] at this
    omega

theorem utf8String_append_iff (h : Utf8Char w) : Utf8String (w ++ rest) ↔ Utf8String rest := by
  constructor
  · intro hs
    generalize happ : w ++ rest = s at hs
    cases hs with
    | nil => exact absurd (List.append_eq_nil_iff.mp happ).1 h.ne_nil
    | cons hw hrest => exact (h.unique hw happ).2 ▸ hrest
  · exact .cons h

theorem truncated_append_iff (h : Utf8Char w) : Truncated (w ++ rest) ↔ Truncated rest := by
  constructor
  · intro hs
    generalize happ : w ++ rest = s at hs
    cases hs with
    | cut hcut => exact absurd (happ ▸ hcut) h.not_cut
    | cons hw hrest => exact (h.unique hw happ).2 ▸ hrest
  · exact .cons h

theorem not_utf8String (hne : s ≠ []) (h : ∀ w rest, s = w ++ rest → ¬ Utf8Char w) : ¬ Utf8String s := by
  intro hs
  cases hs with
  | nil => exact hne rfl
  | cons hw _ => exact h _ _ rfl hw

theorem truncated_iff_cut (h : ∀ w rest, s = w ++ rest → ¬ Utf8Char w) : Truncated s ↔ Cut s := by
  constructor
  · intro hs
    cases hs with
    | cut hcut => exact hcut
    | cons hw _ => exact absurd hw (h _ _ rfl)
  · exact .cut

/-! ## One sequence -/

theorem tails_in {u : List Octet} {k : ℕ} (h : k < u.length) :
    tails u k = some ((u.take (k + 1)).tail.all isTail) := by
  induction k with
  | zero =>
    cases u with
    | nil => cases h
    | cons c u => simp [tails]
  | succ k ih =>
    have hk : u[k + 1]? = some u[k + 1] := List.getElem?_eq_getElem h
    have htake : (u.take (k + 2)).tail = (u.take (k + 1)).tail ++ [u[k + 1]] := by
      cases u with
      | nil => cases h
      | cons c u =>
        simp only [take_succ_cons, tail_cons, getElem_cons_succ]
        exact (take_append_getElem (Nat.lt_of_succ_lt_succ h)).symm
    rw [tails, hk, bind_some, htake]
    cases ht : isTail u[k + 1] with
    | true =>
      rw [if_pos rfl, ih (Nat.lt_of_succ_lt h), all_append]
      simp [ht]
    | false =>
      rw [if_neg Bool.false_ne_true, all_append]
      simp [ht]

theorem tails_out {u : List Octet} {k : ℕ} (hk : 0 < k) (h : u.length ≤ k) : tails u k = none := by
  obtain ⟨k, rfl⟩ := Nat.exists_eq_succ_of_ne_zero hk.ne'
  rw [tails, List.getElem?_eq_none h]
  rfl

theorem nextFrom_tails {pre tail rest : List Octet} {k : ℕ} (htail : ∀ t ∈ tail, isTail t = true) (hk : tail.length ≤ k) :
    nextFrom (pre ++ (tail ++ rest)) k pre.length =
      nextFrom (pre ++ (tail ++ rest)) (k - tail.length) (pre.length + tail.length) := by
  induction tail generalizing pre k with
  | nil => rfl
  | cons t tail ih =>
    obtain ⟨ht, htail⟩ := List.forall_mem_cons.mp htail
    obtain ⟨k, rfl⟩ := Nat.exists_eq_add_of_le' (Nat.one_le_of_lt hk)
    have hget : (pre ++ (t :: tail ++ rest))[pre.length]? = some t := by simp
    have hpre : pre ++ (t :: tail ++ rest) = (pre ++ [t]) ++ (tail ++ rest) := by simp
    have hih := @ih (pre ++ [t]) _ htail (Nat.le_of_succ_le_succ hk)
    rw [nextFrom, hget, bind_some, if_pos ht, hpre]
    rw [length_append, length_singleton] at hih
    rw [hih, length_cons]
    congr 1 <;> omega

theorem nextFrom_nul {s : List Octet} {k i : ℕ} (hi : i ≤ s.length) : ∃ m, nextFrom (s ++ [0]) k i = some m ∧ i ≤ m := by
  induction k generalizing i with
  | zero => exact ⟨i, rfl, Nat.le_refl i⟩
  | succ k ih =>
    have hin : i < (s ++ [0]).length := by
      rw [length_append, length_singleton]
      omega
    have hget : (s ++ [0])[i]? = some (s ++ [0])[i] := List.getElem?_eq_getElem hin
    rw [nextFrom, hget, bind_some]
    split
    · next ht =>
      have hlt : i < s.length := by
        rcases Nat.lt_or_eq_of_le hi with h | rfl
        · exact h
        · rw [getElem_append_right (Nat.le_refl _)] at ht
          simp [isTail] at ht
      obtain ⟨m, hm, hle⟩ := ih hlt
      exact ⟨m, hm, by omega⟩
    · exact ⟨i, rfl, Nat.le_refl i⟩

theorem charlen2_char (h : Utf8Char w) : charlen2 (w ++ rest) = some w.length := by
  cases h with
  | @mk c tail hlen htail hshort =>
    rw [charlen2]
    simp only [cons_append, List.getElem?_cons_zero, bind_eq_bind, bind_some, length_cons, ← hlen]
    by_cases hlt : charlen c < 3
    · rw [if_pos hlt]
      rfl
    · rw [if_neg hlt]
      cases tail with
      | nil =>
        rw [length_nil] at hlen
        omega
      | cons second tail =>
        simp [hshort second (Nat.le_of_not_lt hlt) rfl]

theorem tails_char (h : Utf8Char w) : tails (w ++ rest) (w.length - 1) = some true := by
  cases h with
  | @mk c tail hlen htail hshort =>
    rw [tails_in (by rw [length_append, length_cons]; omega)]
    simpa using htail

theorem checkChar_char {w rest : List Octet} (h : Utf8Char w) :
    checkChar (w ++ (rest ++ [0])) = some (some w.length) ∨
      checkChar (w ++ (rest ++ [0])) = some none ∧ ∃ t rest', rest = t :: rest' ∧ isTail t = true := by
  have hpos : w.length ≠ 0 := mt List.length_eq_zero_iff.mp h.ne_nil
  have hcheck : checkChar (w ++ (rest ++ [0])) =
      (offset (w ++ (rest ++ [0]))).bind fun m => some (if m = w.length then some w.length else none) := by
    rw [checkChar, charlen2_char h]
    simp only [bind_eq_bind, bind_some, if_neg hpos, tails_char h, if_true]
    rfl
  rw [hcheck]
  cases h with
  | @mk c tail hlen htail hshort =>
    have hoffset : offset (c :: tail ++ (rest ++ [0])) =
        if isAscii c then some 1 else nextFrom (c :: tail ++ (rest ++ [0])) 5 1 := rfl
    have hle := (charlen_spec c).1
    rw [hoffset]
    by_cases hascii : isAscii c = true
    · have hone := (charlen_spec c).2.2.1.mp hascii
      left
      rw [if_pos hascii, bind_some, if_pos (by rw [length_cons]; omega)]
    · rw [if_neg hascii]
      have hnext := @nextFrom_tails [c] tail (rest ++ [0]) 5 htail (by omega)
      rw [length_singleton, singleton_append] at hnext
      rw [cons_append, hnext]
      cases hk : 5 - tail.length with
      | zero =>
        left
        rw [nextFrom, bind_some, if_pos (by rw [length_cons]; omega)]
      | succ k =>
        have hget : (c :: (tail ++ (rest ++ [0])))[1 + tail.length]? = (rest ++ [0])[0]? := by
          rw [Nat.add_comm, List.getElem?_cons_succ, List.getElem?_append_right (Nat.le_refl _), Nat.sub_self]
        rw [nextFrom, hget]
        cases rest with
        | nil =>
          left
          simp [isTail, Nat.add_comm]
        | cons t rest =>
          simp only [cons_append, List.getElem?_cons_zero, bind_some]
          by_cases ht : isTail t = true
          · right
            refine ⟨?_, t, rest, rfl, ht⟩
            obtain ⟨m, hm, hge⟩ := @nextFrom_nul (c :: (tail ++ t :: rest)) k (1 + tail.length + 1) (by simp; omega)
            have happ : c :: (tail ++ t :: rest) ++ [0] = c :: (tail ++ (t :: (rest ++ [0]))) := by simp
            rw [happ] at hm
            rw [if_pos ht, hm, bind_some, if_neg (by rw [length_cons]; omega)]
          · left
            rw [if_neg ht, bind_some, if_pos (by rw [length_cons]; omega)]

theorem tails_no_char (h : ∀ w rest, c :: s = w ++ rest → ¬ Utf8Char w) (hlen : 2 ≤ charlen c)
    (hshort : ∀ second, 3 ≤ charlen c → s.head? = some second → shortest c second = true) :
    s.length + 2 < charlen c ∧ tails (c :: (s ++ [0])) (charlen c - 1) = none ∨
      charlen c ≤ s.length + 2 ∧ tails (c :: (s ++ [0])) (charlen c - 1) = some false := by
  obtain ⟨k, hk⟩ := Nat.exists_eq_add_of_le' hlen
  rw [hk, Nat.add_sub_cancel_right (k + 1) 1]
  by_cases hroom : s.length < k
  · exact .inl ⟨by omega, tails_out (Nat.succ_pos k) (by simp; omega)⟩
  · refine .inr ⟨by omega, ?_⟩
    rw [tails_in (by simp; omega), Option.some.injEq, ← Bool.not_eq_true, List.all_eq_true, take_succ_cons, tail_cons]
    intro htail
    have hin : k + 1 ≤ s.length := by
      by_contra hlast
      -- the NUL is one of them
      rw [take_of_length_le (by simp; omega)] at htail
      exact absurd (htail 0 (by simp)) (by decide)
    rw [take_append_of_le_length hin] at htail
    refine h (c :: s.take (k + 1)) (s.drop (k + 1)) (by simp) ⟨by simp; omega, htail, fun second h3 hhead => ?_⟩
    refine hshort second h3 ?_
    rw [← hhead, List.head?_take, if_neg (Nat.succ_ne_zero k)]

theorem checkChar_no_char (h : ∀ w rest, c :: s = w ++ rest → ¬ Utf8Char w) :
    Cut (c :: s) ∧ checkChar (c :: s ++ [0]) = none ∨ ¬ Cut (c :: s) ∧ checkChar (c :: s ++ [0]) = some none := by
  have hcut : Cut (c :: s) ↔ ∃ second, s.head? = some second ∧ s.length + 2 < charlen c ∧ shortest c second = true := by
    constructor
    · rintro ⟨c', second, tail, heq, hlt, hshort⟩
      obtain ⟨rfl, rfl⟩ := List.cons.inj heq
      exact ⟨second, rfl, hlt, hshort⟩
    · rintro ⟨second, hhead, hlt, hshort⟩
      obtain ⟨tail, rfl⟩ : ∃ tail, s = second :: tail := List.head?_eq_some_iff.mp hhead
      exact ⟨c, second, tail, rfl, hlt, hshort⟩
  have hget : (c :: (s ++ [0]))[1]? = some (s.head?.getD 0) := by cases s <;> rfl
  have hzero : charlen2 (c :: (s ++ [0])) = some 0 → checkChar (c :: s ++ [0]) = some none := by
    intro hlen
    rw [checkChar, cons_append, hlen]
    rfl
  have htails : 2 ≤ charlen c → charlen2 (c :: (s ++ [0])) = some (charlen c) → checkChar (c :: s ++ [0]) =
      (tails (c :: (s ++ [0])) (charlen c - 1)).bind fun right =>
        if right then (offset (c :: (s ++ [0]))).bind fun m => some (if m = charlen c then some (charlen c) else none)
        else some none := by
    intro h2 hlen
    rw [checkChar, cons_append, hlen]
    simp only [bind_eq_bind, bind_some, if_neg (show charlen c ≠ 0 by omega)]
    rfl
  have hlen2 : charlen2 (c :: (s ++ [0])) =
      if charlen c < 3 then some (charlen c) else some (if shortest c (s.head?.getD 0) then charlen c else 0) := by
    rw [charlen2]
    simp only [List.getElem?_cons_zero, bind_eq_bind, bind_some, hget]
    rfl
  by_cases h1 : charlen c < 2
  · refine .inr ⟨fun hc => ?_, hzero ?_⟩
    · obtain ⟨-, -, hlt, -⟩ := hcut.mp hc
      omega
    · rw [hlen2, if_pos (by omega), Option.some.injEq]
      by_contra h0
      exact h [c] s rfl ⟨by simp; omega, by simp, by simp⟩
  · rw [Nat.not_lt] at h1
    by_cases hshort : charlen c < 3 ∨ shortest c (s.head?.getD 0) = true
    · have hlen : charlen2 (c :: (s ++ [0])) = some (charlen c) := by
        rw [hlen2]
        split
        · rfl
        · next h3 => rw [if_pos (hshort.resolve_left h3)]
      rw [htails h1 hlen]
      have hsecond : ∀ second, 3 ≤ charlen c → s.head? = some second → shortest c second = true := by
        intro second h3 hhead
        have := hshort.resolve_left (by omega)
        rwa [hhead] at this
      rcases tails_no_char h h1 hsecond with ⟨hlt, hnone⟩ | ⟨hle, hfalse⟩
      · left
        rw [hnone]
        refine ⟨hcut.mpr ?_, rfl⟩
        cases s with
        | nil => exact absurd (hshort.resolve_left (by simp at hlt; omega)) (by simp [shortest_zero])
        | cons second s => exact ⟨second, rfl, hlt, hsecond second (by omega) rfl⟩
      · right
        rw [hfalse]
        refine ⟨fun hc => ?_, rfl⟩
        obtain ⟨-, -, hlt, -⟩ := hcut.mp hc
        omega
    · obtain ⟨h3, hshort⟩ := not_or.mp hshort
      refine .inr ⟨fun hc => ?_, hzero ?_⟩
      · obtain ⟨second, hhead, -, hright⟩ := hcut.mp hc
        rw [hhead] at hshort
        exact hshort hright
      · rw [hlen2, if_neg h3, if_neg hshort]

theorem validateLoop_eq (s : List Octet) :
    Truncated s ∧ validateLoop (s ++ [0]) s.length = none ∨
      ¬ Truncated s ∧ ∃ ok, validateLoop (s ++ [0]) s.length = some ok ∧ (ok = true ↔ Utf8String s) := by
  induction hn : s.length using Nat.strong_induction_on generalizing s with
  | _ n ih =>
    subst hn
    cases s with
    | nil =>
      right
      refine ⟨?_, true, by rw [validateLoop]; rfl, fun _ => .nil, fun _ => rfl⟩
      rw [truncated_iff_cut fun w rest happ hw => hw.ne_nil (List.append_eq_nil_iff.mp happ.symm).1]
      rintro ⟨_, _, _, heq, -⟩
      cases heq
    | cons c s =>
      have hpos : ¬ ((c :: s).length : ℤ) ≤ 0 := by simp
      by_cases hchar : ∃ w rest, c :: s = w ++ rest ∧ Utf8Char w
      · obtain ⟨w, rest, happ, hw⟩ := hchar
        rw [happ, truncated_append_iff hw, utf8String_append_iff hw]
        rw [validateLoop, if_neg (happ ▸ hpos), append_assoc]
        have hwpos := List.length_pos_iff.mpr hw.ne_nil
        have hlt : rest.length < (c :: s).length := by
          rw [happ, length_append]
          omega
        rcases @checkChar_char w rest hw with hcheck | ⟨hcheck, t, rest', hrest, ht⟩
        · obtain ⟨len, hlen⟩ := Nat.exists_eq_add_of_lt hwpos
          rw [Nat.zero_add] at hlen
          have hleft : ((w ++ rest).length : ℤ) - (len + 1 : ℕ) = rest.length := by
            rw [length_append, hlen]
            omega
          have hih := ih rest.length hlt rest rfl
          simp only [hcheck, bind_some, hlen, hleft]
          rwa [← hlen, drop_left]
        · -- the octet that is left over begins no sequence
          subst hrest
          have hno : ∀ w' rest, t :: rest' = w' ++ rest → ¬ Utf8Char w' := by
            intro w' rest happ' hw'
            cases hw' with
            | @mk c' tail hlen' _ _ =>
              obtain ⟨rfl, -⟩ := List.cons.inj happ'
              rw [(charlen_spec t).2.1 ht] at hlen'
              omega
          right
          rw [hcheck, truncated_iff_cut hno]
          refine ⟨?_, false, rfl, by simp, fun hs => absurd hs (not_utf8String (cons_ne_nil t rest') hno)⟩
          rintro ⟨c', second, tail, heq, hlt', -⟩
          obtain ⟨rfl, -⟩ := List.cons.inj heq
          rw [(charlen_spec t).2.1 ht] at hlt'
          omega
      · have hno : ∀ w rest, c :: s = w ++ rest → ¬ Utf8Char w := fun w rest happ hw => hchar ⟨w, rest, happ, hw⟩
        rw [truncated_iff_cut hno, validateLoop, if_neg hpos]
        rcases checkChar_no_char hno with ⟨hcut, hcheck⟩ | ⟨hcut, hcheck⟩
        · left
          rw [hcheck]
          exact ⟨hcut, rfl⟩
        · right
          rw [hcheck]
          exact ⟨hcut, false, rfl, by simp, fun hs => absurd hs (not_utf8String (cons_ne_nil c s) hno)⟩

/-- The code settles the form of every text but those that are truncated. -/
theorem utf8StringValidate_iff (directoryString : Bool) (s : List Octet) :
    (∃ ok, utf8StringValidate directoryString s = some ok ∧
      (ok = true ↔ Utf8String s ∧ (directoryString = true → s ≠ []))) ↔ ¬ Truncated s := by
  unfold utf8StringValidate
  by_cases hempty : s = [] ∧ directoryString = true
  · obtain ⟨rfl, rfl⟩ := hempty
    rw [if_pos ⟨rfl, rfl⟩]
    refine iff_of_true ⟨false, rfl, by simp⟩ ?_
    rw [truncated_iff_cut fun w rest happ hw => hw.ne_nil (List.append_eq_nil_iff.mp happ.symm).1]
    rintro ⟨_, _, _, heq, -⟩
    cases heq
  · rw [if_neg hempty]
    have hand : Utf8String s ∧ (directoryString = true → s ≠ []) ↔ Utf8String s :=
      and_iff_left fun hdir hnil => hempty ⟨hnil, hdir⟩
    rw [hand]
    rcases validateLoop_eq s with ⟨hcut, hnone⟩ | ⟨hcut, hok⟩
    · rw [hnone]
      simp [hcut]
    · exact iff_of_true hok hcut

/-- Of `FC 84` the code looks at the octet at index 5; the NUL is at index 2. -/
theorem utf8StringValidate_overread : utf8StringValidate false [0xFC, 0x84] = none := by
  rw [utf8StringValidate, if_neg (by simp), validateLoop]
  rfl

end Utf8
end Slapd
end ReOpenLDAP
