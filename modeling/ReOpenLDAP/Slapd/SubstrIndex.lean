import Mathlib.Algebra.Order.Ring.Int
import Mathlib.Data.List.Infix
import Mathlib.Data.Nat.Bitwise
import Mathlib.Algebra.Order.BigOperators.Group.List
import Mathlib.Algebra.Order.Group.Nat

/-!
# Slapd.SubstrIndex

Substring indexes. A value has a key for each short initial and final part, and for each infix of one length.
-/

namespace ReOpenLDAP
namespace Slapd

open List

/-- The bytes of a `struct berval`. -/
structure Berval where
  bytes : List Nat
  lt : bytes.length < 2 ^ 64

/-- `index_substr_if_minlen` and the other settings, as the configuration admits them. -/
structure SubstrConf where
  index_substr_if_minlen : Nat
  index_substr_if_maxlen : Nat
  index_substr_any_len : Nat
  index_substr_any_step : Nat
  minlen_pos : 1 ≤ index_substr_if_minlen
  minlen_le : index_substr_if_minlen ≤ index_substr_if_maxlen
  maxlen_lt : index_substr_if_maxlen < 2 ^ 32
  any_len_pos : 1 ≤ index_substr_any_len
  any_len_lt : index_substr_any_len < 2 ^ 32
  any_step_pos : 1 ≤ index_substr_any_step

/-- `SubstringsAssertion`; a part that is `BER_BVISNULL` is `none`. -/
structure SubstringsAssertion where
  sa_initial : Option Berval
  sa_any : Option (List Berval)
  sa_final : Option Berval

def SLAP_INDEX_SUBSTR : Nat := 0x0010
def SLAP_INDEX_SUBSTR_INITIAL : Nat := SLAP_INDEX_SUBSTR ||| 0x0100
def SLAP_INDEX_SUBSTR_ANY : Nat := SLAP_INDEX_SUBSTR ||| 0x0200
def SLAP_INDEX_SUBSTR_FINAL : Nat := SLAP_INDEX_SUBSTR ||| 0x0400

def SLAP_INDEX_SUBSTR_PREFIX : Char := '*'
def SLAP_INDEX_SUBSTR_INITIAL_PREFIX : Char := '^'
def SLAP_INDEX_SUBSTR_FINAL_PREFIX : Char := '$'

def has (flags bits : Nat) : Bool := flags &&& bits ≠ 0

/-- What is left behind the first `part` in `left`, when parts of `inlen` bytes are still to be found. -/
def seekPart (inlen : Nat) (part left : List Nat) : Option (List Nat) :=
  if left.length < inlen then none
  else
    match _hp : left.dropWhile (fun b => ¬ part.head? = some b) with
    | [] => none
    | b :: rest =>
      if (b :: rest).length < part.length then none
      else if (b :: rest).take part.length = part then some ((b :: rest).drop part.length)
      else seekPart inlen part rest
termination_by left.length
decreasing_by
  have := (dropWhile_sublist (l := left) (fun b => ¬ part.head? = some b)).length_le
  rw [_hp, length_cons] at this
  omega

/-- The loop over `sa_any`. -/
def matchAny (inlen : Nat) (left : List Nat) : List Berval → Bool
  | [] => true
  | part :: parts =>
    if left.length < inlen then false
    else if part.bytes = [] then matchAny inlen left parts
    else
      match seekPart inlen part.bytes left with
      | none => false
      | some left => matchAny (inlen - part.bytes.length) left parts

def lengthOf : Option Berval → Nat
  | none => 0
  | some part => part.bytes.length

/-- The part of `octetStringSubstringsMatch` behind the initial part. -/
def matchFinal (sub : SubstringsAssertion) (inlen : Nat) (left : List Nat) : Bool :=
  match sub.sa_final with
  | none => matchAny inlen left (sub.sa_any.getD [])
  | some final =>
    if left.length < inlen then false
    else if left.drop (left.length - final.bytes.length) ≠ final.bytes then false
    else matchAny (inlen - final.bytes.length) (left.take (left.length - final.bytes.length)) (sub.sa_any.getD [])

/-- `octetStringSubstringsMatch`: whether `*matchp` is 0. -/
def octetStringSubstringsMatch (sub : SubstringsAssertion) (value : Berval) : Bool :=
  let anylen := ((sub.sa_any.getD []).map fun part => part.bytes.length).sum
  let inlen := lengthOf sub.sa_initial + anylen + lengthOf sub.sa_final
  let left := value.bytes
  match sub.sa_initial with
  | none => matchFinal sub inlen left
  | some initial =>
    if left.length < inlen then false
    else if left.take initial.bytes.length ≠ initial.bytes then false
    else matchFinal sub (inlen - initial.bytes.length) (left.drop initial.bytes.length)

/-- A `hashIter` over `len` bytes of `text` from `pos` on, and the key that is stored. -/
structure HashCall where
  pre : Char
  text : List Nat
  pos : Nat
  len : Nat

namespace HashCall

def Inside (c : HashCall) : Prop := c.pos + c.len ≤ c.text.length

instance (c : HashCall) : Decidable c.Inside := inferInstanceAs (Decidable (_ ≤ _))

def bytes (c : HashCall) : List Nat := (c.text.drop c.pos).take c.len

end HashCall

inductive Fault where
  | outside
  | overflow
deriving DecidableEq

section

variable {α : Type*}

/-- The keys of some calls, stored in an array for `nkeys` keys. -/
def storeKeys (hash : Char → List Nat → α) (nkeys : Nat) : List HashCall → List α → Except Fault (List α)
  | [], keys => .ok keys
  | c :: calls, keys =>
    if ¬ c.Inside then .error .outside
    else if nkeys ≤ keys.length then .error .overflow
    else storeKeys hash nkeys calls (keys ++ [hash c.pre c.bytes])

end

/-- The difference of two `ber_len_t`. -/
def subLen (a b : Nat) : Nat := (a + 2 ^ 64 - b) % 2 ^ 64

/-- The values of `j` in `for (j = start; j <= bound; j += step)`. -/
def forSteps (start bound step : Nat) : List Nat := List.range' start ((bound + step - start) / step) step

section

variable (conf : SubstrConf) (flags : Nat)

/-- How many keys the initial or the final parts of a value have. The counts are of bytes in memory and do not wrap. -/
def countIf (value : Berval) : Nat :=
  if conf.index_substr_if_maxlen ≤ value.bytes.length then
    conf.index_substr_if_maxlen - (conf.index_substr_if_minlen - 1)
  else if conf.index_substr_if_minlen ≤ value.bytes.length then
    value.bytes.length - (conf.index_substr_if_minlen - 1)
  else 0

def countIndex (value : Berval) : Nat :=
  (if has flags SLAP_INDEX_SUBSTR_INITIAL then countIf conf value else 0) +
  (if has flags SLAP_INDEX_SUBSTR_ANY then
    if conf.index_substr_any_len ≤ value.bytes.length then value.bytes.length - (conf.index_substr_any_len - 1) else 0
  else 0) +
  (if has flags SLAP_INDEX_SUBSTR_FINAL then countIf conf value else 0)

def indexAnyCalls (v : List Nat) : List HashCall :=
  if has flags SLAP_INDEX_SUBSTR_ANY ∧ conf.index_substr_any_len ≤ v.length then
    (List.range (v.length - (conf.index_substr_any_len - 1))).map fun j =>
      ⟨SLAP_INDEX_SUBSTR_PREFIX, v, j, conf.index_substr_any_len⟩
  else []

/-- The calls for the first and the last `j` bytes of a value. -/
def indexIfCalls (v : List Nat) (j : Nat) : List HashCall :=
  (if has flags SLAP_INDEX_SUBSTR_INITIAL then [⟨SLAP_INDEX_SUBSTR_INITIAL_PREFIX, v, 0, j⟩] else []) ++
  (if has flags SLAP_INDEX_SUBSTR_FINAL then [⟨SLAP_INDEX_SUBSTR_FINAL_PREFIX, v, v.length - j, j⟩] else [])

/-- The calls for one value in the second loop of `octetStringSubstringsIndexer`. -/
def indexCalls (value : Berval) : List HashCall :=
  let v := value.bytes
  if v.length < conf.index_substr_if_minlen then indexAnyCalls conf flags v
  else
    let max := if conf.index_substr_if_maxlen < v.length then conf.index_substr_if_maxlen else v.length
    indexAnyCalls conf flags v ++ (forSteps conf.index_substr_if_minlen max 1).flatMap (indexIfCalls flags v)

def octetStringSubstringsIndexer {α : Type*} (hash : Char → List Nat → α) (values : List Berval) :
    Except Fault (List α) :=
  let nkeys := (values.map (countIndex conf flags)).sum
  if nkeys = 0 then .ok []
  else storeKeys hash nkeys (values.flatMap (indexCalls conf flags)) []

def countPart (bit : Nat) : Option Berval → Nat
  | none => 0
  | some part =>
    if has flags bit ∧ conf.index_substr_if_minlen ≤ part.bytes.length then
      1 + if conf.index_substr_if_maxlen < part.bytes.length ∧ has flags SLAP_INDEX_SUBSTR_ANY then
        1 + (part.bytes.length - conf.index_substr_if_maxlen) / conf.index_substr_any_step
      else 0
    else 0

def countFilter (sa : SubstringsAssertion) : Nat :=
  countPart conf flags SLAP_INDEX_SUBSTR_INITIAL sa.sa_initial +
  (if has flags SLAP_INDEX_SUBSTR_ANY then
    ((sa.sa_any.getD []).map fun part =>
      if conf.index_substr_any_len ≤ part.bytes.length then part.bytes.length - (conf.index_substr_any_len - 1)
      else 0).sum
  else 0) +
  countPart conf flags SLAP_INDEX_SUBSTR_FINAL sa.sa_final

/-- The calls for the infixes of a part at steps, from `start` to `bound`. -/
def anyCalls (part : List Nat) (start bound : Nat) : List HashCall :=
  (forSteps start bound conf.index_substr_any_step).map fun j =>
    ⟨SLAP_INDEX_SUBSTR_PREFIX, part, j, conf.index_substr_any_len⟩

/-- The calls for an initial or a final part: one for its short part, and those for the excess of a long one. -/
def partCalls (bit : Nat) (value : List Nat) (short : Nat → HashCall) (excess : List HashCall) : List HashCall :=
  if has flags bit ∧ conf.index_substr_if_minlen ≤ value.length then
    let klen := if conf.index_substr_if_maxlen < value.length then conf.index_substr_if_maxlen else value.length
    short klen ::
      if conf.index_substr_if_maxlen < value.length ∧ has flags SLAP_INDEX_SUBSTR_ANY then excess else []
  else []

def initialCalls : Option Berval → List HashCall
  | none => []
  | some part =>
    let value := part.bytes
    partCalls conf flags SLAP_INDEX_SUBSTR_INITIAL value
      (fun klen => ⟨SLAP_INDEX_SUBSTR_INITIAL_PREFIX, value, 0, klen⟩)
      (anyCalls conf value (conf.index_substr_if_maxlen - 1) (subLen value.length conf.index_substr_any_len))

def finalCalls : Option Berval → List HashCall
  | none => []
  | some part =>
    let value := part.bytes
    partCalls conf flags SLAP_INDEX_SUBSTR_FINAL value
      (fun klen => ⟨SLAP_INDEX_SUBSTR_FINAL_PREFIX, value, value.length - klen, klen⟩)
      (anyCalls conf value 0 (subLen value.length conf.index_substr_if_maxlen))

/-- The calls of `octetStringSubstringsFilter`. -/
def filterCalls (sa : SubstringsAssertion) : List HashCall :=
  initialCalls conf flags sa.sa_initial ++
  (if has flags SLAP_INDEX_SUBSTR_ANY then
    (sa.sa_any.getD []).flatMap fun part =>
      if part.bytes.length < conf.index_substr_any_len then []
      else anyCalls conf part.bytes 0 (subLen part.bytes.length conf.index_substr_any_len)
  else []) ++
  finalCalls conf flags sa.sa_final

def octetStringSubstringsFilter {α : Type*} (hash : Char → List Nat → α) (sa : SubstringsAssertion) :
    Except Fault (List α) :=
  let nkeys := countFilter conf flags sa
  if nkeys = 0 then .ok []
  else storeKeys hash nkeys (filterCalls conf flags sa) []

end

theorem seekPart_spec {inlen : Nat} {part left rest : List Nat} (h : seekPart inlen part left = some rest) :
    ∃ pre, left = pre ++ part ++ rest := by
  induction left using seekPart.induct inlen part with
  | case1 left hlen =>
    rw [seekPart, if_pos hlen] at h
    cases h
  | case2 left hlen hnil =>
    rw [seekPart, if_neg hlen] at h
    split at h
    next => cases h
    next hcons => rw [hnil] at hcons; cases hcons
  | case3 left hlen b tail hcons hshort =>
    rw [seekPart, if_neg hlen] at h
    split at h
    next => cases h
    next hcons' =>
      rw [hcons] at hcons'
      cases hcons'
      rw [if_pos hshort] at h
      cases h
  | case4 left hlen b tail hcons hshort htake =>
    rw [seekPart, if_neg hlen] at h
    split at h
    next => cases h
    next hcons' =>
      rw [hcons] at hcons'
      cases hcons'
      rw [if_neg hshort, if_pos htake] at h
      obtain rfl := Option.some.inj h
      refine ⟨left.takeWhile (fun b => ¬ part.head? = some b), ?_⟩
      have hrest := take_append_drop part.length (b :: tail)
      rw [htake] at hrest
      rw [append_assoc, hrest, ← hcons, takeWhile_append_dropWhile]
  | case5 left hlen b tail hcons hshort htake ih =>
    rw [seekPart, if_neg hlen] at h
    split at h
    next => cases h
    next hcons' =>
      rw [hcons] at hcons'
      cases hcons'
      rw [if_neg hshort, if_neg htake] at h
      obtain ⟨pre, hpre⟩ := ih h
      refine ⟨left.takeWhile (fun b => ¬ part.head? = some b) ++ b :: pre, ?_⟩
      have hleft := takeWhile_append_dropWhile (p := fun b => ¬ part.head? = some b) (l := left)
      rw [hcons, hpre] at hleft
      refine hleft.symm.trans ?_
      simp only [append_assoc, cons_append]

theorem matchAny_spec {inlen : Nat} {left : List Nat} {parts : List Berval} (h : matchAny inlen left parts = true) :
    ∀ part ∈ parts, part.bytes <:+: left := by
  induction parts generalizing inlen left with
  | nil => simp
  | cons part parts ih =>
    unfold matchAny at h
    intro q hq
    if hlen : left.length < inlen then
      rw [if_pos hlen] at h
      cases h
    else if hnil : part.bytes = [] then
      rw [if_neg hlen, if_pos hnil] at h
      rcases List.mem_cons.mp hq with rfl | hq
      · rw [hnil]
        exact nil_infix
      · exact ih h q hq
    else
      rw [if_neg hlen, if_neg hnil] at h
      cases hseek : seekPart inlen part.bytes left with
      | none => simp [hseek] at h
      | some rest =>
        simp only [hseek] at h
        obtain ⟨pre, hpre⟩ := seekPart_spec hseek
        rcases List.mem_cons.mp hq with rfl | hq
        · exact ⟨pre, rest, hpre.symm⟩
        · exact (ih h q hq).trans ⟨pre ++ part.bytes, [], by rw [List.append_nil, hpre]⟩

structure PartsIn (sub : SubstringsAssertion) (v : List Nat) : Prop where
  initial : ∀ part, sub.sa_initial = some part → part.bytes <+: v
  any : ∀ part ∈ sub.sa_any.getD [], part.bytes <:+: v
  final : ∀ part, sub.sa_final = some part → part.bytes <:+ v

theorem matchFinal_spec {sub : SubstringsAssertion} {inlen : Nat} {left : List Nat} (h : matchFinal sub inlen left = true) :
    (∀ part ∈ sub.sa_any.getD [], part.bytes <:+: left) ∧ ∀ part, sub.sa_final = some part → part.bytes <:+ left := by
  unfold matchFinal at h
  cases hf : sub.sa_final with
  | none =>
    simp only [hf] at h
    exact ⟨matchAny_spec h, by simp⟩
  | some final =>
    simp only [hf] at h
    split_ifs at h with hlen hdrop
    refine ⟨fun part hpart => (matchAny_spec h part hpart).trans (List.take_prefix _ _).isInfix, ?_⟩
    rintro part hpart
    obtain rfl := Option.some.inj hpart
    rw [← not_not.mp hdrop]
    exact drop_suffix _ _

theorem octetStringSubstringsMatch_spec {sub : SubstringsAssertion} {value : Berval}
    (h : octetStringSubstringsMatch sub value = true) : PartsIn sub value.bytes := by
  unfold octetStringSubstringsMatch at h
  cases hi : sub.sa_initial with
  | none =>
    simp only [hi] at h
    obtain ⟨hany, hfinal⟩ := matchFinal_spec h
    exact ⟨by simp [hi], hany, hfinal⟩
  | some initial =>
    simp only [hi] at h
    split_ifs at h with hlen htake
    obtain ⟨hany, hfinal⟩ := matchFinal_spec h
    have hsuffix := drop_suffix initial.bytes.length value.bytes
    refine ⟨?_, fun part hpart => (hany part hpart).trans hsuffix.isInfix, fun part hpart => (hfinal part hpart).trans hsuffix⟩
    rintro part hpart
    obtain rfl := Option.some.inj (hi.symm.trans hpart)
    rw [← not_not.mp htake]
    exact List.take_prefix _ _

/-! ## Stored keys -/

section

variable {α : Type*} {hash : Char → List Nat → α} {nkeys : Nat}

theorem storeKeys_ok {calls : List HashCall} {keys : List α} (hin : ∀ c ∈ calls, c.Inside)
    (hroom : keys.length + calls.length ≤ nkeys) :
    storeKeys hash nkeys calls keys = .ok (keys ++ calls.map fun c => hash c.pre c.bytes) := by
  induction calls generalizing keys with
  | nil => simp [storeKeys]
  | cons c calls ih =>
    obtain ⟨hc, hcalls⟩ := List.forall_mem_cons.mp hin
    rw [length_cons] at hroom
    rw [storeKeys, if_neg (not_not.mpr hc), if_neg (by omega), ih hcalls (by simp; omega)]
    simp

theorem inside_of_storeKeys {calls : List HashCall} {keys keys' : List α}
    (h : storeKeys hash nkeys calls keys = .ok keys') : ∀ c ∈ calls, c.Inside := by
  induction calls generalizing keys with
  | nil => simp
  | cons c calls ih =>
    unfold storeKeys at h
    split_ifs at h with hc hroom
    exact List.forall_mem_cons.mpr ⟨hc, ih h⟩

end

theorem mem_forSteps {start bound step j : Nat} (hstep : 1 ≤ step) :
    j ∈ forSteps start bound step ↔ ∃ i, j = start + step * i ∧ j ≤ bound := by
  unfold forSteps
  rw [mem_range']
  constructor
  · rintro ⟨i, hi, rfl⟩
    have hmul : (i + 1) * step ≤ bound + step - start := (Nat.le_div_iff_mul_le hstep).mp hi
    exact ⟨i, rfl, by rw [Nat.mul_comm, Nat.mul_add] at hmul; omega⟩
  · rintro ⟨i, rfl, hle⟩
    refine ⟨i, ?_, rfl⟩
    have hmul : (i + 1) * step ≤ bound + step - start := by rw [Nat.mul_comm, Nat.mul_add]; omega
    exact (Nat.le_div_iff_mul_le hstep).mpr hmul

theorem length_forSteps (start bound step : Nat) : (forSteps start bound step).length = (bound + step - start) / step :=
  length_range'

theorem subLen_of_le {a b : Nat} (h : b ≤ a) (ha : a < 2 ^ 64) : subLen a b = a - b := by
  unfold subLen
  omega

theorem subLen_of_lt {a b : Nat} (h : a < b) (hb : b < 2 ^ 32) : 2 ^ 64 - 2 ^ 32 ≤ subLen a b := by
  unfold subLen
  omega

theorem bytes_of_infix {p v : List Nat} {j n : Nat} (h : p <:+: v) (hj : j + n ≤ p.length) :
    ∃ i, i + n ≤ v.length ∧ (v.drop i).take n = (p.drop j).take n := by
  obtain ⟨s, t, rfl⟩ := h
  refine ⟨s.length + j, by simp; omega, ?_⟩
  rw [append_assoc, drop_append, drop_eq_nil_of_le (by omega), List.nil_append,
    Nat.add_sub_cancel_left, drop_append_of_le_length (by omega),
    take_append_of_le_length (by rw [length_drop]; omega)]

section

variable {conf : SubstrConf} {flags : Nat}

theorem mem_indexAnyCalls {v : List Nat} {c : HashCall} : c ∈ indexAnyCalls conf flags v ↔
    has flags SLAP_INDEX_SUBSTR_ANY ∧ ∃ j, j + conf.index_substr_any_len ≤ v.length ∧
      c = ⟨SLAP_INDEX_SUBSTR_PREFIX, v, j, conf.index_substr_any_len⟩ := by
  have hpos := conf.any_len_pos
  unfold indexAnyCalls
  split_ifs with hc
  · simp only [List.mem_map, mem_range, hc.1, true_and]
    constructor
    · rintro ⟨j, hj, rfl⟩
      exact ⟨j, by omega, rfl⟩
    · rintro ⟨j, hj, rfl⟩
      exact ⟨j, by omega, rfl⟩
  · constructor
    · simp
    · rintro ⟨hf, j, hj, -⟩
      exact absurd ⟨hf, by omega⟩ hc

theorem mem_indexIfCalls {v : List Nat} {j : Nat} {c : HashCall} : c ∈ indexIfCalls flags v j ↔
    (has flags SLAP_INDEX_SUBSTR_INITIAL ∧ c = ⟨SLAP_INDEX_SUBSTR_INITIAL_PREFIX, v, 0, j⟩) ∨
    (has flags SLAP_INDEX_SUBSTR_FINAL ∧ c = ⟨SLAP_INDEX_SUBSTR_FINAL_PREFIX, v, v.length - j, j⟩) := by
  unfold indexIfCalls
  rw [mem_append]
  split_ifs <;> simp [*]

theorem mem_indexCalls {value : Berval} {c : HashCall} : c ∈ indexCalls conf flags value ↔
    c ∈ indexAnyCalls conf flags value.bytes ∨
    ∃ j, conf.index_substr_if_minlen ≤ j ∧ j ≤ conf.index_substr_if_maxlen ∧ j ≤ value.bytes.length ∧
      c ∈ indexIfCalls flags value.bytes j := by
  unfold indexCalls
  simp only
  split_ifs with hlen hmax
  · constructor
    · exact .inl
    · rintro (h | ⟨j, h1, -, h2, -⟩)
      · exact h
      · omega
  all_goals
    rw [mem_append, mem_flatMap]
    refine or_congr_right (exists_congr fun j => ?_)
    rw [mem_forSteps (le_refl 1)]
    constructor
    · rintro ⟨⟨i, rfl, hle⟩, h⟩
      exact ⟨by omega, by omega, by omega, h⟩
    · rintro ⟨h1, h2, h3, h⟩
      exact ⟨⟨j - conf.index_substr_if_minlen, by omega, by omega⟩, h⟩

theorem inside_indexCalls {value : Berval} : ∀ c ∈ indexCalls conf flags value, c.Inside := by
  intro c hc
  rcases mem_indexCalls.mp hc with hc | ⟨j, -, -, hj, hc⟩
  · obtain ⟨-, j, hj, rfl⟩ := mem_indexAnyCalls.mp hc
    exact hj
  · rcases mem_indexIfCalls.mp hc with ⟨-, rfl⟩ | ⟨-, rfl⟩
    all_goals simp only [HashCall.Inside]; omega

theorem length_indexAnyCalls (v : List Nat) : (indexAnyCalls conf flags v).length =
    if has flags SLAP_INDEX_SUBSTR_ANY then
      if conf.index_substr_any_len ≤ v.length then v.length - (conf.index_substr_any_len - 1) else 0
    else 0 := by
  unfold indexAnyCalls
  split_ifs <;> simp_all

theorem length_flatMap_indexIfCalls (v js : List Nat) : (js.flatMap (indexIfCalls flags v)).length =
    (if has flags SLAP_INDEX_SUBSTR_INITIAL then js.length else 0) +
      (if has flags SLAP_INDEX_SUBSTR_FINAL then js.length else 0) := by
  induction js with
  | nil => simp
  | cons j js ih =>
    rw [flatMap_cons, length_append, ih, indexIfCalls]
    split_ifs <;> simp <;> omega

theorem length_indexCalls (value : Berval) : (indexCalls conf flags value).length = countIndex conf flags value := by
  have hmin := conf.minlen_pos
  have hle := conf.minlen_le
  unfold indexCalls countIndex countIf
  simp only
  by_cases hlen : value.bytes.length < conf.index_substr_if_minlen
  · rw [if_pos hlen, length_indexAnyCalls, if_neg (by omega : ¬ conf.index_substr_if_maxlen ≤ value.bytes.length),
      if_neg (by omega : ¬ conf.index_substr_if_minlen ≤ value.bytes.length)]
    simp
  · rw [if_neg hlen, length_append, length_indexAnyCalls, length_flatMap_indexIfCalls, length_forSteps, Nat.div_one,
      if_pos (by omega : conf.index_substr_if_minlen ≤ value.bytes.length)]
    split_ifs <;> omega

theorem indexer_ok {α : Type*} (hash : Char → List Nat → α) (values : List Berval) :
    octetStringSubstringsIndexer conf flags hash values =
      .ok ((values.flatMap (indexCalls conf flags)).map fun c => hash c.pre c.bytes) := by
  have hlen : (values.flatMap (indexCalls conf flags)).length = (values.map (countIndex conf flags)).sum := by
    rw [length_flatMap]
    simp only [length_indexCalls]
  unfold octetStringSubstringsIndexer
  simp only
  split_ifs with hzero
  · rw [← hlen, length_eq_zero_iff] at hzero
    rw [hzero]
    rfl
  · have hin : ∀ c ∈ values.flatMap (indexCalls conf flags), c.Inside := by
      intro c hc
      obtain ⟨value, -, hc⟩ := List.mem_flatMap.mp hc
      exact inside_indexCalls c hc
    rw [storeKeys_ok hin (by simp only [length_nil, hlen]; omega), List.nil_append]

end

/-- The long parts of an assertion have room for the infixes that are hashed from them. -/
structure LongPartsFit (conf : SubstrConf) (flags : Nat) (sa : SubstringsAssertion) : Prop where
  initial : ∀ part, sa.sa_initial = some part → has flags SLAP_INDEX_SUBSTR_INITIAL → has flags SLAP_INDEX_SUBSTR_ANY →
    conf.index_substr_if_maxlen < part.bytes.length → conf.index_substr_any_len ≤ part.bytes.length
  final : ∀ part, sa.sa_final = some part → has flags SLAP_INDEX_SUBSTR_FINAL → has flags SLAP_INDEX_SUBSTR_ANY →
    conf.index_substr_if_maxlen < part.bytes.length →
      conf.index_substr_any_step * ((part.bytes.length - conf.index_substr_if_maxlen) / conf.index_substr_any_step) +
        conf.index_substr_any_len ≤ part.bytes.length

section

variable {conf : SubstrConf} {flags : Nat}
variable {start bit : Nat} {sa : SubstringsAssertion}

theorem inside_anyCalls_iff {part : List Nat} {bound : Nat} : (∀ c ∈ anyCalls conf part start bound, c.Inside) ↔
    ∀ i, start + conf.index_substr_any_step * i ≤ bound →
      start + conf.index_substr_any_step * i + conf.index_substr_any_len ≤ part.length := by
  simp only [anyCalls, List.forall_mem_map, mem_forSteps conf.any_step_pos, HashCall.Inside]
  constructor
  · intro h i hi
    exact h _ ⟨i, rfl, hi⟩
  · rintro h _ ⟨i, rfl, hi⟩
    exact h i hi

theorem length_anyCalls (part : List Nat) (start bound : Nat) : (anyCalls conf part start bound).length =
    (bound + conf.index_substr_any_step - start) / conf.index_substr_any_step := by
  rw [anyCalls, length_map, length_forSteps]

def LongPart (conf : SubstrConf) (flags bit : Nat) (value : List Nat) : Prop :=
  has flags bit ∧ has flags SLAP_INDEX_SUBSTR_ANY ∧ conf.index_substr_if_maxlen < value.length

theorem mem_partCalls {value : List Nat} {short : Nat → HashCall} {excess : List HashCall} {c : HashCall} :
    c ∈ partCalls conf flags bit value short excess ↔
      (has flags bit ∧ conf.index_substr_if_minlen ≤ value.length ∧
        c = short (min conf.index_substr_if_maxlen value.length)) ∨
      (LongPart conf flags bit value ∧ c ∈ excess) := by
  have hle := conf.minlen_le
  have hmin : (if conf.index_substr_if_maxlen < value.length then conf.index_substr_if_maxlen else value.length) =
      min conf.index_substr_if_maxlen value.length := by
    split_ifs <;> omega
  simp only [partCalls, LongPart, hmin]
  by_cases hf : has flags bit ∧ conf.index_substr_if_minlen ≤ value.length
  · rw [if_pos hf, mem_cons]
    refine or_congr (by simp [hf]) ?_
    split_ifs with hlong
    · simp [hf.1, hlong]
    · simp only [not_mem_nil, false_iff]
      rintro ⟨⟨-, ha, hl⟩, -⟩
      exact hlong ⟨hl, ha⟩
  · rw [if_neg hf]
    simp only [not_mem_nil, false_iff]
    rintro (⟨h1, h2, -⟩ | ⟨⟨h1, -, h2⟩, -⟩)
    · exact hf ⟨h1, h2⟩
    · exact hf ⟨h1, by omega⟩

theorem length_partCalls_le {part : Berval} {short : Nat → HashCall} {excess : List HashCall}
    (h : LongPart conf flags bit part.bytes →
      excess.length ≤ 1 + (part.bytes.length - conf.index_substr_if_maxlen) / conf.index_substr_any_step) :
    (partCalls conf flags bit part.bytes short excess).length ≤ countPart conf flags bit (some part) := by
  unfold partCalls countPart
  simp only
  by_cases hf : has flags bit ∧ conf.index_substr_if_minlen ≤ part.bytes.length
  · rw [if_pos hf, if_pos hf, length_cons]
    by_cases hlong : conf.index_substr_if_maxlen < part.bytes.length ∧ has flags SLAP_INDEX_SUBSTR_ANY
    · have := h ⟨hf.1, hlong.2, hlong.1⟩
      rw [if_pos hlong, if_pos hlong]
      omega
    · rw [if_neg hlong, if_neg hlong]
      exact le_refl 1
  · rw [if_neg hf, if_neg hf]
    exact le_refl 0

theorem countPart_pos {part : Berval} (h : LongPart conf flags bit part.bytes) : 0 < countPart conf flags bit (some part) := by
  have hle := conf.minlen_le
  have hlong := h.2.2
  unfold countPart
  simp only
  rw [if_pos ⟨h.1, by omega⟩]
  omega

theorem length_anyCalls_le {part : Berval} (hlen : conf.index_substr_any_len ≤ part.bytes.length) :
    (anyCalls conf part.bytes start (subLen part.bytes.length conf.index_substr_any_len)).length ≤
      1 + (part.bytes.length - conf.index_substr_any_len - start) / conf.index_substr_any_step := by
  rw [length_anyCalls, subLen_of_le hlen part.lt, Nat.add_comm 1, ← Nat.add_div_right _ conf.any_step_pos]
  exact Nat.div_le_div_right (by omega)

theorem LongPartsFit.initial_room (h : LongPartsFit conf flags sa) : (∀ c ∈ initialCalls conf flags sa.sa_initial, c.Inside) ∧
      (initialCalls conf flags sa.sa_initial).length ≤ countPart conf flags SLAP_INDEX_SUBSTR_INITIAL sa.sa_initial := by
  have hpos := conf.any_len_pos
  have hmax := conf.minlen_pos.trans conf.minlen_le
  cases hi : sa.sa_initial with
  | none => simp [initialCalls, countPart]
  | some part =>
    have hfit : LongPart conf flags SLAP_INDEX_SUBSTR_INITIAL part.bytes →
        conf.index_substr_any_len ≤ part.bytes.length := fun hl => h.initial part hi hl.1 hl.2.1 hl.2.2
    simp only [initialCalls]
    constructor
    · intro c hc
      rcases mem_partCalls.mp hc with ⟨-, -, rfl⟩ | ⟨hl, hc⟩
      · simp only [HashCall.Inside]
        omega
      · refine inside_anyCalls_iff.mpr (fun i hi => ?_) c hc
        have hle := hfit hl
        rw [subLen_of_le hle part.lt] at hi
        omega
    · refine length_partCalls_le fun hl => (length_anyCalls_le (hfit hl)).trans ?_
      exact Nat.add_le_add_left (Nat.div_le_div_right (by omega)) 1

theorem LongPartsFit.final_room (h : LongPartsFit conf flags sa) : (∀ c ∈ finalCalls conf flags sa.sa_final, c.Inside) ∧
      (finalCalls conf flags sa.sa_final).length ≤ countPart conf flags SLAP_INDEX_SUBSTR_FINAL sa.sa_final := by
  cases hf : sa.sa_final with
  | none => simp [finalCalls, countPart]
  | some part =>
    simp only [finalCalls]
    constructor
    · intro c hc
      rcases mem_partCalls.mp hc with ⟨-, -, rfl⟩ | ⟨hl, hc⟩
      · simp only [HashCall.Inside]
        omega
      · refine inside_anyCalls_iff.mpr (fun i hi => ?_) c hc
        have hlast := h.final part hf hl.1 hl.2.1 hl.2.2
        have hlong := hl.2.2
        rw [subLen_of_le (by omega) part.lt, Nat.zero_add] at hi
        have hi' : i ≤ (part.bytes.length - conf.index_substr_if_maxlen) / conf.index_substr_any_step :=
          (Nat.le_div_iff_mul_le conf.any_step_pos).mpr (by rw [Nat.mul_comm]; exact hi)
        have hmul := Nat.mul_le_mul_left conf.index_substr_any_step hi'
        omega
    · refine length_partCalls_le fun hl => ?_
      have hlong := hl.2.2
      rw [length_anyCalls, subLen_of_le (by omega) part.lt, Nat.sub_zero, Nat.add_div_right _ conf.any_step_pos,
        Nat.add_comm]

theorem any_room {parts : List Berval} {c : HashCall} (hc : c ∈ parts.flatMap fun part =>
      if part.bytes.length < conf.index_substr_any_len then []
      else anyCalls conf part.bytes 0 (subLen part.bytes.length conf.index_substr_any_len)) :
    ∃ part ∈ parts, c ∈ anyCalls conf part.bytes 0 (subLen part.bytes.length conf.index_substr_any_len) ∧ c.Inside := by
  obtain ⟨part, hpart, hc⟩ := List.mem_flatMap.mp hc
  split_ifs at hc with hlen
  · simp at hc
  · refine ⟨part, hpart, hc, inside_anyCalls_iff.mpr (fun i hi => ?_) c hc⟩
    rw [subLen_of_le (by omega) part.lt] at hi
    omega

theorem length_any_le (parts : List Berval) :
    (parts.flatMap fun part =>
      if part.bytes.length < conf.index_substr_any_len then []
      else anyCalls conf part.bytes 0 (subLen part.bytes.length conf.index_substr_any_len)).length ≤
    (parts.map fun part =>
      if conf.index_substr_any_len ≤ part.bytes.length then part.bytes.length - (conf.index_substr_any_len - 1)
      else 0).sum := by
  have hpos := conf.any_len_pos
  rw [length_flatMap]
  refine sum_le_sum fun part _ => ?_
  by_cases hlen : part.bytes.length < conf.index_substr_any_len
  · simp [hlen]
  · simp only [if_neg hlen, if_pos (Nat.not_lt.mp hlen)]
    have hle : (anyCalls conf part.bytes 0 (subLen part.bytes.length conf.index_substr_any_len)).length ≤
        1 + (part.bytes.length - conf.index_substr_any_len - 0) / conf.index_substr_any_step :=
      length_anyCalls_le (Nat.not_lt.mp hlen)
    have hdiv := Nat.div_le_self (part.bytes.length - conf.index_substr_any_len - 0) conf.index_substr_any_step
    omega

theorem LongPartsFit.filter_ok {α : Type*} (h : LongPartsFit conf flags sa) (hash : Char → List Nat → α) :
    octetStringSubstringsFilter conf flags hash sa = .ok ((filterCalls conf flags sa).map fun c => hash c.pre c.bytes) := by
  have hlen : (filterCalls conf flags sa).length ≤ countFilter conf flags sa := by
    unfold filterCalls countFilter
    rw [length_append, length_append]
    refine Nat.add_le_add (Nat.add_le_add h.initial_room.2 ?_) h.final_room.2
    split_ifs
    · exact length_any_le _
    · exact le_refl 0
  have hin : ∀ c ∈ filterCalls conf flags sa, c.Inside := by
    intro c hc
    rcases List.mem_append.mp hc with hc | hc
    · rcases List.mem_append.mp hc with hc | hc
      · exact h.initial_room.1 c hc
      · split_ifs at hc
        · obtain ⟨-, -, -, hc⟩ := any_room hc
          exact hc
        · simp at hc
    · exact h.final_room.1 c hc
  unfold octetStringSubstringsFilter
  simp only
  split_ifs with hzero
  · rw [hzero, Nat.le_zero, length_eq_zero_iff] at hlen
    rw [hlen]
    rfl
  · rw [storeKeys_ok hin (by simpa using hlen), List.nil_append]

theorem LongPartsFit.of_filter {α : Type*} {hash : Char → List Nat → α} {keys : List α}
    (h : octetStringSubstringsFilter conf flags hash sa = .ok keys) : LongPartsFit conf flags sa := by
  have hmax := conf.minlen_pos.trans conf.minlen_le
  have hin : ∀ c ∈ filterCalls conf flags sa, countFilter conf flags sa ≠ 0 → c.Inside := by
    intro c hc hne
    unfold octetStringSubstringsFilter at h
    simp only [if_neg hne] at h
    exact inside_of_storeKeys h c hc
  constructor
  · intro part hpart hbit hany hlong
    by_contra hlt
    have hl : LongPart conf flags SLAP_INDEX_SUBSTR_INITIAL part.bytes := ⟨hbit, hany, hlong⟩
    have hcount := countPart_pos hl
    have hbound := subLen_of_lt (Nat.not_le.mp hlt) conf.any_len_lt
    have hlt' := conf.maxlen_lt
    have hcall : ∀ c ∈ anyCalls conf part.bytes (conf.index_substr_if_maxlen - 1)
        (subLen part.bytes.length conf.index_substr_any_len), c.Inside := by
      intro c hc
      refine hin c ?_ (by unfold countFilter; rw [hpart]; omega)
      unfold filterCalls
      rw [hpart]
      exact mem_append_left _ (mem_append_left _ (mem_partCalls.mpr (.inr ⟨hl, hc⟩)))
    have := inside_anyCalls_iff.mp hcall 0 (by omega)
    omega
  · intro part hpart hbit hany hlong
    have hl : LongPart conf flags SLAP_INDEX_SUBSTR_FINAL part.bytes := ⟨hbit, hany, hlong⟩
    have hcount := countPart_pos hl
    have hcall : ∀ c ∈ anyCalls conf part.bytes 0 (subLen part.bytes.length conf.index_substr_if_maxlen), c.Inside := by
      intro c hc
      refine hin c ?_ (by unfold countFilter; rw [hpart]; omega)
      unfold filterCalls
      rw [hpart]
      exact mem_append_right _ (mem_partCalls.mpr (.inr ⟨hl, hc⟩))
    have hmul := Nat.mul_div_le (part.bytes.length - conf.index_substr_if_maxlen) conf.index_substr_any_step
    have := inside_anyCalls_iff.mp hcall
      ((part.bytes.length - conf.index_substr_if_maxlen) / conf.index_substr_any_step)
      (by rw [subLen_of_le (by omega) part.lt]; omega)
    omega

theorem anyCalls_indexed {part : List Nat} {bound : Nat} {value : Berval} {c : HashCall}
    (hany : has flags SLAP_INDEX_SUBSTR_ANY) (hin : part <:+: value.bytes) (hc : c ∈ anyCalls conf part start bound)
    (hinside : c.Inside) : ∃ d ∈ indexCalls conf flags value, d.pre = c.pre ∧ d.bytes = c.bytes := by
  obtain ⟨j, -, rfl⟩ := List.mem_map.mp hc
  obtain ⟨i, hi, hbytes⟩ := bytes_of_infix hin hinside
  refine ⟨⟨SLAP_INDEX_SUBSTR_PREFIX, value.bytes, i, conf.index_substr_any_len⟩, ?_, rfl, hbytes⟩
  exact mem_indexCalls.mpr (.inl (mem_indexAnyCalls.mpr ⟨hany, i, hi, rfl⟩))

theorem PartsIn.indexed {value : Berval} (h : PartsIn sa value.bytes)
    (hfit : LongPartsFit conf flags sa) {c : HashCall} (hc : c ∈ filterCalls conf flags sa) :
    ∃ d ∈ indexCalls conf flags value, d.pre = c.pre ∧ d.bytes = c.bytes := by
  have hle := conf.minlen_le
  rcases List.mem_append.mp hc with hc | hc
  · rcases List.mem_append.mp hc with hc | hc
    · have hinside := hfit.initial_room.1 c hc
      cases hi : sa.sa_initial with
      | none =>
        rw [hi] at hc
        simp [initialCalls] at hc
      | some part =>
        simp only [hi, initialCalls] at hc
        have hpre := h.initial part hi
        have hlen := hpre.length_le
        rcases mem_partCalls.mp hc with ⟨hbit, hmin, rfl⟩ | ⟨hl, hc⟩
        · refine ⟨_, mem_indexCalls.mpr (.inr ⟨min conf.index_substr_if_maxlen part.bytes.length, by omega, by omega,
            by omega, mem_indexIfCalls.mpr (.inl ⟨hbit, rfl⟩)⟩), rfl, ?_⟩
          -- the first bytes of the value are those of the part
          obtain ⟨t, ht⟩ := hpre
          simp only [HashCall.bytes, drop_zero, ← ht]
          exact take_append_of_le_length (by omega)
        · exact anyCalls_indexed hl.2.1 hpre.isInfix hc hinside
    · split_ifs at hc with hany
      · obtain ⟨part, hpart, hc, hinside⟩ := any_room hc
        exact anyCalls_indexed hany (h.any part hpart) hc hinside
      · simp at hc
  · have hinside := hfit.final_room.1 c hc
    cases hf : sa.sa_final with
    | none =>
      rw [hf] at hc
      simp [finalCalls] at hc
    | some part =>
      simp only [hf, finalCalls] at hc
      have hsuf := h.final part hf
      have hlen := hsuf.length_le
      rcases mem_partCalls.mp hc with ⟨hbit, hmin, rfl⟩ | ⟨hl, hc⟩
      · refine ⟨_, mem_indexCalls.mpr (.inr ⟨min conf.index_substr_if_maxlen part.bytes.length, by omega, by omega,
          by omega, mem_indexIfCalls.mpr (.inr ⟨hbit, rfl⟩)⟩), rfl, ?_⟩
        obtain ⟨s, hs⟩ := hsuf
        have hdrop : s.length + part.bytes.length - min conf.index_substr_if_maxlen part.bytes.length =
            s.length + (part.bytes.length - min conf.index_substr_if_maxlen part.bytes.length) := by omega
        simp only [HashCall.bytes, ← hs, length_append]
        rw [hdrop, drop_append, drop_eq_nil_of_le (by omega), List.nil_append, Nat.add_sub_cancel_left]
      · exact anyCalls_indexed hl.2.1 hsuf.isInfix hc hinside

/-- The keys are hashed inside the values and parts and have room, and those of the assertion are keys of each value that
matches. -/
def SubstrKeysOk {α : Type*} (conf : SubstrConf) (flags : Nat) (hash : Char → List Nat → α) (values : List Berval)
    (sa : SubstringsAssertion) : Prop :=
  ∃ keys ikeys, octetStringSubstringsFilter conf flags hash sa = .ok keys ∧
    octetStringSubstringsIndexer conf flags hash values = .ok ikeys ∧
    ∀ value ∈ values, octetStringSubstringsMatch sa value = true →
      ∃ vkeys, octetStringSubstringsIndexer conf flags hash [value] = .ok vkeys ∧ vkeys ⊆ ikeys ∧ keys ⊆ vkeys

/-- Substring keys are complete and in bounds exactly if the long parts fit. -/
theorem substr_keys_ok_iff {α : Type*} (conf : SubstrConf) (flags : Nat) (hash : Char → List Nat → α)
    (values : List Berval) (sa : SubstringsAssertion) :
    SubstrKeysOk conf flags hash values sa ↔ LongPartsFit conf flags sa := by
  constructor
  · rintro ⟨keys, ikeys, hf, -⟩
    exact .of_filter hf
  · intro hfit
    refine ⟨_, _, hfit.filter_ok hash, indexer_ok hash values, fun value hv hm => ?_⟩
    refine ⟨_, indexer_ok hash [value], ?_, ?_⟩
    · refine map_subset _ fun c hc => ?_
      rw [flatMap_singleton] at hc
      exact List.mem_flatMap.mpr ⟨value, hv, hc⟩
    · intro k hk
      obtain ⟨c, hc, rfl⟩ := List.mem_map.mp hk
      obtain ⟨d, hd, hpre, hbytes⟩ := (octetStringSubstringsMatch_spec hm).indexed hfit hc
      rw [flatMap_singleton]
      exact List.mem_map.mpr ⟨d, hd, by rw [hpre, hbytes]⟩

end

/-- The defaults, with an `index_substr_any_len` above `index_substr_if_maxlen`. -/
def longAny : SubstrConf where
  index_substr_if_minlen := 2
  index_substr_if_maxlen := 4
  index_substr_any_len := 6
  index_substr_any_step := 2
  minlen_pos := by decide
  minlen_le := by decide
  maxlen_lt := by decide
  any_len_pos := by decide
  any_len_lt := by decide
  any_step_pos := by decide

/-- A final part of five bytes is read past its end. -/
theorem substr_final_read_outside :
    ¬ SubstrKeysOk longAny SLAP_INDEX_SUBSTR (fun pre bytes => (pre, bytes)) [⟨[1, 2, 3, 4, 5], by decide⟩]
      ⟨none, none, some ⟨[1, 2, 3, 4, 5], by decide⟩⟩ := by
  rintro ⟨keys, ikeys, hf, -⟩
  have := (LongPartsFit.of_filter hf).final _ rfl (by decide) (by decide) (by decide)
  revert this
  decide

end Slapd
end ReOpenLDAP
