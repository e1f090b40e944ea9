import Mathlib.Data.List.GetD
import ReOpenLDAP.BackMdb.Dn
import ReOpenLDAP.Sync.CookiePush

/-!
# Sync.GlueAncestors

`syncrepl_add_glue_ancestors`: the glue entries from the suffix down to the parent of an entry. The cuts in the pretty DN and in
the normalized one are found separately.
-/

namespace ReOpenLDAP
namespace Sync

open BackMdb List

inductive GlueFault where
  | outOfBounds
  | noSeparator
  | endless
deriving DecidableEq

/-- A part of a DN: `bv_val` from its start, and `bv_len`. -/
structure Part where
  bv_val : Nat
  bv_len : Nat

def Part.read (s : List Byte) (bv : Part) : Except GlueFault (List Byte) :=
  if bv.bv_val + bv.bv_len ≤ s.length then .ok ((s.drop bv.bv_val).take bv.bv_len) else .error .outOfBounds

/-- `ber_bvrchr` for a comma, among the first bytes. -/
def lastComma (s : List Byte) : Nat → Option Nat
  | 0 => none
  | n + 1 => if s.getD n 0 = comma then some n else lastComma s n

def bvrchr (s : List Byte) (len : Nat) : Except GlueFault (Option Nat) :=
  if len ≤ s.length then .ok (lastComma s len) else .error .outOfBounds

/-- The RDNs of the suffix: one, and one for each comma. The loop steps over the first byte before it looks for a comma. -/
def suffixRdns (be_nsuffix : List Byte) : Nat := if be_nsuffix = [] then 0 else be_nsuffix.tail.count comma + 1

def cutRdns (s : List Byte) : (suffrdns : Nat) → (ptr : Nat) → Except GlueFault Nat
  | 0, ptr => .ok ptr
  | n + 1, ptr =>
    match bvrchr s ptr with
    | .error f => .error f
    | .ok none => .ok 0
    | .ok (some c) => cutRdns s n c

structure Glue where
  e_name : List Byte
  e_nname : List Byte
  objectClass : List String
  structuralObjectClass : String
  o_dont_replicate : Bool
deriving DecidableEq

/-- An entry with `gcbva`, as it is requested with the mode. -/
def glueEntry (righteous : Bool) (dn ndn : List Byte) : Glue := ⟨dn, ndn, ["top", "glue"], "glue", righteous⟩

def LDAP_ALREADY_EXISTS : Int := 0x44

section

-- `bi_op_add` on the state of the database
variable {σ : Type*} (bi_op_add : σ → Glue → σ × WriteResult) (righteous : Bool)

/-- The loop over the ancestors; `rc` is what it starts with. The result has the requests too. -/
def glueLoop (e_name e_nname : List Byte) : (fuel : Nat) → (ptr nptr : Nat) → (dn ndn : Part) → σ → (rc : Int) →
    Except GlueFault (σ × Int × List Glue)
  | 0, _, _, _, _, _, _ => .error .endless
  | fuel + 1, ptr, nptr, dn, ndn, st, rc =>
    if ndn.bv_val = 0 then .ok (st, rc, [])
    else
      match dn.read e_name, ndn.read e_nname with
      | .error f, _ => .error f
      | _, .error f => .error f
      | .ok name, .ok nname =>
        let glue := glueEntry righteous name nname
        let (st, rs_add) := bi_op_add st glue
        if rs_add.sr_err ≠ 0 ∧ rs_add.sr_err ≠ LDAP_ALREADY_EXISTS then .ok (st, rs_add.rc, [glue])
        else
          match bvrchr e_name ptr with
          | .error f => .error f
          | .ok none => .ok (st, rs_add.rc, [glue])
          | .ok (some c) =>
            match bvrchr e_nname nptr with
            | .error f => .error f
            | .ok none => .error .noSeparator
            | .ok (some nc) =>
              (glueLoop e_name e_nname fuel c nc ⟨c + 1, e_name.length - (c + 1)⟩ ⟨nc + 1, e_nname.length - (nc + 1)⟩ st
                rs_add.rc).map fun r => (r.1, r.2.1, glue :: r.2.2)

/-- `syncrepl_add_glue_ancestors`: the state of the database, `rc` and the requests. -/
def syncreplAddGlueAncestors (be_nsuffix e_name e_nname : List Byte) (st : σ) : Except GlueFault (σ × Int × List Glue) :=
  let suffrdns := suffixRdns be_nsuffix
  match cutRdns e_name suffrdns e_name.length with
  | .error f => .error f
  | .ok ptr =>
    let skip := ptr + if suffrdns = 0 then 0 else 1
    if ptr ≠ 0 ∧ e_name.length < skip then .error .outOfBounds
    else
      let dn : Part := if ptr = 0 then ⟨0, e_name.length⟩ else ⟨skip, e_name.length - skip⟩
      if be_nsuffix.length < e_nname.length then
        let ndn : Part := ⟨e_nname.length - be_nsuffix.length, be_nsuffix.length⟩
        -- without a suffix there is no comma either, and the last byte is left out
        glueLoop bi_op_add righteous e_name e_nname (e_name.length + 1) ptr (ndn.bv_val - 1) dn ndn st 0
      else glueLoop bi_op_add righteous e_name e_nname (e_name.length + 1) ptr 0 dn ⟨0, e_nname.length⟩ st 0

/-- The entries are added up to the first one whose add fails, other than for an entry that is there. -/
def addAll : σ → (rc : Int) → List Glue → σ × Int × List Glue
  | st, rc, [] => (st, rc, [])
  | st, _, glue :: glues =>
    let (st, rs_add) := bi_op_add st glue
    if rs_add.sr_err ≠ 0 ∧ rs_add.sr_err ≠ LDAP_ALREADY_EXISTS then (st, rs_add.rc, [glue])
    else
      let r := addAll st rs_add.rc glues
      (r.1, r.2.1, glue :: r.2.2)

end

/-- The entries of the ancestors of an entry, from the one `d` RDNs above it down to its parent. An RDN has its pretty form and its
normalized one. -/
def ancestors (righteous : Bool) (rdns : List (Rdn × Rdn)) : (d : Nat) → List Glue
  | 0 => []
  | d + 1 => glueEntry righteous (Dn.str [] ((rdns.drop (d + 1)).map Prod.fst)) (Dn.str [] ((rdns.drop (d + 1)).map Prod.snd)) ::
      ancestors righteous rdns d

section

variable {s : List Byte} {n c : Nat}

theorem lastComma_none (h : ∀ k, k < n → s.getD k 0 ≠ comma) : lastComma s n = none := by
  induction n with
  | zero => rfl
  | succ n ih =>
    rw [lastComma, if_neg (h n (Nat.lt_succ_self n))]
    exact ih fun k hk => h k (Nat.lt_succ_of_lt hk)

theorem lastComma_some (hc : c < n) (hcomma : s.getD c 0 = comma) (h : ∀ k, c < k → k < n → s.getD k 0 ≠ comma) :
    lastComma s n = some c := by
  induction n with
  | zero => omega
  | succ n ih =>
    rw [lastComma]
    by_cases hn : n = c
    · rw [if_pos (by rw [hn]; exact hcomma), hn]
    · rw [if_neg (h n (by omega) (Nat.lt_succ_self n))]
      exact ih (by omega) fun k hk hkn => h k hk (by omega)

end

section

variable {dn low up : Dn} {i n : Nat}

def upper (up : Dn) : List Byte := if up = [] then [] else comma :: Dn.str [] up

theorem str_split (hlow : low ≠ []) (up : Dn) : Dn.str [] (low ++ up) = Dn.str [] low ++ upper up := by
  induction low with
  | nil => exact absurd rfl hlow
  | cons r low ih =>
    have hnil : ∀ dn : Dn, Dn.str [] dn = [] ↔ dn = [] := fun dn => by simp [Dn.str_eq_nil]
    rw [cons_append, Dn.str_cons, Dn.str_cons, buildNewDn, buildNewDn]
    by_cases hl : low = []
    · subst hl
      rw [List.nil_append, if_pos Dn.str_nil, upper]
      by_cases hu : up = []
      · rw [if_pos ((hnil up).mpr hu), if_pos hu, List.append_nil]
      · rw [if_neg fun h => hu ((hnil up).mp h), if_neg hu]
    · rw [if_neg (by simp [hnil, hl]), if_neg (by simp [hnil, hl]), ih hl, append_assoc, cons_append]

def lowLen (dn : Dn) (i : Nat) : Nat := (Dn.str [] (dn.take i)).length

theorem lowLen_zero : lowLen dn 0 = 0 := by simp [lowLen]

theorem str_take (hi : 0 < i) (hn : i ≤ dn.length) : Dn.str [] dn = Dn.str [] (dn.take i) ++ upper (dn.drop i) := by
  have hne : dn.take i ≠ [] := by
    intro h
    have hlen := congrArg List.length h
    rw [length_take, length_nil] at hlen
    omega
  rw [← str_split hne, take_append_drop]

theorem length_str (hi : 0 < i) (hn : i < dn.length) :
    (Dn.str [] dn).length = lowLen dn i + 1 + (Dn.str [] (dn.drop i)).length := by
  have hne : dn.drop i ≠ [] := by simpa using hn
  rw [str_take hi hn.le, upper, if_neg hne, length_append, length_cons, lowLen]
  omega

theorem lowLen_length : lowLen dn dn.length = (Dn.str [] dn).length := by rw [lowLen, take_length]

theorem lowLen_le (hn : i ≤ dn.length) : lowLen dn i ≤ (Dn.str [] dn).length := by
  rcases Nat.eq_zero_or_pos i with rfl | hi
  · rw [lowLen_zero]
    exact Nat.zero_le _
  · rw [str_take hi hn, length_append, lowLen]
    exact Nat.le_add_right ..

theorem str_take_succ (hi : 0 < i) (hn : i < dn.length) :
    Dn.str [] (dn.take (i + 1)) = Dn.str [] (dn.take i) ++ comma :: (dn.get ⟨i, hn⟩).bytes := by
  have hne : dn.take i ≠ [] := by
    intro h
    have hlen := congrArg List.length h
    rw [length_take, length_nil] at hlen
    omega
  rw [take_succ_eq_append_getElem hn, str_split hne, upper, if_neg (by simp)]
  simp [Dn.str_cons, buildNewDn]

theorem lowLen_succ (hi : 0 < i) (hn : i < dn.length) : lowLen dn i + 2 ≤ lowLen dn (i + 1) := by
  have hpos := length_pos_of_ne_nil (dn.get ⟨i, hn⟩).nonempty
  rw [lowLen, lowLen, str_take_succ hi hn, length_append, length_cons]
  omega

theorem lastComma_str (hn : i < dn.length) (hlow : i = 0 ∨ lowLen dn i < n) (hhigh : n ≤ lowLen dn (i + 1)) :
    lastComma (Dn.str [] dn) n = if i = 0 then none else some (lowLen dn i) := by
  have hrdn : ∀ (rest : List Byte) (k : Nat), k < (dn.get ⟨i, hn⟩).bytes.length → ((dn.get ⟨i, hn⟩).bytes ++ rest).getD k 0 ≠ comma := by
    intro rest k hk heq
    rw [getD_append _ _ _ _ hk, getD_eq_getElem _ _ hk] at heq
    exact (dn.get ⟨i, hn⟩).nosep (heq ▸ getElem_mem hk)
  have hs := str_take (Nat.succ_pos i) (Nat.succ_le_of_lt hn)
  by_cases hi : i = 0
  · subst hi
    have hone : Dn.str [] (dn.take 1) = (dn.get ⟨0, hn⟩).bytes := by
      rw [take_succ_eq_append_getElem hn]
      simp [Dn.str_cons, buildNewDn]
    rw [if_pos rfl, hs, hone]
    refine lastComma_none fun k hk => hrdn _ k ?_
    rw [lowLen, hone] at hhigh
    omega
  · have hpos : 0 < i := Nat.pos_of_ne_zero hi
    have hlow' := hlow.resolve_left hi
    have hlen : lowLen dn (i + 1) = lowLen dn i + 1 + (dn.get ⟨i, hn⟩).bytes.length := by
      rw [lowLen, str_take_succ hpos hn, length_append, length_cons, lowLen]
      omega
    rw [if_neg hi, hs, str_take_succ hpos hn, append_assoc]
    have hlow_len : (Dn.str [] (dn.take i)).length = lowLen dn i := rfl
    refine lastComma_some hlow' ?_ fun k hk hkn => ?_
    · rw [← hlow_len, getD_append_right _ _ _ _ (le_refl _), Nat.sub_self]
      rfl
    · rw [getD_append_right _ _ _ _ (hlow_len ▸ hk.le), hlow_len]
      obtain ⟨m, hm⟩ : ∃ m, k - lowLen dn i = m + 1 := ⟨k - lowLen dn i - 1, by omega⟩
      rw [hm, cons_append, getD_cons_succ]
      exact hrdn _ m (by omega)

theorem bvrchr_str (hn : i < dn.length) (hlow : i = 0 ∨ lowLen dn i < n) (hhigh : n ≤ lowLen dn (i + 1)) :
    bvrchr (Dn.str [] dn) n = .ok (if i = 0 then none else some (lowLen dn i)) := by
  rw [bvrchr, if_pos (hhigh.trans (lowLen_le hn)), lastComma_str hn hlow hhigh]

theorem bvrchr_lowLen (hn : i < dn.length) : bvrchr (Dn.str [] dn) (lowLen dn (i + 1)) = .ok (if i = 0 then none else some (lowLen dn i)) := by
  refine bvrchr_str hn ?_ (le_refl _)
  by_cases hi : i = 0
  · exact .inl hi
  · have := lowLen_succ (Nat.pos_of_ne_zero hi) hn
    exact .inr (by omega)

theorem cutRdns_str {d k : Nat} (hdk : d + k ≤ dn.length) : cutRdns (Dn.str [] dn) k (lowLen dn (d + k)) = .ok (lowLen dn d) := by
  induction k with
  | zero => rfl
  | succ k ih =>
    rw [cutRdns, ← Nat.add_assoc, bvrchr_lowLen (show d + k < dn.length by omega)]
    by_cases hzero : d + k = 0
    · rw [if_pos hzero, show d = 0 by omega, lowLen_zero]
    · rw [if_neg hzero]
      exact ih (by omega)

theorem count_str (r : Rdn) (up : Dn) : (Dn.str [] (r :: up)).count comma = up.length := by
  induction up generalizing r with
  | nil => simpa [Dn.str_cons, buildNewDn, count_eq_zero] using r.nosep
  | cons r' up ih =>
    rw [Dn.str_cons, buildNewDn, if_neg (by simp [Dn.str_eq_nil]), count_append, count_cons_self, ih,
      count_eq_zero_of_not_mem r.nosep, length_cons]
    omega

theorem suffixRdns_str (up : Dn) : suffixRdns (Dn.str [] up) = up.length := by
  rw [suffixRdns]
  cases up with
  | nil => rw [if_pos Dn.str_nil, length_nil]
  | cons r up =>
    have hcount := count_str r up
    have hfirst : ∃ b rest, Dn.str [] (r :: up) = b :: rest ∧ b ≠ comma := by
      obtain ⟨b, rest, hb⟩ := exists_cons_of_ne_nil r.nonempty
      refine ⟨b, rest ++ upper up, ?_, fun h => r.nosep (by rw [hb, h]; exact mem_cons_self ..)⟩
      rw [← singleton_append (x := r), str_split (by simp)]
      simp [Dn.str_cons, buildNewDn, hb]
    obtain ⟨b, rest, heq, hb⟩ := hfirst
    rw [heq] at hcount ⊢
    rw [count_cons_of_ne hb] at hcount
    rw [if_neg (by simp), tail_cons, hcount, length_cons]

end

/-! ## The run -/

section

variable {dn : Dn} {i : Nat}

def upStart (dn : Dn) (i : Nat) : Nat := (Dn.str [] dn).length - (Dn.str [] (dn.drop i)).length

theorem read_ancestor (hi : i ≤ dn.length) :
    Part.read (Dn.str [] dn) ⟨upStart dn i, (Dn.str [] (dn.drop i)).length⟩ = .ok (Dn.str [] (dn.drop i)) := by
  have hfront : ∃ front, Dn.str [] dn = front ++ Dn.str [] (dn.drop i) := by
    rcases Nat.eq_zero_or_pos i with rfl | hpos
    · exact ⟨[], by simp⟩
    · rw [str_take hpos hi, upper]
      by_cases hd : dn.drop i = []
      · exact ⟨Dn.str [] (dn.take i), by simp [hd]⟩
      · exact ⟨Dn.str [] (dn.take i) ++ [comma], by simp [hd]⟩
  obtain ⟨front, heq⟩ := hfront
  have hstart : upStart dn i = front.length := by
    rw [upStart, heq, length_append]
    omega
  rw [Part.read, hstart, heq, if_pos (by rw [length_append]), drop_left, take_length]

theorem upStart_eq (hpos : 0 < i) (hi : i < dn.length) : upStart dn i = lowLen dn i + 1 := by
  rw [upStart, length_str hpos hi]
  omega

theorem upStart_length : upStart dn dn.length = lowLen dn dn.length := by
  rw [upStart, lowLen_length, drop_length, Dn.str_nil]
  rfl

theorem upStart_pos (hpos : 0 < i) (hi : i ≤ dn.length) : 0 < upStart dn i := by
  rcases Nat.lt_or_eq_of_le hi with hlt | rfl
  · rw [upStart_eq hpos hlt]
    exact Nat.succ_pos _
  · rw [upStart_length, lowLen_length]
    exact length_pos_of_ne_nil (by simpa [Dn.str_eq_nil] using ne_nil_of_length_pos hpos)

theorem lowLen_pos (hpos : 0 < i) (hi : i ≤ dn.length) : lowLen dn i ≠ 0 := by
  rw [lowLen]
  refine (length_pos_of_ne_nil fun h => ?_).ne'
  have hlen := congrArg List.length ((Dn.str_eq_nil.mp h).2)
  rw [length_take, length_nil] at hlen
  omega

theorem upStart_skip {t : Nat} (hpos : 0 < i) (hlen : dn.length = i + t) : lowLen dn i + (if t = 0 then 0 else 1) = upStart dn i := by
  by_cases ht : t = 0
  · obtain rfl : i = dn.length := by omega
    rw [if_pos ht, upStart_length, Nat.add_zero]
  · rw [if_neg ht, upStart_eq hpos (by omega)]

theorem upLen_lt (hpos : 0 < i) (hi : i ≤ dn.length) : (Dn.str [] (dn.drop i)).length < (Dn.str [] dn).length := by
  have h := upStart_pos hpos hi
  rw [upStart] at h
  omega

variable {σ : Type*} (bi_op_add : σ → Glue → σ × WriteResult) (righteous : Bool) (rdns : List (Rdn × Rdn))

/-- The names of the ancestor `d` RDNs above the entry. -/
abbrev upGlue (d : Nat) : Glue :=
  glueEntry righteous (Dn.str [] ((rdns.drop d).map Prod.fst)) (Dn.str [] ((rdns.drop d).map Prod.snd))

/-- The loop, with `d` RDNs left in the pretty DN, and in the normalized one but for its last byte. -/
abbrev glueFrom (fuel nptr d : Nat) (st : σ) (rc : Int) : Except GlueFault (σ × Int × List Glue) :=
  glueLoop bi_op_add righteous (Dn.str [] (rdns.map Prod.fst)) (Dn.str [] (rdns.map Prod.snd)) fuel
    (lowLen (rdns.map Prod.fst) d) nptr
    ⟨upStart (rdns.map Prod.fst) d, (Dn.str [] ((rdns.map Prod.fst).drop d)).length⟩
    ⟨upStart (rdns.map Prod.snd) d, (Dn.str [] ((rdns.map Prod.snd).drop d)).length⟩ st rc

theorem part_next {d : Nat} (hpos : 0 < d) (hd : d < dn.length) :
    (⟨lowLen dn d + 1, (Dn.str [] dn).length - (lowLen dn d + 1)⟩ : Part) = ⟨upStart dn d, (Dn.str [] (dn.drop d)).length⟩ := by
  rw [upStart_eq hpos hd, length_str hpos hd, Nat.add_sub_cancel_left]

theorem glueFrom_step {d fuel nptr : Nat} (hd : d < rdns.length)
    (hlow : d = 0 ∨ lowLen (rdns.map Prod.snd) d < nptr) (hhigh : nptr ≤ lowLen (rdns.map Prod.snd) (d + 1)) (st : σ) (rc : Int) :
    glueFrom bi_op_add righteous rdns (fuel + 1) nptr (d + 1) st rc =
      let r := bi_op_add st (upGlue righteous rdns (d + 1))
      if r.2.sr_err ≠ 0 ∧ r.2.sr_err ≠ LDAP_ALREADY_EXISTS then .ok (r.1, r.2.rc, [upGlue righteous rdns (d + 1)])
      else if d = 0 then .ok (r.1, r.2.rc, [upGlue righteous rdns (d + 1)])
      else (glueFrom bi_op_add righteous rdns fuel (lowLen (rdns.map Prod.snd) d) d r.1 r.2.rc).map
        fun t => (t.1, t.2.1, upGlue righteous rdns (d + 1) :: t.2.2) := by
  have hp : d < (rdns.map Prod.fst).length := by rwa [length_map]
  have hq : d < (rdns.map Prod.snd).length := by rwa [length_map]
  rw [glueFrom, glueLoop, if_neg (upStart_pos (Nat.succ_pos d) hq).ne', read_ancestor (Nat.succ_le_of_lt hp),
    read_ancestor (Nat.succ_le_of_lt hq)]
  simp only [bvrchr_lowLen hp, bvrchr_str hq hlow hhigh]
  rw [← map_drop, ← map_drop]
  by_cases hzero : d = 0
  · simp only [if_pos hzero]
  · have hpos := Nat.pos_of_ne_zero hzero
    simp only [if_neg hzero, part_next hpos hp, part_next hpos hq]

theorem glueFrom_spec {d fuel nptr : Nat} (hd : d < rdns.length) (hfuel : d < fuel)
    (hlow : d = 0 ∨ lowLen (rdns.map Prod.snd) d < nptr) (hhigh : nptr ≤ lowLen (rdns.map Prod.snd) (d + 1)) (st : σ) (rc : Int) :
    glueFrom bi_op_add righteous rdns fuel nptr (d + 1) st rc =
      .ok (addAll bi_op_add st rc (ancestors righteous rdns (d + 1))) := by
  induction d generalizing fuel nptr st rc with
  | zero =>
    obtain ⟨f, rfl⟩ : ∃ f, fuel = f + 1 := ⟨fuel - 1, by omega⟩
    rw [glueFrom_step bi_op_add righteous rdns hd hlow hhigh, ancestors, ancestors, addAll]
    simp only [addAll, if_true]
    split
    · rfl
    · rfl
  | succ d ih =>
    obtain ⟨f, rfl⟩ : ∃ f, fuel = f + 1 := ⟨fuel - 1, by omega⟩
    have hq : d < (rdns.map Prod.snd).length := by rw [length_map]; omega
    rw [glueFrom_step bi_op_add righteous rdns hd hlow hhigh, ancestors, addAll]
    simp only [if_neg (Nat.succ_ne_zero d)]
    split
    · rfl
    · rw [ih (show d < rdns.length by omega) (show d < f by omega) ?_ (le_refl _)]
      · rfl
      · rcases Nat.eq_zero_or_pos d with hz | hpos
        · exact .inl hz
        · have := lowLen_succ hpos hq
          exact .inr (by omega)

theorem length_le_str (dn : Dn) : dn.length ≤ (Dn.str [] dn).length := by
  induction dn with
  | nil => exact Nat.zero_le _
  | cons r dn ih => exact Nat.succ_le_of_lt (lt_of_le_of_lt ih (Dn.length_str_le r dn))

theorem add_glue_ancestors_eq (below top : List (Rdn × Rdn)) (st : σ) :
    syncreplAddGlueAncestors bi_op_add righteous (Dn.str [] (top.map Prod.snd)) (Dn.str [] ((below ++ top).map Prod.fst))
      (Dn.str [] ((below ++ top).map Prod.snd)) st = .ok (addAll bi_op_add st 0 (ancestors righteous (below ++ top) below.length)) := by
  have htop : (Dn.str [] (top.map Prod.snd)) = Dn.str [] (((below ++ top).map Prod.snd).drop below.length) := by
    rw [← map_drop, drop_left]
  have hsuff : suffixRdns (Dn.str [] (top.map Prod.snd)) = top.length := by rw [suffixRdns_str, length_map]
  have hlen : (below ++ top).length = below.length + top.length := length_append
  generalize below ++ top = rdns at htop hlen ⊢
  have hp : (rdns.map Prod.fst).length = below.length + top.length := by rw [length_map, hlen]
  have hq : (rdns.map Prod.snd).length = below.length + top.length := by rw [length_map, hlen]
  have hcut : cutRdns (Dn.str [] (rdns.map Prod.fst)) top.length (Dn.str [] (rdns.map Prod.fst)).length =
      .ok (lowLen (rdns.map Prod.fst) below.length) := by
    rw [← lowLen_length, hp]
    exact cutRdns_str hp.ge
  rw [syncreplAddGlueAncestors, hsuff, hcut]
  generalize below.length = d at *
  dsimp only
  rcases Nat.eq_zero_or_pos d with rfl | hpos
  · -- the entry of the suffix itself
    have hsame : ¬ (Dn.str [] (top.map Prod.snd)).length < (Dn.str [] (rdns.map Prod.snd)).length := by
      rw [htop, drop_zero]
      exact lt_irrefl _
    rw [lowLen_zero, if_neg (by simp), if_neg hsame, glueLoop, if_pos rfl]
    rfl
  · have hpd : d ≤ (rdns.map Prod.fst).length := by omega
    have hqd : d ≤ (rdns.map Prod.snd).length := by omega
    have hplen := upLen_lt hpos hpd
    have hqlen := upLen_lt hpos hqd
    have hstart := upStart_skip hpos hp
    have hqstart := upStart_skip hpos hq
    have hfits : ¬ (Dn.str [] (rdns.map Prod.fst)).length < upStart (rdns.map Prod.fst) d := by
      rw [upStart]
      omega
    have hrest : (Dn.str [] (rdns.map Prod.fst)).length - upStart (rdns.map Prod.fst) d =
        (Dn.str [] ((rdns.map Prod.fst).drop d)).length := by
      rw [upStart]
      omega
    have hcount := length_le_str (rdns.map Prod.fst)
    rw [hstart, if_neg fun h => hfits h.2, if_neg (lowLen_pos hpos hpd), htop, if_pos hqlen, hrest]
    obtain ⟨d, rfl⟩ : ∃ m, d = m + 1 := ⟨d - 1, by omega⟩
    refine glueFrom_spec bi_op_add righteous rdns (by omega) (by omega) ?_ ?_ st 0
    · rcases Nat.eq_zero_or_pos d with hz | hdpos
      · exact .inl hz
      · have := @lowLen_succ (rdns.map Prod.snd) d hdpos (by omega)
        right
        change _ < upStart (rdns.map Prod.snd) (d + 1) - 1
        rw [← hqstart]
        omega
    · change upStart (rdns.map Prod.snd) (d + 1) - 1 ≤ _
      rw [← hqstart]
      split
      · omega
      · omega

theorem mem_ancestors {d : Nat} {g : Glue} : g ∈ ancestors righteous rdns d ↔ ∃ i, 0 < i ∧ i ≤ d ∧ g = upGlue righteous rdns i := by
  induction d with
  | zero => simp [ancestors]
  | succ d ih =>
    rw [ancestors, mem_cons, ih]
    constructor
    · rintro (rfl | ⟨i, hpos, hi, rfl⟩)
      · exact ⟨d + 1, Nat.succ_pos d, le_refl _, rfl⟩
      · exact ⟨i, hpos, Nat.le_succ_of_le hi, rfl⟩
    · rintro ⟨i, hpos, hi, rfl⟩
      rcases Nat.le_succ_iff.mp hi with hi | rfl
      · exact .inr ⟨i, hpos, hi, rfl⟩
      · exact .inl rfl

theorem ancestors_down {d : Nat} (hd : d ≤ rdns.length) :
    (ancestors righteous rdns d).Pairwise fun a b => a.e_nname.length < b.e_nname.length := by
  induction d with
  | zero => exact .nil
  | succ d ih =>
    refine List.pairwise_cons.mpr ⟨fun g hg => ?_, ih (Nat.le_of_succ_le hd)⟩
    obtain ⟨i, -, hi, rfl⟩ := (mem_ancestors righteous rdns).mp hg
    have hdrop : (rdns.drop (d + 1)).map Prod.snd = ((rdns.drop i).map Prod.snd).drop (d + 1 - i) := by
      rw [← map_drop, drop_drop, Nat.add_sub_cancel' (Nat.le_succ_of_le hi)]
    rw [upGlue, glueEntry, glueEntry]
    simp only [hdrop]
    refine upLen_lt (by omega) ?_
    rw [length_map, length_drop]
    omega

/-- An entry with the RDNs `below` under the suffix `top`, each pretty and normalized: the adds of its proper ancestors inside the
suffix are requested, from the suffix downwards, up to the first one that fails. -/
theorem add_glue_ancestors (below top : List (Rdn × Rdn)) (st : σ) :
    let glues := ancestors righteous (below ++ top) below.length
    syncreplAddGlueAncestors bi_op_add righteous (Dn.str [] (top.map Prod.snd)) (Dn.str [] ((below ++ top).map Prod.fst))
      (Dn.str [] ((below ++ top).map Prod.snd)) st = .ok (addAll bi_op_add st 0 glues) ∧
    (glues.Pairwise fun a b => a.e_nname.length < b.e_nname.length) ∧
    ∀ g, g ∈ glues ↔ ∃ low mid, below = low ++ mid ∧ low ≠ [] ∧
      g = glueEntry righteous (Dn.str [] ((mid ++ top).map Prod.fst)) (Dn.str [] ((mid ++ top).map Prod.snd)) := by
  refine ⟨add_glue_ancestors_eq bi_op_add righteous below top st, ancestors_down righteous _ (by simp), fun g => ?_⟩
  rw [mem_ancestors]
  constructor
  · rintro ⟨i, hpos, hi, rfl⟩
    refine ⟨below.take i, below.drop i, (take_append_drop i below).symm, fun h => ?_, ?_⟩
    · have hlen := congrArg List.length h
      rw [length_take, length_nil] at hlen
      omega
    · rw [upGlue, drop_append_of_le_length hi]
  · rintro ⟨low, mid, rfl, hlow, rfl⟩
    refine ⟨low.length, length_pos_of_ne_nil hlow, by simp, ?_⟩
    rw [upGlue, append_assoc, drop_left]

end

end Sync
end ReOpenLDAP
