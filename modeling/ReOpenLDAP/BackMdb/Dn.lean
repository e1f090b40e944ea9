import ReOpenLDAP.BackMdb.Idl
import Mathlib.Order.Fin.Basic
import Mathlib.Data.List.TakeWhile
import Mathlib.Data.List.Induction

/-!
# BackMdb.Dn

Distinguished names as slapd handles them: strings of bytes in which `,` separates the RDNs. A
normalized or pretty DN escapes the commas of values in hexadecimal, so that every comma of the
string is a separator and the code may just look for it.

A DN inside a backend is the list of its RDNs below the suffix, the lowest first (`Dn`), and
`Dn.str` is the string the functions receive. The suffix is stored as one node whatever the
number of its RDNs, so the nodes on the way to an entry are named by `Dn.parts`.
-/

namespace ReOpenLDAP
namespace BackMdb

open List

def comma : Byte := 44

abbrev DN_SEPARATOR (c : Byte) : Prop := c = comma

/-- `dnParent`: what follows the first separator. -/
def dnParent (dn : List Byte) : List Byte := (dn.dropWhile fun c => c ≠ comma).tail

def dnRdn (dn : List Byte) : List Byte := dn.takeWhile fun c => c ≠ comma

/-- `dn_rdnlen`: the length of the first RDN, 0 for the empty DN and for the backend's suffix. -/
def dnRdnlen (suffix dn : List Byte) : Nat :=
  if dn = [] then 0
  else if dn = suffix then 0
  else (dnRdn dn).length

def buildNewDn (parentDn newrdn : List Byte) : List Byte :=
  if parentDn = [] then newrdn else newrdn ++ comma :: parentDn

/-- `dnIsSuffix`: whether `dn` is `suffix` or lies below it. -/
def dnIsSuffix (dn suffix : List Byte) : Bool :=
  if suffix = [] then true
  else if dn.length < suffix.length then false
  else
    let d := dn.length - suffix.length
    if 1 < d ∧ ¬ DN_SEPARATOR (dn.getD (d - 1) 0) then false
    else if d = 1 then false
    else dn.drop d = suffix

/-- The scan of `mdb_dn2id` for the separator in front of an RDN, over the first `n` bytes: the
position behind the last comma, or the start of the string. -/
def rdnStart (dn : List Byte) : Nat → Nat
  | 0 => 0
  | p + 1 => if DN_SEPARATOR (dn.getD p 0) then p + 1 else rdnStart dn p

structure Rdn where
  bytes : List Byte
  nonempty : bytes ≠ []
  nosep : comma ∉ bytes

abbrev Dn := List Rdn

def joinRdns : List (List Byte) → List Byte
  | [] => []
  | [r] => r
  | r :: s :: rs => r ++ comma :: joinRdns (s :: rs)

namespace Dn

def parts (suffix : List Byte) (dn : Dn) : List (List Byte) :=
  dn.map Rdn.bytes ++ if suffix = [] then [] else [suffix]

def str (suffix : List Byte) (dn : Dn) : List Byte := joinRdns (parts suffix dn)

end Dn

theorem joinRdns_cons {r : List Byte} {rs : List (List Byte)} :
    joinRdns (r :: rs) = if rs = [] then r else r ++ comma :: joinRdns rs := by
  cases rs <;> simp [joinRdns]

namespace Dn

variable {suffix : List Byte}

@[simp] theorem parts_nil : parts suffix [] = if suffix = [] then [] else [suffix] := by simp [parts]

@[simp] theorem parts_cons (r : Rdn) (dn : Dn) : parts suffix (r :: dn) = r.bytes :: parts suffix dn := rfl

theorem parts_eq_nil {dn : Dn} : parts suffix dn = [] ↔ suffix = [] ∧ dn = [] := by
  unfold parts
  split_ifs with h <;> simp [h]

theorem ne_nil_of_mem_parts {dn : Dn} {n : List Byte} (h : n ∈ parts suffix dn) : n ≠ [] := by
  unfold parts at h
  cases List.mem_append.mp h with
  | inl h =>
    obtain ⟨r, -, hr⟩ := List.mem_map.mp h
    exact hr ▸ r.nonempty
  | inr h =>
    split_ifs at h with hs
    · cases h
    · rw [List.mem_singleton.mp h]
      exact hs

@[simp] theorem str_nil : str suffix [] = suffix := by
  unfold str
  rw [parts_nil]
  split_ifs with h
  · exact h.symm
  · rfl

theorem str_eq_nil {dn : Dn} : str suffix dn = [] ↔ suffix = [] ∧ dn = [] := by
  cases dn with
  | nil => simp
  | cons r dn =>
    have hr := r.nonempty
    unfold str
    rw [parts_cons, joinRdns_cons]
    split_ifs <;> simp [hr]

theorem str_cons (r : Rdn) (dn : Dn) : str suffix (r :: dn) = buildNewDn (str suffix dn) r.bytes := by
  have hnil : parts suffix dn = [] ↔ str suffix dn = [] := by rw [parts_eq_nil, str_eq_nil]
  unfold buildNewDn
  simp only [← hnil]
  unfold str
  rw [parts_cons, joinRdns_cons]

theorem length_str_le (r : Rdn) (dn : Dn) : (str suffix dn).length < (str suffix (r :: dn)).length := by
  have hr : 0 < r.bytes.length := length_pos_of_ne_nil r.nonempty
  rw [str_cons]
  unfold buildNewDn
  split_ifs with h
  · simpa [h] using hr
  · simp only [length_append, length_cons]
    omega

theorem suffix_length_le (dn : Dn) : suffix.length ≤ (str suffix dn).length := by
  induction dn with
  | nil => simp
  | cons r dn ih => exact ih.trans (length_str_le r dn).le

@[simp] theorem str_cons_ne_suffix (r : Rdn) (dn : Dn) : str suffix (r :: dn) ≠ suffix := by
  intro h
  have h₁ : (str suffix dn).length < (str suffix (r :: dn)).length := length_str_le r dn
  have h₂ : suffix.length ≤ (str suffix dn).length := suffix_length_le dn
  rw [h] at h₁
  omega

theorem dnRdn_buildNewDn {r : List Byte} (hr : comma ∉ r) (dn : List Byte) : dnRdn (buildNewDn dn r) = r := by
  have hall : ∀ c ∈ r, (decide (c ≠ comma)) = true := by
    intro c hc
    simpa using fun h : c = comma => hr (h ▸ hc)
  unfold buildNewDn dnRdn
  split_ifs with h
  · exact List.takeWhile_eq_self_iff.mpr hall
  · rw [takeWhile_append_of_pos hall]
    simp

theorem comma_notMem_dnRdn (dn : List Byte) : comma ∉ dnRdn dn := by
  intro h
  have := mem_takeWhile_imp h
  simp at this

@[simp] theorem dnRdnlen_cons (r : Rdn) (dn : Dn) : dnRdnlen suffix (str suffix (r :: dn)) = r.bytes.length := by
  have hne : str suffix (r :: dn) ≠ [] := by
    intro h
    have := (str_eq_nil.mp h).2
    cases this
  unfold dnRdnlen
  rw [if_neg hne, if_neg (str_cons_ne_suffix r dn), str_cons, dnRdn_buildNewDn r.nosep]

@[simp] theorem dnRdnlen_suffix : dnRdnlen suffix suffix = 0 := by
  unfold dnRdnlen
  simp

@[simp] theorem dnParent_cons (r : Rdn) (dn : Dn) : dnParent (str suffix (r :: dn)) = str suffix dn := by
  have hall : ∀ c ∈ r.bytes, (decide (c ≠ comma)) = true := by
    intro c hc
    simpa using fun h : c = comma => r.nosep (h ▸ hc)
  rw [str_cons]
  unfold buildNewDn dnParent
  split_ifs with h
  · rw [List.dropWhile_eq_nil_iff.mpr hall, h]
    rfl
  · rw [dropWhile_append_of_pos hall]
    simp

theorem map_bytes_eq_of_str_eq {dn dn' : Dn} (h : str suffix dn = str suffix dn') :
    dn.map Rdn.bytes = dn'.map Rdn.bytes := by
  induction dn generalizing dn' with
  | nil =>
    cases dn' with
    | nil => rfl
    | cons r dn' =>
      rw [str_nil] at h
      exact absurd h.symm (str_cons_ne_suffix r dn')
  | cons r dn ih =>
    cases dn' with
    | nil =>
      rw [str_nil] at h
      exact absurd h (str_cons_ne_suffix r dn)
    | cons r' dn' =>
      have hr := congrArg dnRdn h
      rw [str_cons, str_cons, dnRdn_buildNewDn r.nosep, dnRdn_buildNewDn r'.nosep] at hr
      have hp := congrArg dnParent h
      rw [dnParent_cons, dnParent_cons] at hp
      rw [map_cons, map_cons, hr, ih hp]

theorem parts_eq_of_str_eq {dn dn' : Dn} (h : str suffix dn = str suffix dn') : parts suffix dn = parts suffix dn' := by
  unfold parts
  rw [map_bytes_eq_of_str_eq h]

theorem dnIsSuffix_of_parts {sup dn : Dn} (h : parts suffix dn <:+ parts suffix sup) :
    ∃ low dn', sup = low ++ dn' ∧ str suffix dn' = str suffix dn := by
  obtain ⟨pre, hpre⟩ := h
  unfold parts at hpre
  rw [← append_assoc] at hpre
  have hmap := append_cancel_right hpre
  obtain ⟨low, dn', hsup, -, hdn⟩ := List.map_eq_append_iff.mp hmap.symm
  refine ⟨low, dn', hsup, ?_⟩
  unfold str parts
  rw [hdn]

theorem str_append (r : Rdn) (low dn : Dn) (hne : str suffix dn ≠ []) :
    ∃ pre, str suffix (r :: low ++ dn) = pre ++ comma :: str suffix dn ∧ pre ≠ [] := by
  induction low generalizing r with
  | nil =>
    refine ⟨r.bytes, ?_, r.nonempty⟩
    rw [cons_append, List.nil_append, str_cons, buildNewDn, if_neg hne]
  | cons s low ih =>
    obtain ⟨pre, hpre, -⟩ := ih s
    refine ⟨r.bytes ++ comma :: pre, ?_, by simp⟩
    have hne' : str suffix (s :: low ++ dn) ≠ [] := by
      rw [hpre]
      simp
    rw [cons_append, str_cons, buildNewDn, if_neg hne', hpre]
    simp

theorem dnIsSuffix_str (low dn : Dn) : dnIsSuffix (str suffix (low ++ dn)) (str suffix dn) = true := by
  unfold dnIsSuffix
  split_ifs with hne hlen
  · rfl
  · exfalso
    cases low with
    | nil => simp at hlen
    | cons r low =>
      obtain ⟨pre, hpre, -⟩ := str_append r low dn hne
      rw [hpre] at hlen
      simp only [length_append, length_cons] at hlen
      omega
  · cases low with
    | nil => simp
    | cons r low =>
      obtain ⟨pre, hpre, hpne⟩ := str_append r low dn hne
      have hpos : 0 < pre.length := length_pos_of_ne_nil hpne
      have hd : (pre ++ comma :: str suffix dn).length - (str suffix dn).length = pre.length + 1 := by
        simp only [length_append, length_cons]
        omega
      have hsep : (pre ++ comma :: str suffix dn).getD pre.length 0 = comma := by simp
      have hdrop : (pre ++ comma :: str suffix dn).drop (pre.length + 1) = str suffix dn := by
        simp [drop_append]
      rw [hpre]
      simp only [hd, Nat.add_sub_cancel, hsep, hdrop]
      simp [hpne]

end Dn

theorem length_joinRdns_append (low up : List (List Byte)) (hne : ∀ n ∈ low, n ≠ []) :
    low.length + (joinRdns up).length ≤ (joinRdns (low ++ up)).length := by
  induction low with
  | nil => simp
  | cons n low ih =>
    have hn : 0 < n.length := length_pos_of_ne_nil (hne n mem_cons_self)
    have hlow := ih fun m hm => hne m (mem_cons_of_mem _ hm)
    rw [cons_append, joinRdns_cons, length_cons]
    split_ifs with h
    · rw [h] at hlow
      simp only [joinRdns, length_nil] at hlow
      omega
    · simp only [length_append, length_cons]
      omega

/-! ## The backward scan -/

theorem rdnStart_append (a b c : List Byte) (hb : comma ∉ b) (ha : a = [] ∨ ∃ a', a = a' ++ [comma]) :
    rdnStart (a ++ b ++ c) (a.length + b.length) = a.length := by
  induction b using List.reverseRecOn generalizing c with
  | nil =>
    cases ha with
    | inl ha => simp [ha, rdnStart]
    | inr ha =>
      obtain ⟨a', rfl⟩ := ha
      simp [rdnStart]
  | append_singleton b x ih =>
    have hx : x ≠ comma := fun h => hb (by simp [h])
    have hb' : comma ∉ b := fun h => hb (by simp [h])
    have hget : (a ++ (b ++ [x]) ++ c).getD (a.length + b.length) 0 = x := by
      rw [show a ++ (b ++ [x]) ++ c = (a ++ b) ++ x :: c by simp, ← length_append]
      simp
    rw [length_append, length_singleton, ← Nat.add_assoc, rdnStart, hget, if_neg hx,
      show a ++ (b ++ [x]) ++ c = a ++ b ++ (x :: c) by simp]
    exact ih (x :: c) hb'

/-- What precedes an RDN in a DN string; the names are those of the nodes below it, the highest
first. -/
def lowerPart : List (List Byte) → List Byte
  | [] => []
  | n :: ns => lowerPart ns ++ n ++ [comma]

theorem joinRdns_reverse (top : List Byte) (ns : List (List Byte)) :
    joinRdns (ns.reverse ++ [top]) = lowerPart ns ++ top := by
  induction ns generalizing top with
  | nil => rfl
  | cons n ns ih =>
    have hsnoc : ∀ (rs : List (List Byte)) (x : List Byte), joinRdns (rs ++ [n] ++ [x]) =
        joinRdns (rs ++ [n]) ++ comma :: x := by
      intro rs x
      induction rs with
      | nil => rfl
      | cons r rs ihr =>
        rw [cons_append, cons_append, joinRdns_cons, joinRdns_cons, ihr]
        simp
    rw [reverse_cons, hsnoc, ih]
    simp [lowerPart]

theorem rdnStart_lowerPart {n : List Byte} (ns : List (List Byte)) (rest : List Byte) (hn : comma ∉ n) :
    rdnStart (lowerPart ns ++ n ++ rest) ((lowerPart ns).length + n.length) = (lowerPart ns).length := by
  refine rdnStart_append _ n rest hn ?_
  cases ns with
  | nil => exact .inl rfl
  | cons m ns => exact .inr ⟨_, rfl⟩

end BackMdb
end ReOpenLDAP
