import ReOpenLDAP.Lib.InPlace
import ReOpenLDAP.Sync.Replay

/-!
# Sync.RefreshCookie

The start of a refresh: the consumer's cookie against the provider's. Both are pairs of arrays that are walked by index,
and the consumer's are compacted in place. An access outside of an array is `none` here.
-/

namespace ReOpenLDAP
namespace Sync

open InPlace SyncCookie List

/-- `sids` and `ctxcsn` of a cookie, and how much of them is in use. -/
structure CookieArrays where
  numcsns : Nat
  sids : List Nat
  ctxcsn : List (List Char)

def SyncCookie.arrays (ck : SyncCookie) : CookieArrays where
  numcsns := ck.csns.length
  sids := ck.csns.map Prod.fst
  ctxcsn := ck.csns.map fun p => p.2.text

/-- Element `i` leaves the arrays. The memory of its CSN is kept behind the `numcsns` that stay, with length 0. -/
def dropCsn (numcsns i : Nat) (sids : List Nat) (ctxcsn : List (List Char)) : Option (List Nat × List (List Char)) := do
  let _tmp ← ctxcsn[i]?
  let ctxcsn ← shiftDown ctxcsn numcsns i
  let sids ← shiftDown sids numcsns i
  let ctxcsn ← store ctxcsn numcsns []
  some (sids, ctxcsn)

/-- The scan of the provider's SIDs from `j` on, and whether it stops at `sid`. -/
def scanKnown (sids : List Nat) (numcsns sid j : Nat) : Option Bool :=
  if _h : j < numcsns then do
    let s ← sids[j]?
    if sid ≤ s then some (sid = s) else scanKnown sids numcsns sid (j + 1)
  else some false
termination_by numcsns - j

structure Pivot where
  pivot_csn : List Char
  pivot_sid : Int
deriving DecidableEq

def Pivot.take (pivot : Pivot) (sid : Nat) (csn : List Char) : Pivot :=
  if pivot.pivot_csn = [] ∨ slapCsnCompareTs pivot.pivot_csn csn = .gt then ⟨csn, sid⟩ else pivot

/-- "If there are SIDs we don't recognize in the cookie, drop them" -/
def dropSids (provider : CookieArrays) (numcsns i : Nat) (sids : List Nat) (ctxcsn : List (List Char)) (pivot : Pivot) :
    Option (CookieArrays × Pivot) :=
  if _h : i < numcsns then do
    let sid ← sids[i]?
    let known ← scanKnown provider.sids provider.numcsns sid i
    if known then
      let csn ← ctxcsn[i]?
      dropSids provider numcsns (i + 1) sids ctxcsn (pivot.take sid csn)
    else
      let (sids, ctxcsn) ← dropCsn (numcsns - 1) i sids ctxcsn
      dropSids provider (numcsns - 1) i sids ctxcsn pivot
  else some (⟨numcsns, sids, ctxcsn⟩, pivot)
termination_by numcsns - i

/-- `while (sid != sids[j]) j++;` -/
def seekSid (sids : List Nat) (sid j : Nat) : Option Nat :=
  if _h : j < sids.length then
    if sid = sids[j] then some j else seekSid sids sid (j + 1)
  else none
termination_by sids.length - j

/-- How the comparison ends. The refusal shows `sids[i]` of the provider. -/
inductive Compared where
  | newer (shown : Nat)
  | done (changed : Bool)
deriving DecidableEq

/-- "comparison consumer's and provider's CSNs" -/
def compareCsns (serverID : Nat) (provider consumer : CookieArrays) (i j : Nat) (changed : Bool) : Option Compared :=
  if _h : i < consumer.numcsns then do
    let sid ← consumer.sids[i]?
    let j ← seekSid provider.sids sid j
    guard (j < provider.numcsns)
    let csn ← consumer.ctxcsn[i]?
    let own ← provider.ctxcsn[j]?
    let psid ← provider.sids[j]?
    let cmp := slapCsnCompareTs csn own
    if cmp = .lt then compareCsns serverID provider consumer (i + 1) j true
    else if cmp = .gt ∧ psid = serverID then
      let shown ← provider.sids[i]?
      some (.newer shown)
    else compareCsns serverID provider consumer (i + 1) j changed
  else some (.done changed)
termination_by consumer.numcsns - i

def opSearchLoops (serverID : Nat) (provider consumer : CookieArrays) : Option (CookieArrays × Pivot × Compared) := do
  let (consumer, pivot) ← dropSids provider consumer.numcsns 0 consumer.sids consumer.ctxcsn ⟨[], -1⟩
  let compared ← compareCsns serverID provider consumer 0 0 false
  some (consumer, pivot, compared)

structure CsnsHeld (sids : List Nat) (ctxcsn : List (List Char)) (l : List (Nat × Csn)) : Prop where
  sids : l.map Prod.fst <+: sids
  ctxcsn : (l.map fun p => p.2.text) <+: ctxcsn

section

variable {sids : List Nat} {ctxcsn : List (List Char)} {kept rest : List (Nat × Csn)} {p : Nat × Csn}

theorem CsnsHeld.sid (h : CsnsHeld sids ctxcsn (kept ++ p :: rest)) : sids[kept.length]? = some p.1 := by
  obtain ⟨tail, ht⟩ := h.sids
  rw [← ht, map_append, append_assoc, List.getElem?_append_right (by simp), length_map, Nat.sub_self]
  rfl

theorem CsnsHeld.csn (h : CsnsHeld sids ctxcsn (kept ++ p :: rest)) : ctxcsn[kept.length]? = some p.2.text := by
  obtain ⟨tail, ht⟩ := h.ctxcsn
  rw [← ht, map_append, append_assoc, List.getElem?_append_right (by simp), length_map, Nat.sub_self]
  rfl

theorem dropCsn_spec (h : CsnsHeld sids ctxcsn (kept ++ p :: rest)) :
    ∃ sids' ctxcsn', dropCsn (kept.length + rest.length) kept.length sids ctxcsn = some (sids', ctxcsn') ∧
      CsnsHeld sids' ctxcsn' (kept ++ rest) := by
  have htmp := h.csn
  obtain ⟨⟨post, hsids⟩, ⟨post', hcsns⟩⟩ := h
  obtain ⟨y, hy⟩ := shiftDown_spec (kept.map Prod.fst) (rest.map Prod.fst) post p.1
  obtain ⟨z, hz⟩ := shiftDown_spec (kept.map fun q => q.2.text) (rest.map fun q => q.2.text) post' p.2.text
  simp only [length_map] at hy hz
  rw [map_append, map_cons, append_assoc, cons_append] at hsids hcsns
  subst hsids hcsns
  have hstore : store ((kept.map fun q => q.2.text) ++ ((rest.map fun q => q.2.text) ++ z :: post')) (kept.length + rest.length)
      [] = some (((kept.map fun q => q.2.text) ++ (rest.map fun q => q.2.text)) ++ [] :: post') := by
    rw [store_eq (by simp), ← append_assoc, set_append_right _ _ (by simp)]
    simp
  refine ⟨kept.map Prod.fst ++ (rest.map Prod.fst ++ y :: post),
    ((kept.map fun q => q.2.text) ++ rest.map fun q => q.2.text) ++ [] :: post', ?_, ⟨y :: post, ?_⟩, ⟨[] :: post', ?_⟩⟩
  · unfold dropCsn
    simp only [htmp, hy, hz, hstore, Option.bind_eq_bind, Option.bind_some]
  · rw [map_append, append_assoc]
  · rw [map_append]

end

/-! ## Dropping what the provider does not know -/

section

theorem lt_of_mem_take {s ks : List Nat} {sid : Nat} (hs : s.Pairwise (· < ·)) (hnd : ks.Nodup)
    (hsub : ∀ k ∈ ks, k ∈ s ∧ k < sid) :
    ∀ x ∈ s.take ks.length, x < sid := by
  intro x hx
  by_contra hge
  obtain ⟨a, b, hab⟩ := append_of_mem hx
  have hsplit : s = a ++ x :: (b ++ s.drop ks.length) := by
    rw [← cons_append, ← append_assoc, ← hab, take_append_drop]
  have hlen : a.length < ks.length := by
    have hle := length_take_le ks.length s
    rw [hab, length_append, length_cons] at hle
    omega
  have hincl : ks ⊆ a := by
    intro k hk
    obtain ⟨hmem, hlt⟩ := hsub k hk
    rw [hsplit] at hmem hs
    rcases List.mem_append.mp hmem with hka | hkx
    · exact hka
    · have hle : x ≤ k := by
        rcases List.mem_cons.mp hkx with heq | htail
        · exact heq.ge
        · exact (rel_of_pairwise_cons (List.pairwise_append.mp hs).2.1 htail).le
      omega
  have hcard := (hnd.subperm hincl).length_le
  omega

theorem scanKnown_spec {s : List Nat} {sid j : Nat} (hs : s.Pairwise (· < ·)) (hj : j ≤ s.length)
    (hbefore : ∀ x ∈ s.take j, x < sid) : scanKnown s s.length sid j = some (decide (sid ∈ s)) := by
  induction j using scanKnown.induct s.length with
  | case1 j hlt ih =>
    have hsplit : s = s.take j ++ s[j] :: s.drop (j + 1) := by rw [← drop_eq_getElem_cons hlt, take_append_drop]
    have hget : s[j]? = some s[j] := List.getElem?_eq_getElem hlt
    rw [scanKnown, dif_pos hlt]
    simp only [hget, Option.bind_eq_bind, Option.bind_some]
    by_cases hle : sid ≤ s[j]
    · have hmem : sid ∈ s ↔ sid = s[j] := by
        refine ⟨fun hin => ?_, fun heq => heq ▸ getElem_mem hlt⟩
        rw [hsplit] at hin hs
        rcases List.mem_append.mp hin with htake | hrest
        · exact absurd (hbefore sid htake) (lt_irrefl sid)
        · rcases List.mem_cons.mp hrest with heq | htail
          · exact heq
          · have := rel_of_pairwise_cons (List.pairwise_append.mp hs).2.1 htail
            omega
      rw [if_pos hle]
      exact congrArg some (decide_eq_decide.mpr hmem.symm)
    · rw [if_neg hle]
      refine ih hlt fun x hx => ?_
      rw [take_succ_eq_append_getElem hlt, mem_append, mem_singleton] at hx
      rcases hx with hx | rfl
      · exact hbefore x hx
      · exact not_le.mp hle
  | case2 j hge =>
    rw [scanKnown, dif_neg hge]
    rw [take_of_length_le (not_lt.mp hge)] at hbefore
    have hnot : sid ∉ s := fun hin => lt_irrefl sid (hbefore sid hin)
    rw [decide_eq_false hnot]

def Oldest (l : List (Nat × Csn)) (pivot : Pivot) : Prop :=
  (l = [] → pivot = ⟨[], -1⟩) ∧
    (l ≠ [] → ∃ p ∈ l, pivot = ⟨p.2.text, p.1⟩ ∧ ∀ q ∈ l, p.2.ts ≤ q.2.ts)

theorem Csn.text_ne_nil (c : Csn) : c.text ≠ [] := by
  intro h
  have hlen := c.length_text
  rw [h] at hlen
  cases hlen

theorem Oldest.take {l : List (Nat × Csn)} {pivot : Pivot} (h : Oldest l pivot) (q : Nat × Csn) :
    Oldest (l ++ [q]) (pivot.take q.1 q.2.text) := by
  refine ⟨fun hnil => absurd hnil (by simp), fun _ => ?_⟩
  unfold Pivot.take
  by_cases hl : l = []
  · subst hl
    rw [h.1 rfl, if_pos (.inl rfl)]
    exact ⟨q, by simp, rfl, by simp⟩
  · obtain ⟨p, hp, rfl, hmin⟩ := h.2 hl
    by_cases hgt : q.2.ts < p.2.ts
    · rw [if_pos (.inr (Csn.compareTs_gt.mpr hgt))]
      refine ⟨q, by simp, rfl, fun r hr => ?_⟩
      rcases List.mem_append.mp hr with hr | hr
      · exact hgt.le.trans (hmin r hr)
      · rw [List.mem_singleton.mp hr]
    · rw [if_neg (not_or.mpr ⟨p.2.text_ne_nil, fun hcmp => hgt (Csn.compareTs_gt.mp hcmp)⟩)]
      refine ⟨p, by simp [hp], rfl, fun r hr => ?_⟩
      rcases List.mem_append.mp hr with hr | hr
      · exact hmin r hr
      · rw [List.mem_singleton.mp hr]
        exact not_lt.mp hgt

def knownBy (provider : SyncCookie) (l : List (Nat × Csn)) : List (Nat × Csn) :=
  l.filter fun p => p.1 ∈ provider.csns.map Prod.fst

variable {provider : SyncCookie}

theorem sids_pairwise {l : List (Nat × Csn)} (h : DupSort.SortedBy Prod.fst l) : (l.map Prod.fst).Pairwise (· < ·) :=
  List.pairwise_map.mpr h

theorem knownBy_cons_pos {p : Nat × Csn} (h : p.1 ∈ provider.csns.map Prod.fst) (l : List (Nat × Csn)) :
    knownBy provider (p :: l) = p :: knownBy provider l := filter_cons_of_pos (by simpa using h)

theorem knownBy_cons_neg {p : Nat × Csn} (h : p.1 ∉ provider.csns.map Prod.fst) (l : List (Nat × Csn)) :
    knownBy provider (p :: l) = knownBy provider l := filter_cons_of_neg (by simpa using h)

theorem kept_before (hp : DupSort.SortedBy Prod.fst provider.csns) {kept rest : List (Nat × Csn)} {p : Nat × Csn}
    (hsorted : DupSort.SortedBy Prod.fst (kept ++ p :: rest)) (hknown : ∀ k ∈ kept, k.1 ∈ provider.csns.map Prod.fst) :
    kept.length ≤ (provider.csns.map Prod.fst).length ∧ ∀ x ∈ (provider.csns.map Prod.fst).take kept.length, x < p.1 := by
  have hks : ∀ k ∈ kept.map Prod.fst, k ∈ provider.csns.map Prod.fst ∧ k < p.1 := by
    intro k hk
    obtain ⟨q, hq, rfl⟩ := List.mem_map.mp hk
    exact ⟨hknown q hq, (List.pairwise_append.mp hsorted).2.2 q hq p mem_cons_self⟩
  have hnd : (kept.map Prod.fst).Nodup := (sids_pairwise (List.pairwise_append.mp hsorted).1).imp ne_of_lt
  have hbefore := lt_of_mem_take (sids_pairwise hp) hnd hks
  have hlen := (hnd.subperm fun k hk => (hks k hk).1).length_le
  rw [length_map] at hbefore hlen
  exact ⟨hlen, hbefore⟩

theorem dropSids_spec (hp : DupSort.SortedBy Prod.fst provider.csns) (rest kept : List (Nat × Csn)) (sids : List Nat)
    (ctxcsn : List (List Char)) (pivot : Pivot) (hheld : CsnsHeld sids ctxcsn (kept ++ rest))
    (hsorted : DupSort.SortedBy Prod.fst (kept ++ rest)) (hknown : ∀ k ∈ kept, k.1 ∈ provider.csns.map Prod.fst)
    (hold : Oldest kept pivot) :
    ∃ sids' ctxcsn' pivot',
      dropSids provider.arrays (kept.length + rest.length) kept.length sids ctxcsn pivot =
          some (⟨(kept ++ knownBy provider rest).length, sids', ctxcsn'⟩, pivot') ∧
        CsnsHeld sids' ctxcsn' (kept ++ knownBy provider rest) ∧ Oldest (kept ++ knownBy provider rest) pivot' := by
  induction rest generalizing kept sids ctxcsn pivot with
  | nil =>
    refine ⟨sids, ctxcsn, pivot, ?_, hheld, ?_⟩
    · rw [dropSids, dif_neg (by simp)]
      simp [knownBy]
    · simpa [knownBy] using hold
  | cons p rest ih =>
    have hsid := hheld.sid
    obtain ⟨hlen, hbefore⟩ := kept_before hp hsorted hknown
    have hscan := scanKnown_spec (sids_pairwise hp) hlen hbefore
    rw [length_map] at hscan
    rw [dropSids, dif_pos (by simp)]
    simp only [hsid, SyncCookie.arrays, hscan, Option.bind_eq_bind, Option.bind_some]
    by_cases hin : p.1 ∈ provider.csns.map Prod.fst
    · have hkeep : kept ++ knownBy provider (p :: rest) = (kept ++ [p]) ++ knownBy provider rest := by
        rw [knownBy_cons_pos hin, append_cons]
      have hcsn := hheld.csn
      rw [append_cons] at hheld hsorted
      obtain ⟨sids', ctxcsn', pivot', hrun, hspec⟩ := ih (kept ++ [p]) sids ctxcsn (pivot.take p.1 p.2.text) hheld hsorted
        (List.forall_mem_append.mpr ⟨hknown, List.forall_mem_singleton.mpr hin⟩) (hold.take p)
      refine ⟨sids', ctxcsn', pivot', ?_, hkeep ▸ hspec⟩
      rw [if_pos (decide_eq_true hin)]
      simp only [hcsn, Option.bind_some]
      rw [hkeep, ← hrun, length_append, length_singleton, length_cons, Nat.add_assoc, Nat.add_comm 1]
      rfl
    · have hdrop := knownBy_cons_neg hin rest
      obtain ⟨sids1, ctxcsn1, hcsn, hheld1⟩ := dropCsn_spec hheld
      obtain ⟨sids', ctxcsn', pivot', hrun, hspec⟩ := ih kept sids1 ctxcsn1 pivot hheld1
        (hsorted.sublist (List.Sublist.append_left (sublist_cons_self p rest) kept)) hknown hold
      refine ⟨sids', ctxcsn', pivot', ?_, hdrop ▸ hspec⟩
      rw [if_neg (by simpa using hin), length_cons, ← Nat.add_assoc, Nat.add_sub_cancel]
      simp only [hcsn, Option.bind_some]
      rw [hdrop, ← hrun]
      rfl

end

section

variable {provider : SyncCookie} {serverID : Nat}

theorem seekSid_spec {s : List Nat} {sid j : Nat} (hin : sid ∈ s) (hbefore : sid ∉ s.take j) :
    ∃ k, seekSid s sid j = some k ∧ s[k]? = some sid := by
  induction j using seekSid.induct s sid with
  | case1 j hlt heq =>
    rw [seekSid, dif_pos hlt, if_pos heq]
    exact ⟨j, rfl, by rw [List.getElem?_eq_getElem hlt, ← heq]⟩
  | case2 j hlt hne ih =>
    rw [seekSid, dif_pos hlt, if_neg hne]
    refine ih fun hx => ?_
    rw [take_succ_eq_append_getElem hlt, mem_append, mem_singleton] at hx
    exact hx.elim hbefore hne
  | case3 j hge =>
    rw [take_of_length_le (not_lt.mp hge)] at hbefore
    exact absurd hin hbefore

theorem notMem_take {s : List Nat} {k sid next : Nat} (hs : s.Pairwise (· < ·)) (hk : s[k]? = some sid) (hlt : sid < next) :
    next ∉ s.take k := by
  intro hin
  obtain ⟨hlen, rfl⟩ := List.getElem?_eq_some_iff.mp hk
  have hsplit : s = s.take k ++ s[k] :: s.drop (k + 1) := by rw [← drop_eq_getElem_cons hlen, take_append_drop]
  have hpair := hs
  rw [hsplit] at hpair
  have := (List.pairwise_append.mp hpair).2.2 next hin s[k] mem_cons_self
  omega

def Ahead (serverID : Nat) (provider : SyncCookie) (l : List (Nat × Csn)) : Prop :=
  ∃ c ∈ l, c.1 = serverID ∧ ∃ own, provider.at? c.1 = some own ∧ own.ts < c.2.ts

def Outdated (provider : SyncCookie) (l : List (Nat × Csn)) : Prop :=
  ∃ c ∈ l, ∃ own, provider.at? c.1 = some own ∧ c.2.ts < own.ts

def Verdict (serverID : Nat) (provider : SyncCookie) (changed : Bool) (l : List (Nat × Csn)) : Compared → Prop
  | .newer _ => Ahead serverID provider l
  | .done changed' => ¬ Ahead serverID provider l ∧ (changed' = true ↔ changed = true ∨ Outdated provider l)

variable {p own : Nat × Csn} {l : List (Nat × Csn)} {changed : Bool} {c : Compared}

theorem ahead_cons (hown : provider.at? p.1 = some own.2) :
    Ahead serverID provider (p :: l) ↔ (p.1 = serverID ∧ own.2.ts < p.2.ts) ∨ Ahead serverID provider l := by
  unfold Ahead
  rw [exists_mem_cons_iff, hown]
  simp

theorem outdated_cons (hown : provider.at? p.1 = some own.2) :
    Outdated provider (p :: l) ↔ p.2.ts < own.2.ts ∨ Outdated provider l := by
  unfold Outdated
  rw [exists_mem_cons_iff, hown]
  simp

theorem Verdict.cons {changed' : Bool} (hown : provider.at? p.1 = some own.2) (hnot : ¬ (p.1 = serverID ∧ own.2.ts < p.2.ts))
    (hchanged : changed' = true ↔ changed = true ∨ p.2.ts < own.2.ts) (h : Verdict serverID provider changed' l c) :
    Verdict serverID provider changed (p :: l) c := by
  cases c with
  | newer shown => exact (ahead_cons hown).mpr (.inr h)
  | done last =>
    refine ⟨fun hahead => ?_, ?_⟩
    · exact ((ahead_cons hown).mp hahead).elim hnot h.1
    · rw [outdated_cons hown, h.2, hchanged, or_assoc]

theorem compareCsns_spec (hp : DupSort.SortedBy Prod.fst provider.csns) (rest kept : List (Nat × Csn)) (sids : List Nat)
    (ctxcsn : List (List Char)) (j : Nat) (changed : Bool) (hheld : CsnsHeld sids ctxcsn (kept ++ rest))
    (hsorted : DupSort.SortedBy Prod.fst rest) (hknown : ∀ p ∈ rest, p.1 ∈ provider.csns.map Prod.fst)
    (hbefore : ∀ p ∈ rest, p.1 ∉ (provider.csns.map Prod.fst).take j)
    (hroom : kept.length + rest.length ≤ provider.csns.length) :
    ∃ c, compareCsns serverID provider.arrays ⟨kept.length + rest.length, sids, ctxcsn⟩ kept.length j changed = some c ∧
      Verdict serverID provider changed rest c := by
  induction rest generalizing kept j changed with
  | nil =>
    rw [compareCsns, dif_neg (by simp)]
    exact ⟨_, rfl, by simp [Ahead], by simp [Outdated]⟩
  | cons p rest ih =>
    obtain ⟨hlater, hsorted'⟩ := List.pairwise_cons.mp hsorted
    obtain ⟨hpin, hknown'⟩ := List.forall_mem_cons.mp hknown
    have hsid := hheld.sid
    have hcsn := hheld.csn
    obtain ⟨k, hseek, hget⟩ := seekSid_spec hpin (hbefore p mem_cons_self)
    have hk := hget
    rw [List.getElem?_map, Option.map_eq_some_iff] at hk
    obtain ⟨own, hown, hownsid⟩ := hk
    have hlen : k < provider.csns.length := (List.getElem?_eq_some_iff.mp hown).1
    have hat : provider.at? p.1 = some own.2 :=
      (SyncCookie.at?_eq_some hp).mpr (hownsid ▸ mem_of_getElem? hown)
    have hotext : (provider.csns.map fun q => q.2.text)[k]? = some own.2.text := by rw [List.getElem?_map, hown, Option.map_some]
    have hnext : ∀ q ∈ rest, q.1 ∉ (provider.csns.map Prod.fst).take k := fun q hq =>
      notMem_take (sids_pairwise hp) hget (hlater q hq)
    rw [append_cons] at hheld
    have hroom' : (kept ++ [p]).length + rest.length ≤ provider.csns.length := by
      rw [length_append, length_singleton]
      rw [length_cons] at hroom
      omega
    have hnum : (kept ++ [p]).length + rest.length = kept.length + (p :: rest).length := by
      rw [length_append, length_singleton, length_cons]
      omega
    have hstep := fun changed' => ih (kept ++ [p]) k changed' hheld hsorted' hknown' hnext hroom'
    simp only [hnum] at hstep
    have hshown : ∃ shown, (provider.csns.map Prod.fst)[kept.length]? = some shown := by
      have hi : kept.length < (provider.csns.map Prod.fst).length := by
        rw [length_map]
        rw [length_cons] at hroom
        omega
      exact ⟨_, List.getElem?_eq_getElem hi⟩
    obtain ⟨shown, hshown⟩ := hshown
    rw [compareCsns, dif_pos (by simp)]
    simp only [SyncCookie.arrays, hsid, hseek, guard, hlen, if_true, Option.pure_def, hcsn, hotext, hget, hshown,
      Option.bind_eq_bind, Option.bind_some]
    by_cases hlt : p.2.ts < own.2.ts
    · obtain ⟨c, hrun, hends⟩ := hstep true
      rw [if_pos (Csn.compareTs_lt.mpr hlt)]
      exact ⟨c, by rw [← hrun, length_append]; rfl, hends.cons hat (fun h => h.2.asymm hlt) (by simp [hlt])⟩
    rw [if_neg fun h => hlt (Csn.compareTs_lt.mp h)]
    by_cases hrefuse : p.1 = serverID ∧ own.2.ts < p.2.ts
    · rw [if_pos ⟨Csn.compareTs_gt.mpr hrefuse.2, hrefuse.1⟩]
      exact ⟨.newer shown, rfl, (ahead_cons hat).mpr (.inl hrefuse)⟩
    · obtain ⟨c, hrun, hends⟩ := hstep changed
      rw [if_neg fun h => hrefuse ⟨h.2, Csn.compareTs_gt.mp h.1⟩]
      exact ⟨c, by rw [← hrun, length_append]; rfl, hends.cons hat hrefuse (by simp [hlt])⟩

end

/-- The consumer has a CSN that is not older, for every server of the provider. -/
def UpToDate (provider consumer : SyncCookie) : Prop :=
  ∀ p ∈ provider.csns, ∃ c, consumer.at? p.1 = some c ∧ p.2.ts ≤ c.ts

/-- The consumer's CSN of the provider's own server is newer than the provider's. -/
def NewerOwn (serverID : Nat) (provider consumer : SyncCookie) : Prop :=
  ∃ own c, provider.at? serverID = some own ∧ consumer.at? serverID = some c ∧ own.ts < c.ts

structure Decision (serverID : Nat) (provider consumer : SyncCookie) (st : CookieArrays) (pivot : Pivot) (c : Compared) :
    Prop where
  numcsns : st.numcsns = (knownBy provider consumer.csns).length
  kept : CsnsHeld st.sids st.ctxcsn (knownBy provider consumer.csns)
  pivot : Oldest (knownBy provider consumer.csns) pivot
  same : (c = .done false ∧ st.numcsns = provider.csns.length) ↔
    UpToDate provider consumer ∧ ¬ NewerOwn serverID provider consumer
  newer : (∃ shown, c = .newer shown) ↔ NewerOwn serverID provider consumer

section

variable {provider consumer : SyncCookie} {serverID : Nat}

theorem mem_knownBy {p : Nat × Csn} : p ∈ knownBy provider consumer.csns ↔
    p ∈ consumer.csns ∧ p.1 ∈ provider.csns.map Prod.fst := by
  rw [knownBy, mem_filter, decide_eq_true_eq]

theorem known_sorted (hc : DupSort.SortedBy Prod.fst consumer.csns) :
    DupSort.SortedBy Prod.fst (knownBy provider consumer.csns) := hc.sublist filter_sublist

theorem known_subperm (hc : DupSort.SortedBy Prod.fst consumer.csns) :
    ((knownBy provider consumer.csns).map Prod.fst).Subperm (provider.csns.map Prod.fst) := by
  have hnd : ((knownBy provider consumer.csns).map Prod.fst).Nodup := (sids_pairwise (known_sorted hc)).imp ne_of_lt
  refine hnd.subperm fun sid hsid => ?_
  obtain ⟨p, hp, rfl⟩ := List.mem_map.mp hsid
  exact (mem_knownBy.mp hp).2

theorem ahead_known (hp : DupSort.SortedBy Prod.fst provider.csns) (hc : DupSort.SortedBy Prod.fst consumer.csns) :
    Ahead serverID provider (knownBy provider consumer.csns) ↔ NewerOwn serverID provider consumer := by
  constructor
  · rintro ⟨⟨sid, c⟩, hmem, rfl, own, hown, hlt⟩
    exact ⟨own, c, hown, (SyncCookie.at?_eq_some hc).mpr (mem_knownBy.mp hmem).1, hlt⟩
  · rintro ⟨own, c, hown, hmem, hlt⟩
    have hin := List.mem_map_of_mem (f := Prod.fst) ((SyncCookie.at?_eq_some hp).mp hown)
    exact ⟨(serverID, c), mem_knownBy.mpr ⟨(SyncCookie.at?_eq_some hc).mp hmem, hin⟩, rfl, own, hown, hlt⟩

theorem upToDate_iff (hp : DupSort.SortedBy Prod.fst provider.csns) (hc : DupSort.SortedBy Prod.fst consumer.csns) :
    UpToDate provider consumer ↔
      (knownBy provider consumer.csns).length = provider.csns.length ∧
        ¬ Outdated provider (knownBy provider consumer.csns) := by
  have hsub := @known_subperm provider consumer hc
  constructor
  · intro h
    have hsup : provider.csns.map Prod.fst ⊆ (knownBy provider consumer.csns).map Prod.fst := by
      intro sid hsid
      obtain ⟨p, hmem, rfl⟩ := List.mem_map.mp hsid
      obtain ⟨c, hat, -⟩ := h p hmem
      exact List.mem_map.mpr ⟨(p.1, c), mem_knownBy.mpr ⟨(SyncCookie.at?_eq_some hc).mp hat, hsid⟩, rfl⟩
    have hnd : (provider.csns.map Prod.fst).Nodup := (sids_pairwise hp).imp ne_of_lt
    have hle := (hnd.subperm hsup).length_le
    have hge := hsub.length_le
    rw [length_map, length_map] at hle hge
    refine ⟨by omega, ?_⟩
    rintro ⟨⟨sid, c⟩, hmem, own, hown, hlt⟩
    obtain ⟨c', hat, hge'⟩ := h (sid, own) ((SyncCookie.at?_eq_some hp).mp hown)
    rw [(SyncCookie.at?_eq_some hc).mpr (mem_knownBy.mp hmem).1] at hat
    obtain rfl := Option.some.inj hat
    exact not_lt.mpr hge' hlt
  · rintro ⟨hlen, hnot⟩ p hmem
    have hperm := hsub.perm_of_length_le (by rw [length_map, length_map, hlen])
    obtain ⟨c, hin, hsid⟩ := List.mem_map.mp (hperm.mem_iff.mpr (List.mem_map_of_mem hmem))
    refine ⟨c.2, (SyncCookie.at?_eq_some hc).mpr (hsid ▸ (mem_knownBy.mp hin).1), not_lt.mp fun hlt => hnot ?_⟩
    exact ⟨c, hin, p.2, (SyncCookie.at?_eq_some hp).mpr (hsid ▸ hmem), hlt⟩

end

/-- The decision for verified cookies. -/
theorem op_search_loops {provider consumer : SyncCookie} (hp : provider.Verified) (hc : consumer.Verified) (serverID : Nat) :
    ∃ st pivot c, opSearchLoops serverID provider.arrays consumer.arrays = some (st, pivot, c) ∧
      Decision serverID provider consumer st pivot c := by
  have hheld : CsnsHeld consumer.arrays.sids consumer.arrays.ctxcsn ([] ++ consumer.csns) := ⟨prefix_rfl, prefix_rfl⟩
  obtain ⟨sids, ctxcsn, pivot, hdrop, hkept, hold⟩ := dropSids_spec hp.1 consumer.csns [] _ _ ⟨[], -1⟩ hheld hc.1
    (forall_mem_nil _) ⟨fun _ => rfl, fun h => absurd rfl h⟩
  have hroom := (@known_subperm provider consumer hc.1).length_le
  rw [length_map, length_map] at hroom
  obtain ⟨c, hcmp, hends⟩ := @compareCsns_spec provider serverID hp.1 (knownBy provider consumer.csns) [] sids ctxcsn 0 false
    hkept (known_sorted hc.1) (fun p h => (mem_knownBy.mp h).2) (fun p _ => by simp) (by simpa using hroom)
  simp only [List.nil_append, length_nil, Nat.zero_add] at hdrop hcmp hold hkept
  refine ⟨⟨(knownBy provider consumer.csns).length, sids, ctxcsn⟩, pivot, c, ?_, rfl, hkept, hold, ?_, ?_⟩
  · unfold opSearchLoops
    rw [show consumer.arrays.numcsns = consumer.csns.length from rfl, hdrop]
    simp only [Option.bind_eq_bind, Option.bind_some, hcmp]
  · rw [upToDate_iff hp.1 hc.1, ← ahead_known hp.1 hc.1]
    cases c with
    | newer shown => exact iff_of_false (fun h => by cases h.1) fun h => h.2 hends
    | done changed =>
      obtain ⟨hnot, hchanged⟩ := hends
      simp only [Bool.false_eq_true, false_or] at hchanged
      rw [← hchanged, Compared.done.injEq, Bool.not_eq_true]
      exact ⟨fun h => ⟨⟨h.2, h.1⟩, hnot⟩, fun h => ⟨h.1.2, h.1.1⟩⟩
  · rw [← ahead_known hp.1 hc.1]
    cases c with
    | newer shown => exact iff_of_true ⟨shown, rfl⟩ hends
    | done changed => exact iff_of_false (by simp) hends.1

theorem op_search_loops_twoServers : ∃ st pivot c,
    opSearchLoops 1 (SyncCookie.arrays ⟨0, 0, [(1, secondCsn), (2, otherCsn)]⟩)
        (SyncCookie.arrays ⟨0, 0, [(1, firstCsn)]⟩) = some (st, pivot, c) ∧
      Decision 1 ⟨0, 0, [(1, secondCsn), (2, otherCsn)]⟩ ⟨0, 0, [(1, firstCsn)]⟩ st pivot c := by
  have hp : SyncCookie.Verified ⟨0, 0, [(1, secondCsn), (2, otherCsn)]⟩ := ⟨List.pairwise_pair.mpr (by decide), by decide⟩
  have hc : SyncCookie.Verified ⟨0, 0, [(1, firstCsn)]⟩ := ⟨pairwise_singleton _ _, by decide⟩
  exact op_search_loops hp hc 1

end Sync
end ReOpenLDAP
