import ReOpenLDAP.BackMdb.TreeHistory

/-!
# BackMdb.GlueParent

When `mdb_delete` and `mdb_modrdn` ask for the removal of the parent. `mdb_modrdn` does so for a glue entry
without children, `mdb_delete` for one which still has some.
-/

namespace ReOpenLDAP
namespace BackMdb

open List Option

/-- `mdb_delete` with `o_delete_glue_parent`. Unless the transaction is its `own`, no commit clears the `MDBX_NOTFOUND`. -/
def mdbDeleteGlue (suffix : List Byte) (glue : Nat → Bool) (own : Bool) (s : Tables) (ndn : List Byte) :
    Except LdapError (Tables × Bool) :=
  match mdbDelete subSubs suffix s ndn with
  | .error rc => .error rc
  | .ok s' =>
    let pdn := parentDn suffix ndn
    match (mdbDn2entry suffix s pdn true).e with
    | some p =>
      if pdn ≠ [] then
        match mdbDn2idChildren s'.dn2id p.id with
        | .ok () => .ok (s', glue p.id)
        | .error .notfound => if own then .ok (s', false) else .error .other
        | .error _ => .error .other
      else .ok (s', false)
    | none => .ok (s', false)

/-- `mdb_modrdn` with `o_delete_glue_parent` -/
def mdbModrdnGlue (suffix : List Byte) (glue : Nat → Bool) (own : Bool) (s : Tables)
    (ndn dn nnewrdn newrdn : List Byte) (newSup : Option (List Byte)) : Except LdapError (Tables × Bool) :=
  match mdbModrdn subSubs suffix s ndn dn nnewrdn newrdn newSup with
  | .error rc => .error rc
  | .ok s' =>
    let pNdn := dnParent ndn
    match (mdbDn2entry suffix s pNdn false).e with
    | some p =>
      if pNdn ≠ [] ∧ glue p.id then
        match mdbDn2idChildren s'.dn2id p.id with
        | .ok () => .ok (s', false)
        | .error .notfound => if own then .ok (s', true) else .error .other
        | .error _ => .error .other
      else .ok (s', false)
    | none => .ok (s', false)

variable {suffix : List Byte} {glue : Nat → Bool} {own flag : Bool} {s s' : Tables} {ndn : Dn} {p : DnEntry}
  {nsubs : Nat} {mc : Option (Nat × DiskNode)} {qs : List Request} {started : Bool} {nodes : Nodes}

/-- The entry `p` is due for removal. -/
def GlueLeaf (glue : Nat → Bool) (s : Tables) (p : Nat) : Prop := glue p = true ∧ ∀ c, ownParent s.dn2id c ≠ some p

namespace TreeInv

theorem record_child (h : TreeInv s started nodes) {k : Nat} {v : Node} (hv : nodes k = some v)
    (hlen : 2 ≤ (s.dn2id k).length) : ∃ c, nodes.parent c = some k := by
  have hsorted := h.rep.sorted k
  have hmem := h.rep.mem k
  rcases hds : s.dn2id k with - | ⟨d₁, - | ⟨d₂, ds⟩⟩ <;> rw [hds] at hlen hsorted hmem
  · cases hlen
  · exact absurd hlen (by simp)
  · have hchild : ∃ d, HasRecord nodes started k d ∧ d.child = true := by
      by_contra hnone
      have hown : ∀ d ∈ d₁ :: d₂ :: ds, d = v.own := fun d hd =>
        ((hmem d).mp hd).eq_own hv h.rep.root (by simpa using fun hc => hnone ⟨d, (hmem d).mp hd, hc⟩)
      have hlt := (DupSort.sortedBy_cons.mp hsorted).1 d₂ mem_cons_self
      rw [hown d₁ mem_cons_self, hown d₂ (by simp)] at hlt
      exact lt_irrefl _ hlt
    obtain ⟨d, hd, hc⟩ := hchild
    obtain ⟨c, w, hw, hwk, -⟩ := hd.exists_child hc
    exact ⟨c, Nodes.parent_eq_some.mpr ⟨w, hw, hwk⟩⟩

/-- `mdb_dn2id_children` of an entry other than the root. -/
theorem children (h : TreeInv s started nodes) {k : Nat} (hk : k ≠ 0) :
    mdbDn2idChildren s.dn2id k = .ok () ∧ (∃ c, ownParent s.dn2id c = some k) ∨
      mdbDn2idChildren s.dn2id k = .error .notfound ∧ ∀ c, ownParent s.dn2id c ≠ some k := by
  rw [h.rep.ownParent_eq]
  cases hv : nodes k with
  | none =>
    have hnone : ∀ c, nodes.parent c ≠ some k := by
      intro c hc
      obtain ⟨w, hw, rfl⟩ := Nodes.parent_eq_some.mp hc
      have hroot : nodes.parent w.parent = none := congrArg (Option.map Node.parent) hv
      exact hk ((Forest.reaches_of_parent_none hroot).mp (h.reaches_parent hw)).symm
    have hempty : s.dn2id k = [] := by
      refine List.eq_nil_iff_forall_not_mem.mpr fun d hd => ?_
      cases (h.rep.mem k d).mp hd with
      | own hv' => exact absurd (hv.symm.trans hv') (by simp)
      | root h0 => exact hk h0
      | child hw hwk => exact hnone _ (Nodes.parent_eq_some.mpr ⟨_, hw, hwk⟩)
    refine .inr ⟨?_, hnone⟩
    unfold mdbDn2idChildren Dn2id.set
    rw [hempty]
  | some v =>
    have hset : mdbDn2idChildren s.dn2id k = if (s.dn2id k).length < 2 then .error .notfound else .ok () := by
      unfold mdbDn2idChildren
      rw [h.rep.set_own hv]
    by_cases hlen : (s.dn2id k).length < 2
    · rw [if_pos hlen] at hset
      exact .inr ⟨hset, h.no_child hv hset⟩
    · rw [if_neg hlen] at hset
      exact .inl ⟨hset, h.record_child hv (not_lt.mp hlen)⟩

/-- So the answer for `p` tells whether a glue entry is due for removal. -/
theorem glueLeaf (h : TreeInv s started nodes) (glue : Nat → Bool) {p : Nat} (hp : p ≠ 0) :
    mdbDn2idChildren s.dn2id p = .ok () ∧ ¬ GlueLeaf glue s p ∨
      mdbDn2idChildren s.dn2id p = .error .notfound ∧ (GlueLeaf glue s p ↔ glue p = true) := by
  rcases h.children hp with ⟨hc, c, hkid⟩ | ⟨hc, hleaf⟩
  · exact .inl ⟨hc, fun hl => hl.2 c hkid⟩
  · exact .inr ⟨hc, and_iff_left hleaf⟩

theorem entry_ne_zero (h : TreeInv s started nodes) {matched : Bool} (hne : ndn.str suffix ≠ [])
    (hp : mdbDn2entry suffix s (ndn.str suffix) matched = ⟨none, some p, nsubs, mc⟩) : p.id ≠ 0 := by
  have hparts : ndn.parts suffix ≠ [] := by
    intro hnil
    apply hne
    unfold Dn.str
    rw [hnil]
    rfl
  obtain ⟨v, hv, -⟩ := (h.dn2entry hp).2.2 hparts
  rintro h0
  rw [h0, h.rep.root] at hv
  cases hv

end TreeInv

/-- After any history, `mdb_delete` answers rightly only below parents that are no glue entries. -/
theorem mdbDelete_glue_iff (hs : Steps (Performs suffix) Tables.empty qs s)
    (h : mdbDeleteGlue suffix glue own s (ndn.str suffix) = .ok (s', flag))
    (hp : mdbDn2entry suffix s (parentDn suffix (ndn.str suffix)) true = ⟨none, some p, nsubs, mc⟩)
    (hne : parentDn suffix (ndn.str suffix) ≠ []) : (flag = true ↔ GlueLeaf glue s' p.id) ↔ glue p.id = false := by
  unfold mdbDeleteGlue at h
  obtain ⟨⟨_, _, htree⟩, -⟩ := TreeInv.empty.run hs
  cases hdel : mdbDelete subSubs suffix s (ndn.str suffix) with
  | error rc =>
    rw [hdel] at h
    cases h
  | ok t =>
    obtain ⟨_, _, htree', -⟩ := htree.step (q := .delete ndn) hdel
    have hid : p.id ≠ 0 := by
      cases ndn with
      | nil => exact absurd (by simp [parentDn]) hne
      | cons r dn =>
        have hpdn : parentDn suffix (Dn.str suffix (r :: dn)) = Dn.str suffix dn := by
          rw [parentDn, if_neg (Dn.str_cons_ne_suffix r dn), Dn.dnParent_cons]
        rw [hpdn] at hp hne
        exact htree.entry_ne_zero hne hp
    simp only [hdel, hp, if_pos hne] at h
    rcases htree'.glueLeaf glue hid with ⟨hc, hnot⟩ | ⟨hc, hleaf⟩
    · rw [hc] at h
      cases h
      simp [hnot]
    · rw [hc] at h
      cases own with
      | false => cases h
      | true =>
        cases h
        simp [hleaf]

/-- `a` is added, and below it `b` and `c`. -/
def familyHistory : List Request :=
  [.add [rdnA] [97], .add [rdnB, rdnA] [98, 44, 97], .add [rdnC, rdnA] [99, 44, 97]]

def family : Tables := familyHistory.foldl (Request.exec []) Tables.empty

theorem steps_family : Steps (Performs []) Tables.empty familyHistory family :=
  .cons (performs_exec (by decide)) (.cons (performs_exec (by decide)) (.cons (performs_exec (by decide)) .refl))

theorem mdbDelete_glue_family : ∃ s', mdbDeleteGlue [] (fun _ => false) true family (Dn.str [] [rdnB, rdnA]) = .ok (s', false) ∧
    (false = true ↔ GlueLeaf (fun _ => false) s' 1) := by
  have hdel : ∃ s', mdbDeleteGlue [] (fun _ => false) true family (Dn.str [] [rdnB, rdnA]) = .ok (s', false) := ⟨_, rfl⟩
  obtain ⟨s', hs'⟩ := hdel
  have hp : ∃ nsubs mc, mdbDn2entry [] family (parentDn [] (Dn.str [] [rdnB, rdnA])) true =
      ⟨none, some ⟨1, [97], [97]⟩, nsubs, mc⟩ := ⟨_, _, rfl⟩
  obtain ⟨_, _, hp⟩ := hp
  exact ⟨s', hs', (mdbDelete_glue_iff steps_family hs' hp (by decide)).mpr rfl⟩

/-- `c` is still there when `b` is gone. -/
theorem mdbDelete_glue_sibling : Steps (Performs []) Tables.empty familyHistory family ∧
    (mdbDn2entry [] family (parentDn [] (Dn.str [] [rdnB, rdnA])) true).e = some ⟨1, [97], [97]⟩ ∧
    ∃ s', mdbDeleteGlue [] (fun id => id == 1) true family (Dn.str [] [rdnB, rdnA]) = .ok (s', true) ∧
      ¬ GlueLeaf (fun id => id == 1) s' 1 :=
  ⟨steps_family, rfl, _, rfl, fun h => h.2 3 (by decide)⟩

theorem mdbModrdn_glue_iff (hs : Steps (Performs suffix) Tables.empty qs s) {dn : List Byte} {nnewrdn newrdn : Rdn}
    {newSup : Option Dn} (h : mdbModrdnGlue suffix glue own s (ndn.str suffix) dn nnewrdn.bytes newrdn.bytes
      (newSup.map (Dn.str suffix)) = .ok (s', flag))
    (hp : mdbDn2entry suffix s (dnParent (ndn.str suffix)) false = ⟨none, some p, nsubs, mc⟩)
    (hne : dnParent (ndn.str suffix) ≠ []) : flag = true ↔ GlueLeaf glue s' p.id := by
  unfold mdbModrdnGlue at h
  obtain ⟨⟨_, _, htree⟩, -⟩ := TreeInv.empty.run hs
  cases hmod : mdbModrdn subSubs suffix s (ndn.str suffix) dn nnewrdn.bytes newrdn.bytes (newSup.map (Dn.str suffix)) with
  | error rc =>
    rw [hmod] at h
    cases h
  | ok t =>
    obtain ⟨_, _, htree', -⟩ := htree.step (q := .modrdn ndn dn nnewrdn newrdn newSup) hmod
    have hid : p.id ≠ 0 := by
      cases ndn with
      | nil =>
        rw [mdbModrdn, if_pos (Dn.str_nil)] at hmod
        cases hmod
      | cons r ns =>
        rw [Dn.dnParent_cons] at hp hne
        exact htree.entry_ne_zero hne hp
    simp only [hmod, hp] at h
    cases hg : glue p.id with
    | false =>
      rw [if_neg (by simp [hg])] at h
      cases h
      simp [GlueLeaf, hg]
    | true =>
      rw [if_pos ⟨hne, hg⟩] at h
      rcases htree'.glueLeaf glue hid with ⟨hc, hnot⟩ | ⟨hc, hleaf⟩
      · rw [hc] at h
        cases h
        simp [hnot]
      · rw [hc] at h
        cases own with
        | false => cases h
        | true =>
          cases h
          simp [hleaf, hg]

theorem mdbModrdn_glue_family : ∃ s', mdbModrdnGlue [] (fun id => id == 1) true family (Dn.str [] [rdnB, rdnA]) [98, 44, 97]
    rdnB.bytes rdnB.bytes (some (Dn.str [] [rdnC, rdnA])) = .ok (s', false) ∧
      (false = true ↔ GlueLeaf (fun id => id == 1) s' 1) := by
  have hmod : ∃ s', mdbModrdnGlue [] (fun id => id == 1) true family (Dn.str [] [rdnB, rdnA]) [98, 44, 97]
    rdnB.bytes rdnB.bytes ((some [rdnC, rdnA]).map (Dn.str [])) = .ok (s', false) := ⟨_, rfl⟩
  obtain ⟨s', hs'⟩ := hmod
  have hp : ∃ nsubs mc, mdbDn2entry [] family (dnParent (Dn.str [] [rdnB, rdnA])) false =
      ⟨none, some ⟨1, [97], [97]⟩, nsubs, mc⟩ := ⟨_, _, rfl⟩
  obtain ⟨_, _, hp⟩ := hp
  exact ⟨s', hs', mdbModrdn_glue_iff steps_family hs' hp (by decide)⟩

end BackMdb
end ReOpenLDAP
