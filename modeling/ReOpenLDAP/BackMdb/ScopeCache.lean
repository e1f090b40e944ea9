import ReOpenLDAP.BackMdb.ScopeWalk

/-!
# BackMdb.ScopeCache

What `mdb_idscopes` answers for one candidate, whatever is in `isc.scopes`.

The superiors that earlier candidates met are in `isc.scopes`, with their own records. Once the climb has met
one of them it reads no record from dn2id any more: it ends at the base if all further superiors
below the base are there too, and with `MDBX_NOTFOUND` otherwise.
-/

namespace ReOpenLDAP
namespace BackMdb

open Forest List

abbrev IncreasingID2 (ids : List ID2) : Prop := DupSort.SortedBy ID2.mid ids

section

variable {ids : List ID2}

theorem IncreasingID2.mids (h : IncreasingID2 ids) : (ids.map ID2.mid).Pairwise (· < ·) :=
  List.Pairwise.map ID2.mid (fun _ _ hab => hab) h

variable {id : Nat}

theorem id2lFind_iff (h : IncreasingID2 ids) {d : ID2} : id2lFind ids id = some d ↔ d ∈ ids ∧ d.mid = id := by
  have hfound := Search.search_found h.mids id
  rw [List.getElem?_map] at hfound
  unfold id2lFind mdbId2lSearch
  constructor
  · intro hd
    split at hd
    case h_1 e he =>
      split_ifs at hd with hmid
      cases hd
      exact ⟨mem_of_getElem? he, hmid⟩
    case h_2 => cases hd
  · intro ⟨hd, hmid⟩
    obtain ⟨e, he, hemid⟩ := Option.map_eq_some_iff.mp (hfound.mpr (List.mem_map.mpr ⟨d, hd, hmid⟩))
    rw [he]
    simp only [hemid, if_true]
    rw [h.eq_of_key (mem_of_getElem? he) hd (hemid.trans hmid.symm)]

theorem id2lFind_eq_none (h : IncreasingID2 ids) : id2lFind ids id = none ↔ ∀ d ∈ ids, d.mid ≠ id := by
  constructor
  · intro hnone d hd hmid
    rw [(id2lFind_iff h).mpr ⟨hd, hmid⟩] at hnone
    cases hnone
  · intro hne
    cases hf : id2lFind ids id with
    | none => rfl
    | some d =>
      obtain ⟨hd, hmid⟩ := (id2lFind_iff h).mp hf
      exact absurd hmid (hne d hd)

theorem getElem?_mdbId2lSearch (h : IncreasingID2 ids) {d : ID2} (hd : d ∈ ids) :
    ids[mdbId2lSearch ids d.mid - 1]? = some d := by
  have hf := (id2lFind_iff h).mpr ⟨hd, rfl⟩
  unfold id2lFind at hf
  split at hf
  case h_1 e he =>
    split_ifs at hf
    cases hf
    exact he
  case h_2 => cases hf

theorem getElem?_checkAgain (h : IncreasingID2 ids) {d : ID2} (hd : d ∈ ids) (x : Nat) :
    ids[checkAgain ids d.mid x - 1]? = some d := by
  unfold checkAgain
  split_ifs with hx
  · obtain ⟨e, he, hmid⟩ := Option.map_eq_some_iff.mp hx
    rw [he, h.eq_of_key (mem_of_getElem? he) hd hmid]
  · exact getElem?_mdbId2lSearch h hd

theorem checkAgain_ne_zero (h : IncreasingID2 ids) {x : Nat} (hx : x ≠ 0) : checkAgain ids id x ≠ 0 := by
  unfold checkAgain
  split_ifs
  · exact hx
  · have := (Search.search_spec h.mids id).1
    unfold mdbId2lSearch
    omega

theorem mdbId2lInsert_spec (h : IncreasingID2 ids) {d : ID2} (hd : ∀ e ∈ ids, e.mid ≠ d.mid)
    (hlen : ids.length < MDB_IDL_UM_MAX) :
    ∃ r, mdbId2lInsert ids d = some r ∧ IncreasingID2 r ∧ (∀ e, e ∈ r ↔ e = d ∨ e ∈ ids) ∧
      r.length = ids.length + 1 := by
  have hnone := (id2lFind_eq_none h).mpr hd
  obtain ⟨h1, hle, hbefore, hfrom⟩ := Search.search_spec h.mids d.mid
  have hle' : mdbId2lSearch ids d.mid - 1 ≤ ids.length := by
    unfold mdbId2lSearch
    rw [length_map] at hle
    omega
  refine ⟨_, ?_, ?_, ?_, length_insertIdx_of_le_length hle' d⟩
  · unfold mdbId2lInsert
    rw [hnone, if_neg (by simp), if_neg (by omega)]
  · refine h.insertIdx ?_ ?_
    · intro j x hj hlt
      refine hbefore j x.mid (by rw [List.getElem?_map, hj]; rfl) ?_
      unfold mdbId2lSearch at hlt
      omega
    · intro j x hj hge
      have hle := hfrom j x.mid (by rw [List.getElem?_map, hj]; rfl) (by unfold mdbId2lSearch at hge; omega)
      exact lt_of_le_of_ne hle (hd x (mem_of_getElem? hj)).symm
  · intro e
    exact mem_insertIdx hle'

theorem mdbId2lInsert_full (hlen : MDB_IDL_UM_MAX ≤ ids.length) (d : ID2) : mdbId2lInsert ids d = none := by
  unfold mdbId2lInsert
  split_ifs <;> rfl

theorem addChain_spec {chain : List ID2} (h : IncreasingID2 ids) (hc : IncreasingID2 chain)
    (hnew : ∀ d ∈ chain, ∀ e ∈ ids, e.mid ≠ d.mid) (hlen : ids.length ≤ MDB_IDL_UM_MAX) :
    IncreasingID2 (addChain ids chain) ∧ (addChain ids chain).length ≤ MDB_IDL_UM_MAX ∧
      (∀ e, e ∈ addChain ids chain ↔ e ∈ ids ∨
        (e ∈ chain ∧ ids.length + (chain.filter fun d => d.mid ≤ e.mid).length ≤ MDB_IDL_UM_MAX)) ∧
      (ids.length + chain.length ≤ MDB_IDL_UM_MAX ∨ (addChain ids chain).length = MDB_IDL_UM_MAX) := by
  induction chain generalizing ids with
  | nil =>
    refine ⟨h, hlen, ?_, .inl hlen⟩
    intro e
    simp [addChain]
  | cons d ds ih =>
    obtain ⟨hd, hds⟩ := DupSort.sortedBy_cons.mp hc
    if hfull : MDB_IDL_UM_MAX ≤ ids.length then
      rw [addChain, mdbId2lInsert_full hfull]
      refine ⟨h, hlen, ?_, .inr (le_antisymm hlen hfull)⟩
      intro e
      constructor
      · exact .inl
      · intro he
        cases he with
        | inl he => exact he
        | inr he =>
          have hpos : 0 < ((d :: ds).filter fun x => x.mid ≤ e.mid).length :=
            length_pos_of_mem (List.mem_filter.mpr ⟨he.1, by simp⟩)
          omega
    else
      obtain ⟨r, hr, hrs, hrmem, hrlen⟩ := mdbId2lInsert_spec h (hnew d mem_cons_self) (by omega)
      rw [addChain, hr]
      have hnew' : ∀ x ∈ ds, ∀ e ∈ r, e.mid ≠ x.mid := by
        intro x hx e he
        cases (hrmem e).mp he with
        | inl he => exact he ▸ (hd x hx).ne
        | inr he => exact hnew x (mem_cons_of_mem _ hx) e he
      obtain ⟨hs, hl, hmem, hfit⟩ := ih hrs hds hnew' (by omega)
      refine ⟨hs, hl, ?_, ?_⟩
      · intro e
        rw [hmem, hrmem, hrlen]
        have hfirst : ((d :: ds).filter fun x => x.mid ≤ d.mid).length = 1 := by
          have hnil : (ds.filter fun x => x.mid ≤ d.mid) = [] := by
            refine List.filter_eq_nil_iff.mpr ?_
            intro x hx
            simpa using hd x hx
          rw [filter_cons_of_pos (by simp), hnil]
          rfl
        have hlater : ∀ x ∈ ds, ((d :: ds).filter fun y => y.mid ≤ x.mid).length =
            (ds.filter fun y => y.mid ≤ x.mid).length + 1 := by
          intro x hx
          rw [filter_cons_of_pos (by simpa using (hd x hx).le), length_cons]
        constructor
        · intro he
          rcases he with (rfl | he) | ⟨he, hle⟩
          · exact .inr ⟨mem_cons_self, by rw [hfirst]; omega⟩
          · exact .inl he
          · exact .inr ⟨mem_cons_of_mem _ he, by rw [hlater e he]; omega⟩
        · intro he
          rcases he with he | ⟨he, hle⟩
          · exact .inl (.inr he)
          · cases List.mem_cons.mp he with
            | inl hed => exact .inl (.inl hed)
            | inr he =>
              rw [hlater e he] at hle
              exact .inr ⟨he, by omega⟩
      · rw [length_cons]
        cases hfit with
        | inl hfit => exact .inl (by omega)
        | inr hfit => exact .inr hfit

end
/-! ## The rounds of mdb_idscopes -/

section

variable {db : Dn2id} {scope : Scope} {self fuel x : Nat} {scopes sctmp sctmp' : List ID2} {rdns : List DiskNode}
  {cached : Option DiskNode} {d : DiskNode}

def remember (self x : Nat) (cached : Option DiskNode) (d : DiskNode) (sctmp : List ID2) : Option (List ID2) :=
  if cached.isNone ∧ x ≠ self then mdbId2lInsert sctmp ⟨x, some d⟩ else some sctmp

@[simp] theorem remember_cached (c : DiskNode) : remember self x (some c) d sctmp = some sctmp := by simp [remember]

@[simp] theorem remember_self : remember x x cached d sctmp = some sctmp := by simp [remember]

theorem remember_fresh (hx : x ≠ self) : remember self x none d sctmp = mdbId2lInsert sctmp ⟨x, some d⟩ := by
  simp [remember, hx]

def atBase (scopes : List ID2) (base : Nat) (chain : List ID2) (rdns : List DiskNode) : Except Rc IdScopes :=
  .ok ⟨addChain scopes chain, checkAgain (addChain scopes chain) base (mdbId2lSearch scopes base), rdns⟩

theorem idscopesLoop_stale (hx : x ≠ 0) (hd : d.lastID = x) :
    idscopesLoop db scope self scopes (fuel + 1) x (some d) sctmp rdns = .error .notfound := by
  rw [idscopesLoop, if_neg hx]
  simp [ownRecord, hd]

variable (hx : x ≠ 0) (hd : ownRecord db x cached = .ok d) (hs : remember self x cached d sctmp = some sctmp') (hne : d.lastID ≠ x)

include hx hd hs hne

theorem idscopesLoop_round :
    idscopesLoop db scope self scopes (fuel + 1) x cached sctmp rdns =
      match id2lFind scopes d.lastID with
      | some ⟨_, none⟩ => atBase scopes d.lastID sctmp' (rdns ++ [d])
      | some ⟨_, some c⟩ =>
        if scope = Scope.onelevel then .ok ⟨scopes, 0, rdns ++ [d]⟩
        else idscopesLoop db scope self scopes fuel d.lastID (some c) sctmp' (rdns ++ [d])
      | none =>
        if scope = Scope.onelevel then .ok ⟨scopes, 0, rdns ++ [d]⟩
        else idscopesLoop db scope self scopes fuel d.lastID (if cached.isSome then some d else none) sctmp'
          (rdns ++ [d]) := by
  unfold remember at hs
  rw [idscopesLoop, if_neg hx, hd]
  simp only [hs, if_neg hne]
  rfl

theorem round_base {b : Nat} (hf : id2lFind scopes d.lastID = some ⟨b, none⟩) :
    idscopesLoop db scope self scopes (fuel + 1) x cached sctmp rdns =
      atBase scopes d.lastID sctmp' (rdns ++ [d]) := by
  rw [idscopesLoop_round hx hd hs hne, hf]

theorem round_cached {b : Nat} {c : DiskNode} (hscope : scope ≠ .onelevel) (hf : id2lFind scopes d.lastID = some ⟨b, some c⟩) :
    idscopesLoop db scope self scopes (fuel + 1) x cached sctmp rdns =
      idscopesLoop db scope self scopes fuel d.lastID (some c) sctmp' (rdns ++ [d]) := by
  rw [idscopesLoop_round hx hd hs hne, hf]
  exact if_neg hscope

theorem round_on (hscope : scope ≠ .onelevel) (hf : id2lFind scopes d.lastID = none) :
    idscopesLoop db scope self scopes (fuel + 1) x cached sctmp rdns =
      idscopesLoop db scope self scopes fuel d.lastID (if cached.isSome then some d else none) sctmp'
        (rdns ++ [d]) := by
  rw [idscopesLoop_round hx hd hs hne, hf]
  exact if_neg hscope

end

structure Cache (nodes : Nodes) (base : Nat) (scopes : List ID2) : Prop where
  increasing : IncreasingID2 scopes
  hasBase : ⟨base, none⟩ ∈ scopes
  cached : ∀ d ∈ scopes, d.mid ≠ base →
    ∃ v, nodes d.mid = some v ∧ d.mval = some v.own ∧ Reaches nodes.parent d.mid base
  fits : scopes.length ≤ MDB_IDL_UM_MAX

def fresh (scopes : List ID2) (p : Nat × Node) : Bool := (id2lFind scopes p.1).isNone

def scopeOf (p : Nat × Node) : ID2 := ⟨p.1, some p.2.own⟩

section

variable {s : Tables} {started : Bool} {nodes : Nodes} {base : Nat} {scopes : List ID2}

namespace Cache

theorem find_base (hc : Cache nodes base scopes) : id2lFind scopes base = some ⟨base, none⟩ :=
  (id2lFind_iff hc.increasing).mpr ⟨hc.hasBase, rfl⟩

theorem find_some (hc : Cache nodes base scopes) {x : Nat} {v : Node} {d : ID2} (hv : nodes x = some v) (hx : x ≠ base)
    (hd : id2lFind scopes x = some d) : d = ⟨x, some v.own⟩ := by
  obtain ⟨hmem, hmid⟩ := (id2lFind_iff hc.increasing).mp hd
  obtain ⟨w, hw, hval, -⟩ := hc.cached d hmem (hmid ▸ hx)
  rw [hmid, hv] at hw
  cases hw
  obtain ⟨mid, mval⟩ := d
  cases hmid
  cases hval
  rfl

theorem find_outside (hc : Cache nodes base scopes) {x : Nat} (hout : ¬ Reaches nodes.parent x base) :
    id2lFind scopes x = none := by
  rw [id2lFind_eq_none hc.increasing]
  intro d hd hmid
  if hb : d.mid = base then
    rw [← hmid, hb] at hout
    exact hout (.refl base)
  else
    obtain ⟨w, -, -, hr⟩ := hc.cached d hd hb
    exact hout (hmid ▸ hr)

end Cache

variable {p : Nat × Node} {ps rest : List (Nat × Node)} {k id : Nat} {v : Node}

theorem Up.mem_reaches {x : Nat} (h : Up nodes k x ps) (hp : p ∈ ps) :
    nodes p.1 = some p.2 ∧ Reaches nodes.parent x p.1 ∧ Reaches nodes.parent p.1 k := by
  induction h with
  | refl => cases hp
  | @step x v ps hv hup ih =>
    cases List.mem_cons.mp hp with
    | inl hp =>
      subst hp
      exact ⟨hv, .refl x, (Up.step hv hup).reaches⟩
    | inr hp =>
      obtain ⟨hpn, hr, hk⟩ := ih hp
      exact ⟨hpn, hr.head (Nodes.parent_eq_some.mpr ⟨v, hv, rfl⟩), hk⟩

theorem TreeInv.up_tail_ne (h : TreeInv s started nodes) {x : Nat}
    (hup : Up nodes k x ((x, v) :: ps)) (hp : p ∈ ps) : p.1 ≠ x := by
  cases hup with
  | step hv hup =>
    intro hpx
    exact h.not_reaches_node hv (hpx ▸ (hup.mem_reaches hp).2.1)

theorem TreeInv.up_base_ne (h : TreeInv s started nodes) {x : Nat} (hup : Up nodes k x ps) (hp : p ∈ ps) : p.1 ≠ k := by
  induction hup with
  | refl => cases hp
  | @step x v ps hv hup ih =>
    cases List.mem_cons.mp hp with
    | inl hp =>
      subst hp
      exact h.up_ne (.step hv hup) (cons_ne_nil _ _)
    | inr hp => exact ih hp

variable {scope : Scope} {self : Nat}

theorem all_cached_cons {q : Nat × Node} (hq : fresh scopes q = false) :
    ((q :: rest).all fun p => !fresh scopes p) = rest.all fun p => !fresh scopes p := by
  rw [all_cons, hq, Bool.not_false, Bool.true_and]

theorem climb_cached (h : TreeInv s started nodes) (hc : Cache nodes base scopes) (hscope : scope ≠ .onelevel)
    {sctmp : List ID2} {rdns : List DiskNode} {fuel y : Nat} {w : Node}
    (hup : Up nodes base y ((y, w) :: rest)) (hfuel : rest.length < fuel) :
    idscopesLoop s.dn2id scope self scopes fuel y (some w.own) sctmp rdns =
      if rest.all fun p => !fresh scopes p then
        atBase scopes base sctmp (rdns ++ ((y, w) :: rest).map fun p => p.2.own)
      else .error .notfound := by
  induction rest generalizing y w fuel rdns with
  | nil =>
    obtain ⟨fuel, rfl⟩ := Nat.exists_eq_add_of_le' (Nat.one_le_of_lt hfuel)
    cases hup with
    | step hw hup =>
      have hparent : w.own.lastID = base := hup.nil_inv
      have hne : w.own.lastID ≠ y := fun he => h.not_reaches_node hw (he ▸ .refl _)
      rw [round_base (h.rep.ne_zero hw) rfl (remember_cached _) hne (hparent ▸ hc.find_base), hparent]
      rfl
  | cons q rest ih =>
    obtain ⟨fuel, rfl⟩ := Nat.exists_eq_add_of_le' (Nat.one_le_of_lt hfuel)
    obtain ⟨z, u⟩ := q
    cases hup with
    | step hw hup =>
      have hz : w.own.lastID = z := by
        cases hup
        rfl
      have hne : w.own.lastID ≠ y := fun he => h.not_reaches_node hw (he ▸ .refl _)
      have hu := (hup.mem_reaches mem_cons_self).1
      have hup' : Up nodes base z ((z, u) :: rest) := hz ▸ hup
      cases hf : id2lFind scopes z with
      | none =>
        -- the record stays, and the next round finds that it did not advance
        obtain ⟨fuel, rfl⟩ := Nat.exists_eq_add_of_le' (show 1 ≤ fuel by simp at hfuel; omega)
        rw [round_on (h.rep.ne_zero hw) rfl (remember_cached _) hne hscope (hz ▸ hf), hz]
        have hstale := @idscopesLoop_stale s.dn2id scope self fuel z scopes sctmp (rdns ++ [w.own]) _
          (h.rep.ne_zero hu) hz
        simpa [fresh, hf] using hstale
      | some d =>
        have hd := hc.find_some hu (h.up_base_ne hup' mem_cons_self) hf
        rw [hd] at hf
        have hfz : fresh scopes (z, u) = false := by rw [fresh, hf]; rfl
        rw [round_cached (h.rep.ne_zero hw) rfl (remember_cached _) hne hscope (hz ▸ hf), hz,
          ih hup' (by simpa using hfuel), all_cached_cons hfz]
        simp

theorem climb_fresh (h : TreeInv s started nodes) (hc : Cache nodes base scopes) (hscope : scope ≠ .onelevel)
    {sctmp : List ID2} {rdns : List DiskNode} {fuel x : Nat} {v : Node} {rest : List (Nat × Node)}
    (hup : Up nodes base x ((x, v) :: rest)) (hfuel : rest.length < fuel)
    (hself : ∀ p ∈ (x, v) :: rest, p.1 ≠ self) (hfresh : fresh scopes (x, v) = true)
    (hs : IncreasingID2 sctmp) (hnew : ∀ p ∈ (x, v) :: rest, ∀ e ∈ sctmp, e.mid ≠ p.1)
    (hlen : sctmp.length + rest.length < MDB_IDL_UM_MAX) :
    ∃ chain, IncreasingID2 chain ∧
      (∀ e, e ∈ chain ↔ e ∈ sctmp ∨ e ∈ (((x, v) :: rest).takeWhile (fresh scopes)).map scopeOf) ∧
      idscopesLoop s.dn2id scope self scopes fuel x none sctmp rdns =
        if (rest.dropWhile (fresh scopes)).all fun p => !fresh scopes p then
          atBase scopes base chain (rdns ++ ((x, v) :: rest).map fun p => p.2.own)
        else .error .notfound := by
  induction rest generalizing x v fuel rdns sctmp with
  | nil =>
    obtain ⟨fuel, rfl⟩ := Nat.exists_eq_add_of_le' (Nat.one_le_of_lt hfuel)
    obtain ⟨chain, hins, hcs, hcmem, -⟩ := mdbId2lInsert_spec (d := ⟨x, some v.own⟩) hs
      (hnew (x, v) mem_cons_self) (by simpa using hlen)
    cases hup with
    | step hv hup =>
      have hparent : v.own.lastID = base := hup.nil_inv
      have hne : v.own.lastID ≠ x := fun he => h.not_reaches_node hv (he ▸ .refl _)
      have hrec : ownRecord s.dn2id x none = .ok v.own := h.rep.set_own hv
      have hrem := (remember_fresh (hself (x, v) mem_cons_self)).trans hins
      refine ⟨chain, hcs, ?_, ?_⟩
      · intro e
        rw [hcmem]
        simp [hfresh, scopeOf, or_comm]
      · rw [round_base (h.rep.ne_zero hv) hrec hrem hne (hparent ▸ hc.find_base), hparent]
        rfl
  | cons q rest ih =>
    obtain ⟨fuel, rfl⟩ := Nat.exists_eq_add_of_le' (Nat.one_le_of_lt hfuel)
    obtain ⟨z, u⟩ := q
    obtain ⟨sctmp', hins, hcs, hcmem, hclen⟩ := mdbId2lInsert_spec (d := ⟨x, some v.own⟩) hs
      (hnew (x, v) mem_cons_self) (by omega)
    have htail := fun {p} hp => h.up_tail_ne (p := p) hup hp
    cases hup with
    | step hv hup =>
      have hz : v.own.lastID = z := by
        cases hup
        rfl
      have hne : v.own.lastID ≠ x := fun he => h.not_reaches_node hv (he ▸ .refl _)
      have hrec : ownRecord s.dn2id x none = .ok v.own := h.rep.set_own hv
      have hrem := (remember_fresh (hself (x, v) mem_cons_self)).trans hins
      have hu := (hup.mem_reaches mem_cons_self).1
      have hup' : Up nodes base z ((z, u) :: rest) := hz ▸ hup
      cases hf : id2lFind scopes z with
      | none =>
        have hfz : fresh scopes (z, u) = true := by simp [fresh, hf]
        have hnew' : ∀ p ∈ (z, u) :: rest, ∀ e ∈ sctmp', e.mid ≠ p.1 := by
          intro p hp e he
          cases (hcmem e).mp he with
          | inl he => exact he ▸ (htail hp).symm
          | inr he => exact hnew p (mem_cons_of_mem _ hp) e he
        obtain ⟨chain, hchain, hmem, hloop⟩ := @ih sctmp' (rdns ++ [v.own]) fuel z u hup' (by simpa using hfuel)
          (fun p hp => hself p (mem_cons_of_mem _ hp)) hfz hcs hnew' (by
            rw [length_cons] at hlen
            omega)
        refine ⟨chain, hchain, ?_, ?_⟩
        · intro e
          rw [hmem, hcmem, takeWhile_cons_of_pos (p := fresh scopes) hfresh, map_cons, mem_cons]
          show (e = scopeOf (x, v) ∨ _) ∨ _ ↔ _
          tauto
        · rw [round_on (h.rep.ne_zero hv) hrec hrem hne hscope (hz ▸ hf), hz]
          rw [dropWhile_cons_of_pos hfz]
          simpa using hloop
      | some d =>
        have hd := hc.find_some hu (h.up_base_ne hup' mem_cons_self) hf
        rw [hd] at hf
        have hfz : fresh scopes (z, u) = false := by simp [fresh, hf]
        refine ⟨sctmp', hcs, ?_, ?_⟩
        · intro e
          rw [hcmem, takeWhile_cons_of_pos (p := fresh scopes) hfresh,
            takeWhile_cons_of_neg (p := fresh scopes) (by simp [hfz])]
          simp [scopeOf, or_comm]
        · rw [round_cached (h.rep.ne_zero hv) hrec hrem hne hscope (hz ▸ hf), hz,
            climb_cached h hc hscope hup' (by simpa using hfuel)]
          rw [dropWhile_cons_of_neg (by simp [hfz]), all_cached_cons hfz]
          simp

theorem mdbIdscopes_below (h : TreeInv s started nodes) (hc : Cache nodes base scopes) (hscope : scope ≠ .onelevel) (hup : Up nodes base id ((id, v) :: rest))
    (hnot : id2lFind scopes id = none) (hlen : rest.length < MAXRDNS) :
    ∃ chain, IncreasingID2 chain ∧ (∀ e, e ∈ chain ↔ e ∈ (rest.takeWhile (fresh scopes)).map scopeOf) ∧
      mdbIdscopes s.dn2id scope scopes id =
        if (rest.dropWhile (fresh scopes)).all fun p => !fresh scopes p then
          atBase scopes base chain (((id, v) :: rest).map fun p => p.2.own)
        else .error .notfound := by
  obtain ⟨fuel, hfuel⟩ : ∃ fuel, MAXRDNS = fuel + 1 := ⟨2047, by decide⟩
  have htail := fun {p} hp => h.up_tail_ne (p := p) hup hp
  have hmax : MAXRDNS < MDB_IDL_UM_MAX := by decide
  unfold mdbIdscopes
  rw [hnot, hfuel]
  cases hup with
  | step hv hup =>
    have hrec : ownRecord s.dn2id id none = .ok v.own := h.rep.set_own hv
    have hne : v.own.lastID ≠ id := fun he => h.not_reaches_node hv (he ▸ .refl _)
    cases rest with
    | nil =>
      have hparent : v.own.lastID = base := hup.nil_inv
      refine ⟨[], DupSort.sortedBy_nil, by simp, ?_⟩
      dsimp only
      rw [round_base (h.rep.ne_zero hv) hrec remember_self hne (hparent ▸ hc.find_base), hparent]
      rfl
    | cons q rest =>
      obtain ⟨z, u⟩ := q
      have hz : v.own.lastID = z := by
        cases hup
        rfl
      have hu := (hup.mem_reaches mem_cons_self).1
      have hup' : Up nodes base z ((z, u) :: rest) := hz ▸ hup
      cases hf : id2lFind scopes z with
      | none =>
        have hfz : fresh scopes (z, u) = true := by simp [fresh, hf]
        obtain ⟨chain, hchain, hmem, hloop⟩ := @climb_fresh s started nodes base scopes scope id h hc hscope []
          ([] ++ [v.own]) fuel z u rest hup' (by simp at hlen; omega) (fun p hp => htail hp) hfz
          DupSort.sortedBy_nil (by simp) (by simp at hlen ⊢; omega)
        refine ⟨chain, hchain, ?_, ?_⟩
        · intro e
          rw [hmem]
          simp
        · dsimp only
          rw [round_on (h.rep.ne_zero hv) hrec remember_self hne hscope (hz ▸ hf), hz, dropWhile_cons_of_pos hfz]
          simpa using hloop
      | some d =>
        have hd := hc.find_some hu (h.up_base_ne hup' mem_cons_self) hf
        rw [hd] at hf
        have hfz : fresh scopes (z, u) = false := by rw [fresh, hf]; rfl
        refine ⟨[], DupSort.sortedBy_nil, ?_, ?_⟩
        · intro e
          rw [takeWhile_cons_of_neg (p := fresh scopes) (by simp [hfz])]
          simp
        · dsimp only
          rw [round_cached (h.rep.ne_zero hv) hrec remember_self hne hscope (hz ▸ hf), hz,
            climb_cached h hc hscope hup' (by simp at hlen; omega), dropWhile_cons_of_neg (by simp [hfz]),
            all_cached_cons hfz]
          simp

theorem climb_out (h : TreeInv s started nodes) (hc : Cache nodes base scopes) (hscope : scope ≠ .onelevel)
    {sctmp : List ID2} {rdns : List DiskNode} {fuel x : Nat} (hup : Up nodes 0 x ps)
    (hfuel : ps.length ≤ fuel) (hout : ¬ Reaches nodes.parent x base) (hs : IncreasingID2 sctmp)
    (hnew : ∀ p ∈ ps, ∀ e ∈ sctmp, e.mid ≠ p.1) (hlen : sctmp.length + ps.length ≤ MDB_IDL_UM_MAX) :
    ∃ rdns', idscopesLoop s.dn2id scope self scopes fuel x none sctmp rdns = .ok ⟨scopes, 0, rdns'⟩ := by
  induction ps generalizing x fuel sctmp rdns with
  | nil =>
    rw [hup.nil_inv]
    refine ⟨rdns, ?_⟩
    unfold idscopesLoop
    rw [if_pos rfl]
  | cons p ps ih =>
    have htail : ∀ {v : Node} {q : Nat × Node}, Up nodes 0 x ((x, v) :: ps) → q ∈ ps → q.1 ≠ x := fun hu hq =>
      h.up_tail_ne hu hq
    cases hup with
    | @step _ v _ hv hup =>
      obtain ⟨fuel, rfl⟩ := Nat.exists_eq_add_of_le' (show 1 ≤ fuel by simp at hfuel; omega)
      have hrec : ownRecord s.dn2id x none = .ok v.own := h.rep.set_own hv
      have hne : v.own.lastID ≠ x := fun he => h.not_reaches_node hv (he ▸ .refl _)
      have hpar : nodes.parent x = some v.parent := Nodes.parent_eq_some.mpr ⟨v, hv, rfl⟩
      have hout' : ¬ Reaches nodes.parent v.parent base := fun hr => hout (hr.head hpar)
      have hnone : id2lFind scopes v.own.lastID = none := hc.find_outside hout'
      have hrem : ∃ sctmp', remember self x none v.own sctmp = some sctmp' ∧ IncreasingID2 sctmp' ∧
          (∀ q ∈ ps, ∀ e ∈ sctmp', e.mid ≠ q.1) ∧ sctmp'.length ≤ sctmp.length + 1 := by
        if hself : x = self then
          rw [hself]
          exact ⟨sctmp, remember_self, hs, fun q hq => hnew q (mem_cons_of_mem _ hq), by omega⟩
        else
          obtain ⟨r, hr, hrs, hrmem, hrlen⟩ := mdbId2lInsert_spec (d := ⟨x, some v.own⟩) hs
            (hnew (x, v) mem_cons_self) (by simp at hlen; omega)
          refine ⟨r, (remember_fresh hself).trans hr, hrs, ?_, hrlen.le⟩
          intro q hq e he
          cases (hrmem e).mp he with
          | inl he => exact he ▸ (htail (.step hv hup) hq).symm
          | inr he => exact hnew q (mem_cons_of_mem _ hq) e he
      obtain ⟨sctmp', hrem, hs', hnew', hlen'⟩ := hrem
      rw [round_on (h.rep.ne_zero hv) hrec hrem hne hscope hnone]
      exact ih hup (by simpa using hfuel) hout' hs' hnew' (by simp at hlen; omega)

theorem mdbIdscopes_outside (h : TreeInv s started nodes) (hc : Cache nodes base scopes) (hscope : scope ≠ .onelevel)
    (hdepth : ∀ x ns, Named nodes x ns → ns.length ≤ MAXRDNS) {ns : List (List Byte)} (hid : Named nodes id ns)
    (hout : ¬ Reaches nodes.parent id base) :
    ∃ rdns, mdbIdscopes s.dn2id scope scopes id = .ok ⟨scopes, 0, rdns⟩ := by
  obtain ⟨ps, hup⟩ := Up.of_reaches hid.reaches
  have hlen : ps.length ≤ MAXRDNS := by
    have hnamed := hdepth id _ (hup.named .root)
    simpa using hnamed
  have hmax : MAXRDNS < MDB_IDL_UM_MAX := by decide
  unfold mdbIdscopes
  rw [hc.find_outside hout]
  exact climb_out h hc hscope hup hlen hout DupSort.sortedBy_nil (by simp) (by simp; omega)

theorem TreeInv.no_records (h : TreeInv s started nodes) (hid : nodes id = none) (h0 : id ≠ 0) : s.dn2id id = [] := by
  refine List.eq_nil_iff_forall_not_mem.mpr ?_
  intro d hd
  cases (h.rep.mem id d).mp hd with
  | own hv =>
    rw [hid] at hv
    cases hv
  | root hk _ => exact h0 hk
  | @child c v hc hp =>
    -- the parent of a node is a node or the root
    obtain ⟨ns, hns⟩ := h.named (h.mem_of_node hc)
    cases hns with
    | root => exact absurd rfl (h.rep.ne_zero hc)
    | node hc' hns =>
      rw [hc] at hc'
      cases hc'
      rw [hp] at hns
      cases hns with
      | root => exact h0 rfl
      | node hid' _ =>
        rw [hid] at hid'
        cases hid'

theorem TreeInv.set_absent (h : TreeInv s started nodes) (hid : nodes id = none) (h0 : id ≠ 0) :
    s.dn2id.set id = .error .notfound := by
  unfold Dn2id.set
  rw [h.no_records hid h0]

theorem mdbIdscopes_absent (h : TreeInv s started nodes) (hc : Cache nodes base scopes) (hid : nodes id = none)
    (hbase : id ≠ base) :
    mdbIdscopes s.dn2id scope scopes id = if id = 0 then .ok ⟨scopes, 0, []⟩ else .error .notfound := by
  have hnone : id2lFind scopes id = none := by
    rw [id2lFind_eq_none hc.increasing]
    intro d hd hmid
    obtain ⟨v, hv, -⟩ := hc.cached d hd (hmid ▸ hbase)
    rw [hmid, hid] at hv
    cases hv
  unfold mdbIdscopes
  rw [hnone]
  dsimp only
  rw [idscopesLoop]
  if h0 : id = 0 then rw [if_pos h0, if_pos h0]
  else rw [if_neg h0, if_neg h0, ownRecord, h.set_absent hid h0]

theorem mdbIdscopes_onelevel (h : TreeInv s started nodes) (hv : nodes id = some v) (hbase : id ≠ base) :
    mdbIdscopes s.dn2id .onelevel [⟨base, none⟩] id =
      if v.parent = base then atBase [⟨base, none⟩] base [] [v.own] else .ok ⟨[⟨base, none⟩], 0, [v.own]⟩ := by
  have hinc : IncreasingID2 [⟨base, none⟩] := pairwise_singleton _ _
  have hnone : ∀ {x}, x ≠ base → id2lFind [⟨base, none⟩] x = none := by
    intro x hx
    rw [id2lFind_eq_none hinc]
    intro d hd hmid
    rw [List.mem_singleton.mp hd] at hmid
    exact hx hmid.symm
  obtain ⟨fuel, hfuel⟩ : ∃ fuel, MAXRDNS = fuel + 1 := ⟨2047, by decide⟩
  have hrec : ownRecord s.dn2id id none = .ok v.own := h.rep.set_own hv
  have hne : v.own.lastID ≠ id := fun he => h.not_reaches_node hv (he ▸ .refl _)
  unfold mdbIdscopes
  rw [hnone hbase, hfuel]
  dsimp only
  rw [idscopesLoop_round (h.rep.ne_zero hv) hrec remember_self hne, own_lastID]
  if hp : v.parent = base then
    rw [if_pos hp, hp, (id2lFind_iff hinc).mpr ⟨List.mem_singleton.mpr rfl, rfl⟩]
    rfl
  else
    rw [if_neg hp, hnone hp]
    rfl

end
end BackMdb
end ReOpenLDAP
