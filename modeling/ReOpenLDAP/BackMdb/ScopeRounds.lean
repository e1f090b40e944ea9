import ReOpenLDAP.BackMdb.ScopeCandidates

/-!
# BackMdb.ScopeRounds

The loop of `mdb_search` over the candidates.

* `Rounds`             — the loop, from one round.
-/

namespace ReOpenLDAP
namespace BackMdb

open Forest List

/-! ## The loop -/

theorem mdbGetNextid_none {s : Tables} {id x : Nat} (h : mdbGetNextid s id = none) (hx : x ∈ s.id2entry) : x ≤ id := by
  have hle := List.find?_eq_none.mp h x hx
  simpa using hle

theorem mdbGetNextid_le {s : Tables} {id x y : Nat} (hinc : Increasing s.id2entry) (h : mdbGetNextid s id = some y)
    (hx : x ∈ s.id2entry) (hlt : id < x) : y ≤ x := by
  obtain ⟨-, as, bs, heq, has⟩ := List.find?_eq_some_iff_append.mp h
  rw [heq] at hx hinc
  cases List.mem_append.mp hx with
  | inl hx =>
    have hnot := has x hx
    simp only [Bool.not_eq_true', decide_eq_false_iff_not] at hnot
    exact absurd hlt hnot
  | inr hx =>
    cases List.mem_cons.mp hx with
    | inl hx => exact hx.ge
    | inr hx => exact Nat.le_of_lt ((DupSort.sortedBy_cons.mp (List.pairwise_append.mp hinc).2.1).1 x hx)

/-- What the loop needs to know of a round: `Inv t` holds of the cache before the candidate `t`, the candidates in `Fails`
end the search, and `R` is what the others contribute. -/
structure Rounds (s : Tables) (base : DnEntry) (scope : Scope) (cands : Set Nat) (Inv : Nat → List ID2 → Prop)
    (Fails : Nat → Prop) (R : Nat → DnEntry → Prop) : Prop where
  step : ∀ id scopes, id ∈ cands → Inv id scopes → ¬ Fails id →
    ∃ scopes' out, candidateStep s base scope scopes id = .ok (scopes', out) ∧
      Inv (id + 1) scopes' ∧ (out.entries.map DnEntry.id).Sublist [id] ∧ ∀ e, e ∈ out.entries ↔ R id e
  fails : ∀ id scopes, Inv id scopes → Fails id → ∃ rc, candidateStep s base scope scopes id = .error rc
  skip : ∀ t t' scopes, Inv t scopes → t ≤ t' → (∀ c ∈ cands, t ≤ c → c < t' → c ∉ s.id2entry) → Inv t' scopes
  failing : ∀ x, Fails x → x ∈ s.id2entry
  known : ∀ x e, R x e → x = 0 ∨ x ∈ s.id2entry
  noid : ∀ x ∈ s.id2entry, x < NOID
  increasing : Increasing s.id2entry

namespace Rounds

variable {s : Tables} {base : DnEntry} {scope : Scope} {cands : Set Nat} {Inv : Nat → List ID2 → Prop}
  {Fails : Nat → Prop} {R : Nat → DnEntry → Prop}

theorem listLoop (h : Rounds s base scope cands Inv Fails R) {ids : List Nat} {t : Nat} {scopes : List ID2}
    (hinv : Inv t scopes) (hinc : Increasing ids) (hin : ∀ x ∈ ids, x ∈ cands ∧ t ≤ x)
    (hall : ∀ c ∈ cands, t ≤ c → c ∈ ids) :
    ((∃ x ∈ ids, Fails x) ∧ ∃ rc, candidateListLoop s base scope ids scopes = .error rc) ∨
    ((∀ x ∈ ids, ¬ Fails x) ∧ ∃ out, candidateListLoop s base scope ids scopes = .ok out ∧
      (out.map DnEntry.id).Sublist ids ∧ ∀ e, e ∈ out ↔ ∃ x ∈ ids, R x e) := by
  induction ids generalizing t scopes with
  | nil => exact .inr ⟨by simp, [], rfl, by simp, by simp⟩
  | cons id ids ih =>
    obtain ⟨hlt, hinc'⟩ := DupSort.sortedBy_cons.mp hinc
    obtain ⟨hid, htid⟩ := hin id mem_cons_self
    have hinv' : Inv id scopes := by
      refine h.skip t id scopes hinv htid ?_
      intro c hc htc hcid
      cases List.mem_cons.mp (hall c hc htc) with
      | inl he => omega
      | inr hmem =>
        have hidc : id < c := hlt c hmem
        omega
    unfold candidateListLoop
    by_cases hf : Fails id
    · obtain ⟨rc, hrc⟩ := h.fails id scopes hinv' hf
      rw [hrc]
      exact .inl ⟨⟨id, mem_cons_self, hf⟩, rc, rfl⟩
    · obtain ⟨scopes', out, hstep, hinv₁, hsub, hout⟩ := h.step id scopes hid hinv' hf
      rw [hstep]
      have hrest := ih hinv₁ hinc' (fun x hx => ⟨(hin x (mem_cons_of_mem _ hx)).1, hlt x hx⟩) (by
        intro c hc hle
        cases List.mem_cons.mp (hall c hc (by omega)) with
        | inl he => omega
        | inr hmem => exact hmem)
      cases hrest with
      | inl hrest =>
        obtain ⟨⟨x, hx, hfx⟩, rc, hrc⟩ := hrest
        exact .inl ⟨⟨x, mem_cons_of_mem _ hx, hfx⟩, rc, by simp only [hrc, Except.map]⟩
      | inr hrest =>
        obtain ⟨hnone, outs, hloop, hsubs, houts⟩ := hrest
        refine .inr ⟨List.forall_mem_cons.mpr ⟨hf, hnone⟩, out.entries ++ outs, ?_, ?_, ?_⟩
        · simp only [hloop, Except.map]
        · rw [map_append]
          exact hsub.append hsubs
        · intro e
          rw [mem_append, hout, houts]
          simp

/-- The result of the loop over the candidates from `id` to `hi`. -/
def RangeSpec (Fails : Nat → Prop) (R : Nat → DnEntry → Prop) (hi id : Nat) (r : Except Rc (List DnEntry)) : Prop :=
  ((∃ x, id ≤ x ∧ x ≤ hi ∧ Fails x) ∧ ∃ rc, r = .error rc) ∨
  ((∀ x, id ≤ x → x ≤ hi → ¬ Fails x) ∧ ∃ out, r = .ok out ∧ (out.map DnEntry.id).Pairwise (· < ·) ∧ (∀ e ∈ out, id ≤ e.id) ∧
    ∀ e, e ∈ out ↔ ∃ x, id ≤ x ∧ x ≤ hi ∧ R x e)

variable {hi id y : Nat} {r : Except Rc (List DnEntry)}

theorem RangeSpec.nil (hf : ∀ x, id ≤ x → x ≤ hi → ¬ Fails x) (hR : ∀ x e, id ≤ x → x ≤ hi → ¬ R x e) :
    RangeSpec Fails R hi id (.ok []) :=
  .inr ⟨hf, [], rfl, .nil, by simp, fun e => ⟨fun he => absurd he (not_mem_nil),
    fun ⟨x, hx, hxhi, he⟩ => absurd he (hR x e hx hxhi)⟩⟩

theorem RangeSpec.behind (hid : id ≤ y) (hf : ∀ x, id ≤ x → Fails x → y ≤ x) (hR : ∀ x e, id ≤ x → R x e → y ≤ x)
    (h : RangeSpec Fails R hi y r) : RangeSpec Fails R hi id r := by
  rcases h with ⟨⟨x, hx, hxhi, hfx⟩, hrc⟩ | ⟨hnone, out, hloop, hpw, hge, hout⟩
  · exact .inl ⟨⟨x, hid.trans hx, hxhi, hfx⟩, hrc⟩
  · refine .inr ⟨fun x hx hxhi hfx => hnone x (hf x hx hfx) hxhi hfx, out, hloop, hpw, fun e he => hid.trans (hge e he), fun e => ?_⟩
    rw [hout]
    constructor
    · rintro ⟨x, hx, hrest⟩
      exact ⟨x, hid.trans hx, hrest⟩
    · rintro ⟨x, hx, hxhi, he⟩
      exact ⟨x, hR x e hx he, hxhi, he⟩

theorem RangeSpec.cons {out : Outcome} (hid : id ≤ hi) (hf : ¬ Fails id) (hsub : (out.entries.map DnEntry.id).Sublist [id])
    (hout : ∀ e, e ∈ out.entries ↔ R id e) (h : RangeSpec Fails R hi (id + 1) r) :
    RangeSpec Fails R hi id (r.map (out.entries ++ ·)) := by
  rcases h with ⟨⟨x, hx, hxhi, hfx⟩, rc, hrc⟩ | ⟨hnone, outs, hloop, hpw, hge, houts⟩
  · exact .inl ⟨⟨x, by omega, hxhi, hfx⟩, rc, by rw [hrc]; rfl⟩
  · have hids : ∀ e ∈ out.entries, e.id = id := by
      intro e he
      exact List.mem_singleton.mp (hsub.subset (List.mem_map.mpr ⟨e, he, rfl⟩))
    refine .inr ⟨?_, out.entries ++ outs, by rw [hloop]; rfl, ?_, ?_, ?_⟩
    · intro x hx hxhi
      if hxid : x = id then exact hxid ▸ hf
      else exact hnone x (by omega) hxhi
    · rw [map_append]
      refine List.pairwise_append.mpr ⟨(pairwise_singleton _ id).sublist hsub, hpw, ?_⟩
      intro a ha b hb
      obtain ⟨e, he, rfl⟩ := List.mem_map.mp ha
      obtain ⟨e', he', rfl⟩ := List.mem_map.mp hb
      rw [hids e he]
      exact hge e' he'
    · intro e he
      cases List.mem_append.mp he with
      | inl he => exact (hids e he).ge
      | inr he => exact Nat.le_of_succ_le (hge e he)
    · intro e
      rw [mem_append, hout, houts]
      constructor
      · intro he
        cases he with
        | inl he => exact ⟨id, le_refl id, hid, he⟩
        | inr he =>
          obtain ⟨x, hx, hrest⟩ := he
          exact ⟨x, by omega, hrest⟩
      · rintro ⟨x, hx, hxhi, hR⟩
        if hxid : x = id then exact .inl (hxid ▸ hR)
        else exact .inr ⟨x, by omega, hxhi, hR⟩

theorem rangeLoop {lo hi : Nat} (h : Rounds s base scope (Set.Icc lo hi) Inv Fails R) {id : Nat} {scopes : List ID2}
    (hinv : Inv id scopes) (hlo : lo ≤ id) : RangeSpec Fails R hi id (candidateRangeLoop s base scope hi id scopes) := by
  induction hn : hi + 1 - id using Nat.strong_induction_on generalizing id scopes with
  | _ n ih =>
    unfold candidateRangeLoop
    if hend : hi < id ∨ id = NOID then
      rw [if_pos hend]
      have hlast : ∀ x, id ≤ x → x ≤ hi → x ≠ 0 ∧ x ∉ s.id2entry := by
        intro x hx hxhi
        have hno : NOID ≠ 0 := by decide
        refine ⟨by omega, ?_⟩
        intro hmem
        have := h.noid x hmem
        omega
      exact .nil (fun x hx hxhi hf => (hlast x hx hxhi).2 (h.failing x hf))
        fun x e hx hxhi hR => absurd (h.known x e hR) (not_or.mpr (hlast x hx hxhi))
    else
      rw [if_neg hend]
      obtain ⟨hid, hidno⟩ := not_or.mp hend
      by_cases hf : Fails id
      · obtain ⟨rc, hrc⟩ := h.fails id scopes hinv hf
        rw [hrc]
        exact .inl ⟨⟨id, le_refl id, by omega, hf⟩, rc, rfl⟩
      · obtain ⟨scopes', out, hstep, hinv', hsub, hout⟩ := h.step id scopes ⟨hlo, by omega⟩ hinv hf
        rw [hstep]
        have hon : RangeSpec Fails R hi id ((candidateRangeLoop s base scope hi (id + 1) scopes').map (out.entries ++ ·)) :=
          .cons (by omega) hf hsub hout (ih (hi + 1 - (id + 1)) (by omega) hinv' (by omega) rfl)
        cases out with
        | examined _ => exact hon
        | skipped => exact hon
        | notfound =>
          clear hon
          have hR : ∀ e, ¬ R id e := by
            intro e he
            cases (hout e).mpr he
          -- what is left belongs to entries behind `id`
          have hleft : ∀ x e, id ≤ x → R x e → x ∈ s.id2entry ∧ id < x := by
            intro x e hx he
            have hxid : x ≠ id := fun hxid => hR e (hxid ▸ he)
            cases h.known x e he with
            | inl h0 => omega
            | inr hmem => exact ⟨hmem, by omega⟩
          have hfails : ∀ x, id ≤ x → Fails x → x ∈ s.id2entry ∧ id < x := by
            intro x hx hfx
            have hxid : x ≠ id := fun hxid => hf (hxid ▸ hfx)
            exact ⟨h.failing x hfx, by omega⟩
          simp only
          split
          · rename_i hnone
            have hgone : ∀ {x}, x ∈ s.id2entry ∧ id < x → False := fun hx =>
              absurd (mdbGetNextid_none hnone hx.1) (Nat.not_le.mpr hx.2)
            exact .nil (fun x hx _ hfx => hgone (hfails x hx hfx)) fun x e hx _ he => hgone (hleft x e hx he)
          · rename_i y hy
            have hlt : id < y := by simpa using List.find?_some hy
            have hnext : ∀ {x}, x ∈ s.id2entry ∧ id < x → y ≤ x := fun hx => mdbGetNextid_le h.increasing hy hx.1 hx.2
            have hinvy : Inv y scopes' :=
              h.skip (id + 1) y scopes' hinv' hlt fun c _ hc hcy hmem => Nat.not_le.mpr hcy (hnext ⟨hmem, hc⟩)
            exact .behind hlt.le (fun x hx hfx => hnext (hfails x hx hfx)) (fun x e hx he => hnext (hleft x e hx he))
              (ih (hi + 1 - y) (by omega) hinvy (by omega) rfl)

theorem candidateLoop {candidates : IDL} (h : Rounds s base scope candidates.denote Inv Fails R) (hv : candidates.Valid)
    (hinv : Inv 0 (if scope = .base then [] else [⟨base.id, none⟩])) :
    ((∃ x ∈ candidates.denote, Fails x) ∧ ∃ rc, BackMdb.candidateLoop s base scope candidates = .error rc) ∨
    ((∀ x ∈ candidates.denote, ¬ Fails x) ∧ ∃ out, BackMdb.candidateLoop s base scope candidates = .ok out ∧
      (out.map DnEntry.id).Pairwise (· < ·) ∧ ∀ e, e ∈ out ↔ ∃ x ∈ candidates.denote, R x e) := by
  cases candidates with
  | list ids =>
    cases h.listLoop hinv hv.1 (fun x hx => ⟨hx, Nat.zero_le x⟩) (fun c hc _ => hc) with
    | inl hfails => exact .inl hfails
    | inr hends =>
      obtain ⟨hnone, out, hloop, hsub, hout⟩ := hends
      exact .inr ⟨hnone, out, hloop, hv.1.sublist hsub, hout⟩
  | range lo hi =>
    have hlo : Inv lo (if scope = .base then [] else [⟨base.id, none⟩]) := by
      refine h.skip 0 lo _ hinv (Nat.zero_le lo) ?_
      intro c hc _ hlt
      exact absurd hc.1 (by omega)
    cases rangeLoop h hlo (le_refl lo) with
    | inl hfails =>
      obtain ⟨⟨x, hx, hxhi, hf⟩, hrc⟩ := hfails
      exact .inl ⟨⟨x, ⟨hx, hxhi⟩, hf⟩, hrc⟩
    | inr hends =>
      obtain ⟨hnone, out, hloop, hpw, -, hout⟩ := hends
      refine .inr ⟨fun x hx => hnone x hx.1 hx.2, out, hloop, hpw, ?_⟩
      intro e
      rw [hout]
      constructor
      · intro ⟨x, hx, hxhi, hR⟩
        exact ⟨x, ⟨hx, hxhi⟩, hR⟩
      · intro ⟨x, hx, hR⟩
        exact ⟨x, hx.1, hx.2, hR⟩

end Rounds

section

variable {s : Tables} {started : Bool} {nodes : Nodes} {base : DnEntry} {scope : Scope} {candidates : IDL}

theorem Cache.start (nodes : Nodes) (b : Nat) : Cache nodes b [⟨b, none⟩] where
  increasing := pairwise_singleton _ _
  hasBase := List.mem_singleton.mpr rfl
  cached := by
    intro d hd hb
    rw [List.mem_singleton.mp hd] at hb
    exact absurd rfl hb
  fits := show 1 ≤ MDB_IDL_UM_MAX by decide

theorem CacheAt.start (s : Tables) (nodes : Nodes) (b : Nat) (cands : Set Nat) :
    CacheAt s nodes b cands 0 [⟨b, none⟩] := by
  have hnone : ∀ x, ¬ Seen nodes.parent b cands 0 x := fun x hx => by
    obtain ⟨c, -, hlt, -⟩ := hx
    omega
  refine ⟨Cache.start nodes b, .inl ⟨?_, ?_⟩⟩
  · intro x hx
    constructor
    · intro ⟨d, hd, hdx⟩
      rw [List.mem_singleton.mp hd] at hdx
      exact absurd hdx.symm hx
    · exact fun hseen => absurd hseen (hnone x)
  · classical
    unfold seenCount
    rw [Finset.filter_false_of_mem fun x _ => hnone x]
    decide

/-- What a search examines, when the candidates for which `P` fails are missing. -/
def Contributes (nodes : Nodes) (base : DnEntry) (scope : Scope) (P : Nat → Prop) (x : Nat) (e : DnEntry) : Prop :=
  ∃ ps, Up nodes base.id x ps ∧ scope.Allows ps ∧ P x ∧ e = entryAt base x ps

/-- `mdb_id2name` is asked for the DN of `x` and has no room for it. -/
def Overlong (s : Tables) (nodes : Nodes) (base : DnEntry) (cands : Set Nat) (x : Nat) : Prop :=
  Remembered nodes.parent s.id2entry.toFinset base.id cands x ∧
    ∃ ns rs, Named nodes x ns ∧ Pretty nodes x rs ∧ ¬ (Short ns ∧ Short rs)

theorem TreeInv.zero_or_mem (h : TreeInv s started nodes) {x : Nat} {ns : List (List Byte)} (hx : Named nodes x ns) :
    x = 0 ∨ x ∈ s.id2entry := by
  cases hx with
  | root => exact .inl rfl
  | node hv _ => exact .inr (h.mem_of_node hv)

theorem Setting.known (h : Setting s started nodes base) {P : Nat → Prop} {x : Nat} {e : DnEntry}
    (hx : Contributes nodes base scope P x e) : x = 0 ∨ x ∈ s.id2entry := by
  obtain ⟨ps, hup, -⟩ := hx
  obtain ⟨nb, -, hnb, -⟩ := h.base
  exact h.tree.zero_or_mem (hup.named hnb)

theorem Remembered.between {parent : Nat → Option Nat} {N : Finset Nat} {b : Nat} {cands : Set Nat} {x : Nat}
    (h : Remembered parent N b cands x) : ∃ c, Between parent b c x := by
  obtain ⟨c, -, -, -, hkept⟩ := h
  cases hkept with
  | inl hseen =>
    obtain ⟨c, -, -, hbet⟩ := hseen
    exact ⟨c, hbet⟩
  | inr hbet => exact ⟨c, hbet.1⟩

theorem Setting.rounds_below (h : Setting s started nodes base) {cands : Set Nat} (hscope : scope ≠ .base)
    (hscope' : scope ≠ .onelevel) :
    Rounds s base scope cands (CacheAt s nodes base.id cands) (Overlong s nodes base cands)
      (Contributes nodes base scope fun x => ¬ Lost nodes.parent s.id2entry.toFinset base.id cands x) where
  step := by
    intro id _ hid hca hshort
    refine h.step hscope hscope' hid hca ?_
    intro hrem ns rs hns hrs
    by_contra hlong
    exact hshort ⟨hrem, ns, rs, hns, hrs, hlong⟩
  fails := by
    intro id scopes hca ⟨hrem, ns, rs, hns, hrs, hlong⟩
    obtain ⟨c, hbet⟩ := hrem.between
    obtain ⟨d, hd, hdid⟩ := (hca.cached_iff hbet.2.1).mpr hrem
    exact h.step_overlong hca.cache hscope hbet.2.1 ((id2lFind_iff hca.cache.increasing).mpr ⟨hd, hdid⟩) hns hrs hlong
  skip := by
    intro t t' scopes hca htt hnone
    refine hca.skip htt ?_
    intro c hc htc hct a hbet
    -- only an entry has superiors
    exfalso
    cases hp : nodes.parent c with
    | none => exact hbet.1 ((reaches_of_parent_none hp).mp hbet.2.2.1)
    | some p =>
      obtain ⟨v, hv, -⟩ := Nodes.parent_eq_some.mp hp
      exact hnone c hc htc hct (h.tree.mem_of_node hv)
  failing := by
    intro x ⟨hrem, _⟩
    obtain ⟨c, hbet⟩ := hrem.between
    exact h.tree.between_mem hbet
  known := fun _ _ hx => h.known hx
  noid := h.noid
  increasing := h.tree.increasing

theorem Setting.rounds_base (h : Setting s started nodes base) {cands : Set Nat} :
    Rounds s base .base cands (fun _ _ => True) (fun _ => False) (Contributes nodes base .base fun _ => True) where
  step := by
    intro id scopes _ _ _
    unfold candidateStep
    if hb : id = base.id then
      refine ⟨scopes, .examined base, by rw [if_pos hb]; rfl, trivial, by simp [Outcome.entries, hb], ?_⟩
      exact h.examined_iff trivial (hb ▸ Up.refl : Up nodes base.id id []) rfl
    else
      refine ⟨scopes, .skipped, by rw [if_neg hb]; rfl, trivial, by simp [Outcome.entries], ?_⟩
      intro e
      constructor
      · intro he
        cases he
      · rintro ⟨ps, hup, hnil, _⟩
        have hps : ps = [] := hnil
        rw [hps] at hup
        exact absurd hup.nil_inv hb
  fails := fun _ _ _ hf => hf.elim
  skip := fun _ _ _ _ _ _ => trivial
  failing := fun _ hf => hf.elim
  known := fun _ _ hx => h.known hx
  noid := h.noid
  increasing := h.tree.increasing

theorem Setting.step_onelevel (h : Setting s started nodes base) (id : Nat) :
    ∃ out, candidateStep s base .onelevel [⟨base.id, none⟩] id = .ok ([⟨base.id, none⟩], out) ∧
      (out.entries.map DnEntry.id).Sublist [id] ∧
      ∀ e, e ∈ out.entries ↔ Contributes nodes base .onelevel (fun _ => True) id e := by
  have hnothing : ∀ out : Outcome, out.entries = [] → (∀ v, nodes id = some v → v.parent ≠ base.id) →
      ∀ e, e ∈ out.entries ↔ Contributes nodes base .onelevel (fun _ => True) id e := by
    intro out hout hno e
    rw [hout]
    constructor
    · intro he
      cases he
    · intro ⟨ps, hup, hlen, _⟩
      have hps : ps.length = 1 := hlen
      cases hup with
      | refl => cases hps
      | @step _ v ps hv hup =>
        have hnil : ps = [] := List.length_eq_zero_iff.mp (Nat.succ.inj hps)
        rw [hnil] at hup
        exact absurd hup.nil_inv (hno v hv)
  have hc := Cache.start nodes base.id
  if hb : id = base.id then
    refine ⟨.skipped, by unfold candidateStep; rw [if_pos hb]; rfl, by simp [Outcome.entries], hnothing _ rfl ?_⟩
    intro v hv hp
    exact h.tree.not_reaches_node hv (hp.trans hb.symm ▸ .refl _)
  else
    cases hv : nodes id with
    | none =>
      have hno : ∀ v, nodes id = some v → v.parent ≠ base.id := by
        intro v hv'
        rw [hv] at hv'
        cases hv'
      unfold candidateStep
      rw [if_neg hb, if_neg (by decide), mdbIdscopes_absent h.tree hc hv hb]
      if h0 : id = 0 then
        rw [if_pos h0]
        exact ⟨.skipped, rfl, by simp [Outcome.entries], hnothing _ rfl hno⟩
      else
        rw [if_neg h0]
        exact ⟨.notfound, rfl, by simp [Outcome.entries], hnothing _ rfl hno⟩
    | some v =>
      have hisc := mdbIdscopes_onelevel h.tree hv hb
      if hp : v.parent = base.id then
        rw [if_pos hp] at hisc
        have htop := getElem?_checkAgain hc.increasing hc.hasBase (mdbId2lSearch [⟨base.id, none⟩] base.id)
        have hpos := (Search.search_spec hc.increasing.mids base.id).1
        have hup : Up nodes base.id id [(id, v)] := .step hv (hp ▸ .refl)
        have hstep := @candidateStep_eq s base .onelevel _ _ _ _ hb (by decide) hisc
          (checkAgain_ne_zero hc.increasing (by unfold mdbId2lSearch; omega)) (h.tree.mem_of_node hv) htop
        rw [if_pos rfl] at hstep
        refine ⟨.examined (entryAt base id [(id, v)]), ?_, by simp [Outcome.entries, entryAt, childEntry],
          h.examined_iff trivial hup rfl⟩
        rw [hstep]
        simp [entryAt, childEntry, childRecord, Node.child, Node.own, addChain]
      else
        rw [if_neg hp] at hisc
        refine ⟨.skipped, ?_, by simp [Outcome.entries], hnothing _ rfl ?_⟩
        · unfold candidateStep
          rw [if_neg hb, if_neg (by decide), hisc]
          rfl
        · intro w hw
          rw [hv] at hw
          cases hw
          exact hp

theorem Setting.rounds_onelevel (h : Setting s started nodes base) {cands : Set Nat} :
    Rounds s base .onelevel cands (fun _ scopes => scopes = [⟨base.id, none⟩]) (fun _ => False)
      (Contributes nodes base .onelevel fun _ => True) where
  step := by
    intro id scopes _ hinv _
    obtain ⟨out, hstep, hsub, hout⟩ := h.step_onelevel id
    rw [hinv]
    exact ⟨_, out, hstep, rfl, hsub, hout⟩
  fails := fun _ _ _ hf => hf.elim
  skip := fun _ _ _ hinv _ _ => hinv
  failing := fun _ hf => hf.elim
  known := fun _ _ hx => h.known hx
  noid := h.noid
  increasing := h.tree.increasing

def Scope.Deep (scope : Scope) : Prop := scope = .subtree ∨ scope = .children

/-- The loop over the candidates fails at a name that does not fit. Otherwise it examines the candidates in scope that
are not lost, in the order of their IDs. -/
theorem Setting.candidateLoop_spec (h : Setting s started nodes base) (hv : candidates.Valid) (scope : Scope) :
    ((scope.Deep ∧ ∃ x ∈ candidates.denote, Overlong s nodes base candidates.denote x) ∧
      ∃ rc, candidateLoop s base scope candidates = .error rc) ∨
    ((scope.Deep → ∀ x ∈ candidates.denote, ¬ Overlong s nodes base candidates.denote x) ∧
      ∃ out, candidateLoop s base scope candidates = .ok out ∧ (out.map DnEntry.id).Pairwise (· < ·) ∧
        ∀ e, e ∈ out ↔ ∃ x ∈ candidates.denote, Contributes nodes base scope
          (fun x => scope.Deep → ¬ Lost nodes.parent s.id2entry.toFinset base.id candidates.denote x) x e) := by
  have hsame : ∀ P Q : Nat → Prop, (∀ x, P x ↔ Q x) → Contributes nodes base scope P = Contributes nodes base scope Q := by
    intro P Q hPQ
    rw [funext fun x => propext (hPQ x)]
  by_cases hd : scope.Deep
  · have hb : scope ≠ .base := by rcases hd with rfl | rfl <;> decide
    have hone : scope ≠ .onelevel := by rcases hd with rfl | rfl <;> decide
    rw [hsame _ (fun x => ¬ Lost nodes.parent s.id2entry.toFinset base.id candidates.denote x)
      fun x => ⟨fun hl => hl hd, fun hl _ => hl⟩]
    have hstart : CacheAt s nodes base.id candidates.denote 0 (if scope = .base then [] else [⟨base.id, none⟩]) := by
      rw [if_neg hb]
      exact CacheAt.start s nodes base.id _
    cases (h.rounds_below hb hone).candidateLoop hv hstart with
    | inl hf => exact .inl ⟨⟨hd, hf.1⟩, hf.2⟩
    | inr hok => exact .inr ⟨fun _ => hok.1, hok.2⟩
  · rw [hsame _ (fun _ => True) fun x => ⟨fun _ => trivial, fun _ hdeep => absurd hdeep hd⟩]
    refine .inr ⟨fun hdeep => absurd hdeep hd, ?_⟩
    have hnofail : ∀ {A : Prop} {B : Prop},
        ((∃ x ∈ candidates.denote, (fun _ : Nat => False) x) ∧ A) ∨
          ((∀ x ∈ candidates.denote, ¬ (fun _ : Nat => False) x) ∧ B) → B := by
      intro A B hAB
      cases hAB with
      | inl hA =>
        obtain ⟨⟨x, -, hx⟩, -⟩ := hA
        exact hx.elim
      | inr hB => exact hB.2
    cases scope with
    | base => exact hnofail (h.rounds_base.candidateLoop hv trivial)
    | onelevel => exact hnofail (h.rounds_onelevel.candidateLoop hv rfl)
    | subtree => exact absurd (.inl rfl) hd
    | children => exact absurd (.inr rfl) hd

end

end BackMdb
end ReOpenLDAP
