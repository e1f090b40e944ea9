import Mathlib.Data.Nat.Digits.Lemmas
import ReOpenLDAP.BackMdb.ScopeRounds

/-!
# BackMdb.ScopeAgree

The two ways of `mdb_search` through the entries of a search.
-/

namespace ReOpenLDAP
namespace BackMdb

open Forest List

section

variable {s : Tables} {started : Bool} {nodes : Nodes} {base : DnEntry} {scope : Scope} {candidates : IDL}
variable {nsubs x : Nat}

theorem mdbDn2entry_name {suffix dn : List Byte} {matched : Bool} {mc : Option (Nat × DiskNode)}
    (h : mdbDn2entry suffix s dn matched = ⟨none, some base, nsubs, mc⟩) :
    base.name = (mdbDn2id suffix s.dn2id dn).matched := by
  have hrc := (mdbDn2entry_ok h).1
  unfold mdbDn2entry at h
  simp only [hrc] at h
  split_ifs at h
  · simp only [Dn2entry.mk.injEq, Option.some.injEq, true_and] at h
    rw [← h.1]
  · simp at h

theorem descend_matched {db : Dn2id} (h : Represents db started nodes) {ns rs : List (List Byte)} {r : Dn2idResult}
    (hr : Pretty nodes r.id rs) (hm : r.matched = joinRdns rs) (hok : (descend db ns r).rc = none) :
    ∃ rs', Pretty nodes (descend db ns r).id rs' ∧ (descend db ns r).matched = joinRdns rs' := by
  induction ns generalizing r rs with
  | nil => exact ⟨rs, hr, hm⟩
  | cons n ns ih =>
    obtain ⟨c, v, hc, hp, -, hget⟩ | ⟨-, hget⟩ := h.getBoth_cases r.id n
    · have hdesc : descend db (n :: ns) r =
          descend db ns (r.found (v.child c) (if r.nmatched = [] then n else n ++ comma :: r.nmatched)) := by
        conv_lhs => unfold descend
        rw [hget]
      rw [hdesc] at hok ⊢
      have htop : r.id = 0 ↔ rs = [] := by
        constructor
        · intro h0
          rw [h0] at hr
          exact hr.det h.root .root
        · intro hnil
          rw [hnil] at hr
          generalize r.id = x at hr
          cases hr
          rfl
      refine @ih (v.rdn :: rs) _ ?_ ?_ hok
      · refine .node hc ?_
        rw [hp]
        exact hr
      · simp only [Dn2idResult.found, joinRdns_cons, htop, hm, Node.child]
    · have hdesc : descend db (n :: ns) r = r.failed .notfound := by
        conv_lhs => unfold descend
        rw [hget]
      rw [hdesc] at hok
      cases hok

theorem Setting.of_dn2entry (h : TreeInv s started nodes) (hnoid : ∀ x ∈ s.id2entry, x < NOID)
    (hdepth : ∀ x ns, Named nodes x ns → ns.length ≤ MAXRDNS)
    (hnames : ∀ x v, nodes x = some v → v.nrdn ≠ [] ∧ v.rdn ≠ []) {suffix : List Byte} {dn : Dn} {matched : Bool} {mc : Option (Nat × DiskNode)}
    (he : mdbDn2entry suffix s (dn.str suffix) matched = ⟨none, some base, nsubs, mc⟩) : Setting s started nodes base := by
  refine ⟨h, hnoid, hdepth, hnames, ?_⟩
  obtain ⟨hnamed, hnn, -⟩ := h.dn2entry he
  obtain ⟨hrc, hid, -⟩ := mdbDn2entry_ok he
  have hname := mdbDn2entry_name he
  rw [mdbDn2id_str] at hrc hid hname
  obtain ⟨rs, hrs, hm⟩ := descend_matched h.rep .root rfl hrc
  rw [hid] at hrs
  exact ⟨_, rs, hnamed, hrs, hnn, hname.trans hm⟩

/-- The two ways of `mdb_search` agree: both come to an end, neither examines an entry twice, and they examine the same
entries under the same DNs. -/
def StrategiesAgree (s : Tables) (base : DnEntry) (scope : Scope) (candidates : IDL) : Prop :=
  ∃ (F : Nat) (walk climb : List DnEntry),
    (∀ fuel nsubs ncand, F ≤ fuel → nsubs < ncand → mdbSearchLoop fuel s base scope candidates nsubs ncand = .ok walk) ∧
    (∀ fuel nsubs ncand, ncand ≤ nsubs → mdbSearchLoop fuel s base scope candidates nsubs ncand = .ok climb) ∧
    (walk.map DnEntry.id).Nodup ∧ (climb.map DnEntry.id).Nodup ∧ ∀ e, e ∈ walk ↔ e ∈ climb

theorem mdbSearchLoop_walk {fuel ncand : Nat} (hz : candidates.isZero = false) (hlt : nsubs < ncand) :
    mdbSearchLoop fuel s base scope candidates nsubs ncand =
      walkLoop s base scope candidates fuel fuel (walkFirst s.dn2id scope fuel base.id) := by
  unfold mdbSearchLoop
  rw [if_neg (by simp [hz]), if_pos hlt]

theorem mdbSearchLoop_climb {fuel ncand : Nat} (hz : candidates.isZero = false) (hle : ncand ≤ nsubs) :
    mdbSearchLoop fuel s base scope candidates nsubs ncand = candidateLoop s base scope candidates := by
  unfold mdbSearchLoop
  rw [if_neg (by simp [hz]), if_neg (by omega)]

theorem entryAt_id {ps : List (Nat × Node)} (hup : Up nodes base.id x ps) : (entryAt base x ps).id = x := by
  cases hup with
  | refl => rfl
  | step _ _ => rfl

theorem Setting.lost_contributes (h : Setting s started nodes base) (hd : scope.Deep) {cands : Set Nat}
    (hlost : Lost nodes.parent s.id2entry.toFinset base.id cands x) :
    ∃ ps, Up nodes base.id x ps ∧ scope.Allows ps := by
  obtain ⟨_, _, _, _, _, a, _, hbet, _⟩ := hlost
  obtain ⟨hax, hab, hr, hrb⟩ := hbet
  obtain ⟨ps, hup⟩ := Up.of_reaches (hr.trans hrb)
  refine ⟨ps, hup, ?_⟩
  cases hd with
  | inl hs => exact hs ▸ trivial
  | inr hs =>
    rw [hs]
    intro hnil
    rw [hnil] at hup
    rw [hup.nil_inv] at hr
    exact hab (h.tree.acyclic _ _ hrb hr)

theorem Setting.of_agree (h : Setting s started nodes base) (hrec : ∃ o ∈ s.dn2id base.id, o.child = false)
    (hv : candidates.Valid) (hagree : StrategiesAgree s base scope candidates) (hd : scope.Deep)
    (hx : x ∈ candidates.denote) : ¬ Lost nodes.parent s.id2entry.toFinset base.id candidates.denote x ∧
      ¬ Overlong s nodes base candidates.denote x := by
  have hz : candidates.isZero = false := by
    cases candidates with
    | range lo hi => rfl
    | list ids =>
      cases ids with
      | nil => cases hx
      | cons _ _ => rfl
  obtain ⟨o, ho, hoc⟩ := hrec
  obtain ⟨ns, -, hns, -⟩ := h.base
  obtain ⟨F, walk, hwalk, -, hwmem⟩ := walkLoop_spec h.tree h.depth h.noid ho hoc hns hv scope
  obtain ⟨F', walk', climb, hwalk', hclimb, -, -, hsame⟩ := hagree
  have heq : walk = walk' := by
    have h₁ := hwalk' (max F F') 0 1 (le_max_right F F') Nat.one_pos
    rw [mdbSearchLoop_walk hz Nat.one_pos, hwalk _ (le_max_left F F')] at h₁
    exact Except.ok.inj h₁
  have hloop : candidateLoop s base scope candidates = .ok climb := by
    rw [← hclimb 0 0 0 (le_refl 0), mdbSearchLoop_climb hz (le_refl 0)]
  cases h.candidateLoop_spec hv scope with
  | inl hfails =>
    obtain ⟨-, rc, hrc⟩ := hfails
    rw [hloop] at hrc
    cases hrc
  | inr hends =>
    obtain ⟨hshort, out, hout, -, hmem⟩ := hends
    rw [hloop] at hout
    cases hout
    refine ⟨?_, hshort hd x hx⟩
    intro hlost
    obtain ⟨ps, hup, hallow⟩ := h.lost_contributes hd hlost
    have hw : entryAt base x ps ∈ walk := (hwmem _).mpr ⟨x, ps, hup, hallow, hx, rfl⟩
    rw [heq] at hw
    obtain ⟨y, -, qs, hqs, -, hnl, he⟩ := (hmem _).mp ((hsame _).mp hw)
    have hid := congrArg DnEntry.id he
    rw [entryAt_id hup, entryAt_id hqs] at hid
    exact hnl hd (hid ▸ hlost)

/-- The two ways agree exactly if no candidate is lost by the climb, and `mdb_id2name` has room for the DN of each
candidate that was a superior of one before it. -/
theorem search_strategies_agree (h : Setting s started nodes base) (hrec : ∃ o ∈ s.dn2id base.id, o.child = false)
    (hv : candidates.Valid) (scope : Scope) :
    StrategiesAgree s base scope candidates ↔
      (scope.Deep → ∀ x ∈ candidates.denote,
        ¬ Lost nodes.parent s.id2entry.toFinset base.id candidates.denote x ∧
        ¬ Overlong s nodes base candidates.denote x) := by
  constructor
  · intro hagree hd x hx
    exact h.of_agree hrec hv hagree hd hx
  · intro hcond
    cases hz : candidates.isZero with
    | true =>
      have hzero : ∀ fuel nsubs ncand, mdbSearchLoop fuel s base scope candidates nsubs ncand = .ok [] := by
        intro fuel nsubs ncand
        unfold mdbSearchLoop
        rw [if_pos hz]
      exact ⟨0, [], [], fun fuel nsubs ncand _ _ => hzero fuel nsubs ncand, fun fuel nsubs ncand _ => hzero fuel nsubs ncand,
        nodup_nil, nodup_nil, fun _ => Iff.rfl⟩
    | false =>
      obtain ⟨o, ho, hoc⟩ := hrec
      obtain ⟨ns, -, hns, -⟩ := h.base
      obtain ⟨F, walk, hwalk, hwnd, hwmem⟩ := walkLoop_spec h.tree h.depth h.noid ho hoc hns hv scope
      cases h.candidateLoop_spec hv scope with
      | inl hfails =>
        obtain ⟨⟨hd, x, hx, hlong⟩, -⟩ := hfails
        exact absurd hlong (hcond hd x hx).2
      | inr hends =>
        obtain ⟨-, climb, hloop, hcnd, hmem⟩ := hends
        refine ⟨F, walk, climb, ?_, ?_, hwnd, hcnd.imp fun hab => hab.ne, ?_⟩
        · intro fuel nsubs ncand hfuel hlt
          rw [mdbSearchLoop_walk hz hlt, hwalk fuel hfuel]
        · intro fuel nsubs ncand hle
          rw [mdbSearchLoop_climb hz hle, hloop]
        · intro e
          rw [hwmem, hmem]
          constructor
          · intro ⟨x, ps, hup, hallow, hx, he⟩
            exact ⟨x, hx, ps, hup, hallow, fun hd => (hcond hd x hx).1, he⟩
          · intro ⟨x, hx, ps, hup, hallow, _, he⟩
            exact ⟨x, ps, hup, hallow, hx, he⟩

end

def decimal (x : Nat) : List Byte := (Nat.digits 10 x).map fun d => Fin.ofNat 256 (48 + d)

variable {x : Nat}

theorem decimal_inj {y : Nat} (h : decimal x = decimal y) : x = y := by
  have hdigits : ∀ x, (decimal x).map (fun b => b.val - 48) = Nat.digits 10 x := by
    intro x
    unfold decimal
    rw [List.map_map]
    refine (map_congr_left ?_).trans (List.map_id _)
    intro d hd
    have hlt : d < 10 := Nat.digits_lt_base (by decide) hd
    have hmod : (48 + d) % 256 = 48 + d := Nat.mod_eq_of_lt (by omega)
    simp [hmod]
  have hd := congrArg (List.map fun b : Byte => b.val - 48) h
  rw [hdigits, hdigits] at hd
  exact Nat.digits_inj_iff.mp hd

theorem decimal_ne_nil (h : x ≠ 0) : decimal x ≠ [] := by
  unfold decimal
  simp [Nat.digits_ne_nil_iff_ne_zero, h]

/-- `1` is the base. `2, …, M - 1` and `M + 1` are directly below it, and `M` is below `M + 1`. Each `x` of `2, …, M - 1` has
the child `M + x`, and `M` has the children `2 * M` and `2 * M + 1`. -/
def crowded (M x : Nat) : Option Nat :=
  if x = 0 ∨ 2 * M + 1 < x then none
  else if x = 1 then some 0
  else if x < M ∨ x = M + 1 then some 1
  else if x = M then some (M + 1)
  else if x < 2 * M then some (x - M)
  else some M

section

variable {M : Nat}

theorem crowded_zero : crowded M 0 = none := by simp [crowded]

theorem crowded_base (hM : 3 ≤ M) : crowded M 1 = some 0 := by
  unfold crowded
  rw [if_neg (by omega), if_pos rfl]

variable {x a : Nat}

theorem crowded_inner (hx : 2 ≤ x) (hM : x < M ∨ x = M + 1) : crowded M x = some 1 := by
  unfold crowded
  rw [if_neg (by omega), if_neg (by omega), if_pos hM]

theorem crowded_deep (hM : 3 ≤ M) : crowded M M = some (M + 1) := by
  unfold crowded
  rw [if_neg (by omega), if_neg (by omega), if_neg (by omega), if_pos rfl]

theorem crowded_leaf (hx : M + 2 ≤ x) (hM : x < 2 * M) : crowded M x = some (x - M) := by
  unfold crowded
  rw [if_neg (by omega), if_neg (by omega), if_neg (by omega), if_neg (by omega), if_pos hM]

theorem crowded_last (hM : 3 ≤ M) (hx : 2 * M ≤ x) (hx' : x ≤ 2 * M + 1) : crowded M x = some M := by
  unfold crowded
  rw [if_neg (by omega), if_neg (by omega), if_neg (by omega), if_neg (by omega), if_neg (by omega)]

theorem crowded_ne_none : crowded M x ≠ none ↔ 1 ≤ x ∧ x < 2 * M + 2 := by
  unfold crowded
  split_ifs with h <;> simp <;> omega

theorem reaches_base (hM : 3 ≤ M) : Reaches (crowded M) 1 a ↔ a = 1 ∨ a = 0 := by
  rw [reaches_of_parent (crowded_base hM), reaches_of_parent_none crowded_zero]

theorem reaches_inner (hM : 3 ≤ M) (hx : 2 ≤ x) (hxM : x < M ∨ x = M + 1) : Reaches (crowded M) x a ↔ a = x ∨ a = 1 ∨ a = 0 := by
  rw [reaches_of_parent (crowded_inner hx hxM), reaches_base hM]

theorem reaches_deep (hM : 3 ≤ M) : Reaches (crowded M) M a ↔ a = M ∨ a = M + 1 ∨ a = 1 ∨ a = 0 := by
  rw [reaches_of_parent (crowded_deep hM), reaches_inner hM (by omega) (.inr rfl)]

theorem reaches_leaf (hM : 3 ≤ M) (hx : M + 2 ≤ x) (hxM : x < 2 * M) :
    Reaches (crowded M) x a ↔ a = x ∨ a = x - M ∨ a = 1 ∨ a = 0 := by
  rw [reaches_of_parent (crowded_leaf hx hxM), reaches_inner hM (by omega) (by omega)]

theorem reaches_last (hM : 3 ≤ M) (hx : 2 * M ≤ x) (hx' : x ≤ 2 * M + 1) :
    Reaches (crowded M) x a ↔ a = x ∨ a = M ∨ a = M + 1 ∨ a = 1 ∨ a = 0 := by
  rw [reaches_of_parent (crowded_last hM hx hx'), reaches_deep hM]

theorem crowded_rooted (hM : 3 ≤ M) (hx : 1 ≤ x) (hx' : x < 2 * M + 2) : Reaches (crowded M) x 0 := by
  rcases Nat.lt_or_ge x 2 with h | h
  · have hx1 : x = 1 := by omega
    rw [hx1, reaches_base hM]
    exact .inr rfl
  · by_cases hin : x < M ∨ x = M + 1
    · exact (reaches_inner hM h hin).mpr (.inr (.inr rfl))
    · by_cases hd : x = M
      · rw [hd]
        exact (reaches_deep hM).mpr (.inr (.inr (.inr rfl)))
      · by_cases hl : x < 2 * M
        · exact (reaches_leaf hM (by omega) hl).mpr (.inr (.inr (.inr rfl)))
        · exact (reaches_last hM (by omega) (by omega)).mpr (.inr (.inr (.inr (.inr rfl))))

theorem between_leaf (hM : 3 ≤ M) (hx : M + 2 ≤ x) (hxM : x < 2 * M) : Between (crowded M) 1 x a ↔ a = x - M := by
  unfold Between
  rw [reaches_leaf hM hx hxM]
  constructor
  · intro ⟨hax, ha1, hr, hr1⟩
    rcases hr with hr | hr | hr | hr
    · exact absurd hr hax
    · exact hr
    · exact absurd hr ha1
    · rw [hr, reaches_of_parent_none crowded_zero] at hr1
      omega
  · intro ha
    refine ⟨by omega, by omega, .inr (.inl ha), ?_⟩
    exact (reaches_inner hM (by omega) (by omega)).mpr (.inr (.inl rfl))

theorem between_last (hM : 3 ≤ M) (hx : 2 * M ≤ x) (hx' : x ≤ 2 * M + 1) : Between (crowded M) 1 x a ↔ a = M ∨ a = M + 1 := by
  unfold Between
  rw [reaches_last hM hx hx']
  constructor
  · intro ⟨hax, ha1, hr, hr1⟩
    rcases hr with hr | hr | hr | hr | hr
    · exact absurd hr hax
    · exact .inl hr
    · exact .inr hr
    · exact absurd hr ha1
    · rw [hr, reaches_of_parent_none crowded_zero] at hr1
      omega
  · intro ha
    cases ha with
    | inl ha =>
      rw [ha]
      exact ⟨by omega, by omega, .inr (.inl rfl), (reaches_deep hM).mpr (.inr (.inr (.inl rfl)))⟩
    | inr ha =>
      rw [ha]
      exact ⟨by omega, by omega, .inr (.inr (.inl rfl)), (reaches_inner hM (by omega) (.inr rfl)).mpr (.inr (.inl rfl))⟩

theorem seen_crowded (hM : 3 ≤ M) : Seen (crowded M) 1 (Set.Icc (M + 2) (2 * M + 1)) (2 * M) a ↔ 2 ≤ a ∧ a < M := by
  constructor
  · intro ⟨c, hc, hlt, hbet⟩
    have hle : M + 2 ≤ c := hc.1
    have ha := (between_leaf hM hle hlt).mp hbet
    omega
  · intro ⟨ha, haM⟩
    refine ⟨a + M, ⟨by omega, by omega⟩, by omega, ?_⟩
    exact (between_leaf hM (by omega) (by omega)).mpr (by omega)

theorem keptCount_crowded {N : Finset Nat} {b : Nat} (hM : 3 ≤ M) (hb : b = M ∨ b = M + 1)
    (hN : ∀ x, 2 ≤ x → x ≤ M + 1 → x ∈ N) :
    keptCount (crowded M) N 1 (Set.Icc (M + 2) (2 * M + 1)) (2 * M) b = b - 1 := by
  classical
  unfold keptCount
  have hset : (N.filter fun x => Seen (crowded M) 1 (Set.Icc (M + 2) (2 * M + 1)) (2 * M) x ∨
      (Between (crowded M) 1 (2 * M) x ∧ x ≤ b)) = Finset.Icc 2 b := by
    ext x
    rw [Finset.mem_filter, Finset.mem_Icc, seen_crowded hM, between_last hM (le_refl _) (by omega)]
    constructor
    · intro ⟨_, hx⟩
      omega
    · intro ⟨hx, hxb⟩
      exact ⟨hN x hx (by omega), by omega⟩
  rw [hset, Nat.card_Icc]
  omega

theorem seenCount_crowded {N : Finset Nat} {t : Nat} (hM : 3 ≤ M) (ht : t ≤ 2 * M) :
    seenCount (crowded M) N 1 (Set.Icc (M + 2) (2 * M + 1)) t ≤ M - 1 := by
  classical
  have hsub : (N.filter fun x => Seen (crowded M) 1 (Set.Icc (M + 2) (2 * M + 1)) t x) ⊆ Finset.Ico 2 M := by
    intro x hx
    obtain ⟨-, c, hc, hct, hbet⟩ := Finset.mem_filter.mp hx
    exact Finset.mem_Ico.mpr ((seen_crowded hM).mp ⟨c, hc, by omega, hbet⟩)
  have hcard := Finset.card_le_card hsub
  rw [Nat.card_Ico] at hcard
  unfold seenCount
  omega

theorem lost_crowded {N : Finset Nat} (hMM : M = MDB_IDL_UM_MAX) (hM : 3 ≤ M) (hN : ∀ x, 2 ≤ x → x ≤ M + 1 → x ∈ N) :
    Lost (crowded M) N 1 (Set.Icc (M + 2) (2 * M + 1)) (2 * M + 1) := by
  have hroom := @seenCount_crowded M N (2 * M) hM (le_refl _)
  have hdeep : Between (crowded M) 1 (2 * M) M := (between_last hM (le_refl _) (by omega)).mpr (.inl rfl)
  refine ⟨2 * M, ⟨by omega, by omega⟩, by omega, by omega, ?_, M, M + 1,
    (between_last hM (by omega) (le_refl _)).mpr (.inl rfl), crowded_deep hM, by omega, .inr ⟨hdeep, ?_⟩, ?_⟩
  · intro hk
    cases hk with
    | inl hk =>
      have := (seen_crowded hM).mp hk
      omega
    | inr hk =>
      have := (between_last hM (le_refl _) (by omega)).mp hk.1
      omega
  · rw [keptCount_crowded hM (.inl rfl) hN]
    omega
  · intro hk
    cases hk with
    | inl hk =>
      have := (seen_crowded hM).mp hk
      omega
    | inr hk =>
      have hcount := hk.2
      rw [keptCount_crowded hM (.inr rfl) hN] at hcount
      omega

def crowdedDepth (M x : Nat) : Nat :=
  if x = 0 then 0 else if x = 1 then 1 else if x < M ∨ x = M + 1 then 2 else if x < 2 * M then 3 else 4

theorem crowdedDepth_parent {p : Nat} (hM : 3 ≤ M) (hp : crowded M x = some p) :
    crowdedDepth M p < crowdedDepth M x ∧ crowdedDepth M x ≤ 4 := by
  unfold crowded at hp
  split_ifs at hp with h₁ h₂ h₃ h₄ h₅ <;> cases hp <;> unfold crowdedDepth <;> split_ifs <;> omega

end

theorem exists_crowded {M : Nat} (hM : 3 ≤ M) (hno : 2 * M + 2 < NOID) :
    ∃ s : Tables, s.id2entry = List.range' 1 (2 * M + 1) ∧
      Setting s true (nodesOf (crowded M) decimal s.id2entry.toFinset) ⟨1, decimal 1, decimal 1⟩ ∧
      ∃ o ∈ s.dn2id 1, o.child = false := by
  have hmem : ∀ x, x ∈ List.range' 1 (2 * M + 1) ↔ 1 ≤ x ∧ x < 2 * M + 2 := by
    intro x
    rw [mem_range'_1]
    omega
  obtain ⟨s, hs, htree⟩ := @exists_tree (crowded M) decimal (List.range' 1 (2 * M + 1))
    pairwise_lt_range' (fun x => (hmem x).trans crowded_ne_none.symm) (by
      intro x hx
      obtain ⟨h1, h2⟩ := (hmem x).mp hx
      unfold NOID at hno
      omega) (by
      intro x hx
      obtain ⟨h1, h2⟩ := (hmem x).mp hx
      exact crowded_rooted hM h1 h2) fun _ _ _ _ h => decimal_inj h
  have hnode : nodesOf (crowded M) decimal (List.range' 1 (2 * M + 1)).toFinset 1 =
      some ⟨0, decimal 1, decimal 1, size (crowded M) (List.range' 1 (2 * M + 1)).toFinset 1⟩ :=
    nodesOf_eq_some.mpr ⟨0, crowded_base hM, rfl⟩
  refine ⟨s, hs, ?_, _, (htree.rep.mem 1 _).mpr (.own hnode), rfl⟩
  rw [hs]
  refine ⟨htree, ?_, ?_, ?_, ?_⟩
  · intro x hx
    rw [hs] at hx
    have := (hmem x).mp hx
    omega
  · intro x ns hns
    have hdepth : ns.length ≤ crowdedDepth M x ∧ crowdedDepth M x ≤ 4 := by
      induction hns with
      | root => exact ⟨Nat.zero_le _, by simp [crowdedDepth]⟩
      | node hv _ ih =>
        obtain ⟨p, hp, rfl⟩ := nodesOf_eq_some.mp hv
        have hd := crowdedDepth_parent hM hp
        simp only [length_cons] at ih ⊢
        omega
    have hmax : 4 ≤ MAXRDNS := by decide
    omega
  · intro x v hv
    obtain ⟨p, hp, rfl⟩ := nodesOf_eq_some.mp hv
    have hx : x ≠ 0 := by
      intro hx
      rw [hx, crowded_zero] at hp
      cases hp
    exact ⟨decimal_ne_nil hx, decimal_ne_nil hx⟩
  · exact ⟨[decimal 1], [decimal 1], .node hnode .root, .node hnode .root, rfl, rfl⟩

theorem crowded_childless {M : Nat} (hx : M + 2 ≤ x) (c : Nat) : crowded M c ≠ some x := by
  unfold crowded
  split_ifs <;> simp <;> omega

theorem not_overlong {s : Tables} {nodes : Nodes} {base : DnEntry} {cands : Set Nat}
    (hleaf : ∀ c, nodes.parent c ≠ some x) : ¬ Overlong s nodes base cands x := by
  intro ⟨hrem, _⟩
  obtain ⟨c, hne, -, hr, -⟩ := hrem.between
  exact hne (Reaches.eq_of_no_child hleaf hr).symm

/-- In a small directory they agree on the leaves. -/
theorem search_strategies_agree_leaves :
    ∃ s : Tables, s.id2entry = [1, 2, 3, 4, 5, 6, 7] ∧
      StrategiesAgree s ⟨1, decimal 1, decimal 1⟩ .subtree (.list [5, 6, 7]) := by
  obtain ⟨s, hs, hset, hrec⟩ := @exists_crowded 3 (le_refl 3) (by decide)
  have hv : (IDL.list [5, 6, 7]).Valid := ⟨by simp [DupSort.SortedBy], by decide, by decide⟩
  refine ⟨s, hs, (search_strategies_agree hset hrec hv .subtree).mpr ?_⟩
  intro _ x hx
  refine ⟨not_lost ?_ ?_, not_overlong fun c hc => ?_⟩
  · exact hset.tree.acyclic
  · classical
    refine lt_of_le_of_lt (Finset.card_filter_le _ _) ?_
    rw [hs]
    decide
  · rw [nodesOf_parent] at hc
    have hx' : 5 ≤ x := by
      rcases List.mem_cons.mp hx with h | h
      · omega
      · rcases List.mem_cons.mp h with h | h
        · omega
        · have := List.mem_singleton.mp h
          omega
    exact crowded_childless hx' c hc

/-- With one superior more than the cache takes, the walk examines `2 * M + 1` and the climb does not. -/
theorem search_strategies_differ :
    ∃ s : Tables, s.id2entry = List.range' 1 (2 * MDB_IDL_UM_MAX + 1) ∧
      Setting s true (nodesOf (crowded MDB_IDL_UM_MAX) decimal s.id2entry.toFinset) ⟨1, decimal 1, decimal 1⟩ ∧
      (∃ o ∈ s.dn2id 1, o.child = false) ∧
      (IDL.range (MDB_IDL_UM_MAX + 2) (2 * MDB_IDL_UM_MAX + 1)).Valid ∧
      ¬ StrategiesAgree s ⟨1, decimal 1, decimal 1⟩ .subtree
        (.range (MDB_IDL_UM_MAX + 2) (2 * MDB_IDL_UM_MAX + 1)) := by
  have hM : 3 ≤ MDB_IDL_UM_MAX := by decide
  have hno : 2 * MDB_IDL_UM_MAX + 2 < NOID := by decide
  obtain ⟨M, hMM⟩ : ∃ M, M = MDB_IDL_UM_MAX := ⟨_, rfl⟩
  rw [← hMM] at hM hno ⊢
  obtain ⟨s, hs, hset, hrec⟩ := exists_crowded hM hno
  have hv : (IDL.range (M + 2) (2 * M + 1)).Valid := ⟨by omega, by omega⟩
  refine ⟨s, hs, hset, hrec, hv, ?_⟩
  intro hagree
  have hx : 2 * M + 1 ∈ (IDL.range (M + 2) (2 * M + 1)).denote := ⟨by omega, le_refl _⟩
  refine (hset.of_agree hrec hv hagree (.inl rfl) hx).1 ?_
  rw [nodesOf_parent]
  refine lost_crowded hMM hM ?_
  intro x hx1 hx2
  rw [hs, List.mem_toFinset, mem_range'_1]
  omega

/-! ## The walk alone -/

/-- The calls of `mdb_dn2id_walk` return the entries in scope, each once, with the RDNs on the way to it. -/
def WalkEnumerates (s : Tables) (nodes : Nodes) (oscope : Scope) (id : Nat) (numrdns : List (Nat × Node) → Nat) : Prop :=
  ∃ (F : Nat) (out : List (Nat × Nat × List DiskNode)), (∀ fuel, F ≤ fuel →
      walkCalls s.dn2id oscope fuel fuel (walkFirst s.dn2id oscope fuel id) = (out, .notfound)) ∧
    (out.map fun a => a.2.1).Nodup ∧
    (∀ x, x ∈ out.map (fun a => a.2.1) ↔ (id = 0 ∨ nodes id ≠ none) ∧ ∃ ps, Up nodes id x ps ∧ oscope.Allows ps) ∧
    ∀ a ∈ out, ∃ ps, Up nodes id a.2.1 ps ∧ a.2.2 = ps.map childRecord ∧ a.1 = numrdns ps

/-- From an ID without an entry nothing is returned. -/
theorem walkCalls_absent {s : Tables} {started : Bool} {nodes : Nodes} (h : TreeInv s started nodes) {id : Nat} (hid : nodes id = none)
    (h0 : id ≠ 0) (oscope : Scope) {fuel : Nat} (hfuel : 2 ≤ fuel) :
    walkCalls s.dn2id oscope fuel fuel (walkFirst s.dn2id oscope fuel id) = ([], .notfound) := by
  obtain ⟨fuel, rfl⟩ := Nat.exists_eq_add_of_le' hfuel
  cases oscope <;> simp [walkFirst, walkCalls, walkRounds, walkStep, h.set_absent hid h0, h.no_records hid h0, Except.map]

theorem dn2id_walk_enumerates {s : Tables} {started : Bool} {nodes : Nodes} (h : TreeInv s started nodes)
    (hdepth : ∀ x ns, Named nodes x ns → ns.length ≤ MAXRDNS) {id : Nat} (hroot : id = 0 → started = true) (oscope : Scope) :
    WalkEnumerates s nodes oscope id fun ps => max 1 ps.length := by
  by_cases hid : id = 0 ∨ nodes id ≠ none
  · obtain ⟨o, ns, ho, hoc, hk⟩ : ∃ o ns, o ∈ s.dn2id id ∧ o.child = false ∧ Named nodes id ns := by
      rcases hid with rfl | hne
      · exact ⟨dummyRoot, [], (h.rep.mem 0 _).mpr (.root rfl (hroot rfl)), rfl, .root⟩
      · obtain ⟨v, hv⟩ := Option.ne_none_iff_exists'.mp hne
        obtain ⟨ns, hns⟩ := h.named (h.mem_of_node hv)
        exact ⟨v.own, ns, (h.rep.mem id _).mpr (.own hv), rfl, hns⟩
    obtain ⟨F, out, hcalls, hnd, hout⟩ := walkCalls_spec h hdepth ho hoc hk oscope
    have hids : (out.map walkAnswer).map (fun a => a.2.1) = out.map Prod.fst := by rw [List.map_map]; rfl
    refine ⟨F, out.map walkAnswer, hcalls, hids ▸ hnd, fun x => ?_, fun a ha => ?_⟩
    · rw [hids, and_iff_right hid, List.mem_map]
      constructor
      · rintro ⟨⟨x, rs⟩, hp, rfl⟩
        obtain ⟨ps, hup, hallow, -⟩ := (hout x rs).mp hp
        exact ⟨ps, hup, hallow⟩
      · rintro ⟨ps, hup, hallow⟩
        exact ⟨(x, ps.map childRecord), (hout x _).mpr ⟨ps, hup, hallow, rfl⟩, rfl⟩
    · obtain ⟨⟨x, rs⟩, hp, rfl⟩ := List.mem_map.mp ha
      obtain ⟨ps, hup, -, rfl⟩ := (hout x rs).mp hp
      exact ⟨ps, hup, rfl, by simp [walkAnswer]⟩
  · obtain ⟨h0, hnone⟩ := not_or.mp hid
    exact ⟨2, [], fun fuel hfuel => walkCalls_absent h (not_not.mp hnone) h0 oscope hfuel, by simp, by simp [hid], by simp⟩

theorem dn2id_walk_enumerates_seven : ∃ (s : Tables) (nodes : Nodes), s.id2entry = [1, 2, 3, 4, 5, 6, 7] ∧
    WalkEnumerates s nodes .children 1 fun ps => max 1 ps.length := by
  obtain ⟨s, hs, hset, -⟩ := @exists_crowded 3 (le_refl 3) (by decide)
  exact ⟨s, _, hs, dn2id_walk_enumerates hset.tree hset.depth (by decide) .children⟩

/-- At the base `numrdns` is 1, and there is no RDN. -/
theorem dn2id_walk_counts_base : ∃ (s : Tables) (nodes : Nodes), TreeInv s true nodes ∧ s.id2entry = [1, 2, 3, 4, 5, 6, 7] ∧
    ¬ WalkEnumerates s nodes .base 1 List.length := by
  obtain ⟨s, hs, hset, o, ho, hoc⟩ := @exists_crowded 3 (le_refl 3) (by decide)
  refine ⟨s, _, hset.tree, hs, ?_⟩
  rintro ⟨F, out, hcalls, -, -, hpath⟩
  obtain ⟨ds, hdb, -⟩ := hset.tree.rep.tail ho hoc
  have hone := hcalls (F + 2) (by omega)
  simp only [walkFirst, walkCalls, walkNext, Dn2id.set, hdb, Except.map] at hone
  obtain ⟨ps, -, hrs, hnum⟩ := hpath (1, 1, []) (by simp [← (Prod.mk.inj hone).1])
  cases ps with
  | nil => cases hnum
  | cons p ps => cases hrs

end BackMdb
end ReOpenLDAP
