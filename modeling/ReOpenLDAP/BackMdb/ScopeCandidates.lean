import ReOpenLDAP.BackMdb.ScopeCache
import ReOpenLDAP.BackMdb.DnMap

/-!
# BackMdb.ScopeCandidates

One candidate in the loop of `mdb_search`, and what it leaves in the cache.

The cache takes `MDB_IDL_UM_MAX` entries, the base among them. The superiors of a candidate are added in the order of
their IDs until it is full, and then it may hold an entry without its parent. A later candidate below such an entry is
lost: its climb ends with `MDBX_NOTFOUND`.
-/

namespace ReOpenLDAP
namespace BackMdb

open Forest List

theorem assembleDn_eq {top : Bool} {l m : List (List Byte)} (hl : l ≠ []) (htop : top = true ↔ m = []) :
    assembleDn top l (joinRdns m) = joinRdns (l ++ m) := by
  have hcat : m ≠ [] → ∀ l : List (List Byte), l.flatMap (· ++ [comma]) ++ joinRdns m = joinRdns (l ++ m) := by
    intro hm l
    induction l with
    | nil => rfl
    | cons r l ih =>
      have hne : l ++ m ≠ [] := by simp [hm]
      rw [cons_append, joinRdns_cons, if_neg hne, ← ih]
      simp
  have hdrop : ∀ l : List (List Byte), l ≠ [] → (l.flatMap (· ++ [comma])).dropLast = joinRdns l := by
    intro l hl
    induction l with
    | nil => exact absurd rfl hl
    | cons r l ih =>
      cases l with
      | nil => simp [joinRdns]
      | cons r' l =>
        have hne : (r' :: l).flatMap (· ++ [comma]) ≠ [] := by simp
        rw [flatMap_cons, dropLast_append_of_ne_nil hne, ih (cons_ne_nil _ _)]
        simp [joinRdns]
  unfold assembleDn
  cases htt : top with
  | true =>
    rw [htop.mp htt, List.append_nil, if_pos rfl]
    exact hdrop l hl
  | false =>
    rw [if_neg (by simp)]
    refine hcat ?_ l
    intro hm
    rw [htop.mpr hm] at htt
    cases htt

variable {rs : List (List Byte)}

theorem joinRdns_eq_nil (hne : ∀ r ∈ rs, r ≠ []) : joinRdns rs = [] ↔ rs = [] := by
  cases rs with
  | nil => simp [joinRdns]
  | cons r rs =>
    have hr := hne r mem_cons_self
    rw [joinRdns_cons]
    split_ifs <;> simp [hr]

theorem Pretty.det {nodes : Nodes} (h0 : nodes 0 = none) {x : Nat} {rs' : List (List Byte)} (h : Pretty nodes x rs)
    (h' : Pretty nodes x rs') : rs = rs' := by
  induction h generalizing rs' with
  | root =>
    cases h' with
    | root => rfl
    | node hv _ =>
      rw [h0] at hv
      cases hv
  | node hv _ ih =>
    cases h' with
    | root =>
      rw [h0] at hv
      cases hv
    | node hv' hp' =>
      rw [hv] at hv'
      cases hv'
      rw [ih hp']

theorem Named.length_eq {nodes : Nodes} (h0 : nodes 0 = none) {x : Nat} {ns : List (List Byte)}
    (h : Named nodes x ns) (hp : Pretty nodes x rs) : ns.length = rs.length := by
  induction h generalizing rs with
  | root => rw [hp.det h0 .root]
  | node hv _ ih =>
    cases hp with
    | root =>
      rw [h0] at hv
      cases hv
    | node hv' hp =>
      rw [hv] at hv'
      cases hv'
      rw [length_cons, length_cons, ih hp]

/-- A search: a tree with exact counters, whose names fit the arrays of the code, and the base. -/
structure Setting (s : Tables) (started : Bool) (nodes : Nodes) (base : DnEntry) : Prop where
  tree : TreeInv s started nodes
  noid : ∀ x ∈ s.id2entry, x < NOID
  depth : ∀ x ns, Named nodes x ns → ns.length ≤ MAXRDNS
  names : ∀ x v, nodes x = some v → v.nrdn ≠ [] ∧ v.rdn ≠ []
  base : ∃ ns rs, Named nodes base.id ns ∧ Pretty nodes base.id rs ∧ base.nname = joinRdns ns ∧ base.name = joinRdns rs

section

variable {s : Tables} {started : Bool} {nodes : Nodes} {base : DnEntry} {scope : Scope} {scopes : List ID2}
variable {rs ns : List (List Byte)} {x id : Nat} {ps : List (Nat × Node)}

theorem Pretty.ne_nil (hn : ∀ x v, nodes x = some v → v.nrdn ≠ [] ∧ v.rdn ≠ []) (h : Pretty nodes x rs) : ∀ r ∈ rs, r ≠ [] := by
  induction h with
  | root => simp
  | node hv _ ih => exact List.forall_mem_cons.mpr ⟨(hn _ _ hv).2, ih⟩

theorem Named.ne_nil (hn : ∀ x v, nodes x = some v → v.nrdn ≠ [] ∧ v.rdn ≠ []) (h : Named nodes x ns) : ∀ n ∈ ns, n ≠ [] := by
  induction h with
  | root => simp
  | node hv _ ih => exact List.forall_mem_cons.mpr ⟨(hn _ _ hv).1, ih⟩

theorem Setting.entryAt_eq (h : Setting s started nodes base)
    (hup : Up nodes base.id x ps) (hns : Named nodes x ns) (hrs : Pretty nodes x rs) :
    entryAt base x ps = ⟨x, joinRdns ns, joinRdns rs⟩ := by
  obtain ⟨nb, rb, hnb, hrb, hnn, hn⟩ := h.base
  rw [hns.det h.tree.rep.root (hup.named hnb), hrs.det h.tree.rep.root (hup.pretty hrb)]
  unfold entryAt
  cases hup with
  | refl =>
    rw [if_pos rfl]
    simp only [map_nil, List.nil_append, ← hnn, ← hn]
  | @step _ v ps hv hup =>
    have hnil : base.name = [] ↔ rb = [] := by
      rw [hn]
      exact joinRdns_eq_nil (hrb.ne_nil h.names)
    have hnil' : rb = [] ↔ nb = [] := by
      rw [← length_eq_zero_iff, ← length_eq_zero_iff, hnb.length_eq h.tree.rep.root hrb]
    have hmap : ∀ l : List (Nat × Node), (l.map childRecord).map DiskNode.nrdn = l.map (fun p => p.2.nrdn) ∧
        (l.map childRecord).map DiskNode.rdn = l.map (fun p => p.2.rdn) := by
      intro l
      simp [childRecord, Node.child, Function.comp_def]
    rw [if_neg (cons_ne_nil _ _), childEntry, (hmap _).1, (hmap _).2]
    congr 1
    · conv_lhs => rw [hnn]
      exact assembleDn_eq (by simp) (by rw [decide_eq_true_iff, hnil, hnil'])
    · conv_lhs =>
        arg 3
        rw [hn]
      exact assembleDn_eq (by simp) (by rw [decide_eq_true_iff, hnil])

/-! ## One candidate -/

theorem candidateStep_eq {id : Nat} {isc : IdScopes} {top : ID2} (hid : id ≠ base.id) (hscope : scope ≠ .base)
    (hisc : mdbIdscopes s.dn2id scope scopes id = .ok isc) (hn : isc.nscope ≠ 0) (hmem : id ∈ s.id2entry)
    (htop : isc.scopes[isc.nscope - 1]? = some top) :
    candidateStep s base scope scopes id =
      if top.mid = base.id then .ok (isc.scopes, .examined (childEntry id isc.rdns base.name base.nname))
      else
        match mdbId2name s.dn2id top.mid with
        | .error rc => .error rc
        | .ok (pdn, pndn) => .ok (isc.scopes, .examined (childEntry id isc.rdns pdn pndn)) := by
  unfold candidateStep
  rw [if_neg hid, if_neg hscope, hisc]
  simp only [if_neg hn, if_neg (not_not.mpr hmem), htop] <;> rfl

theorem Setting.step_at (h : Setting s started nodes base) (hc : Cache nodes base.id scopes) (hscope : scope ≠ .base) {d : ID2}
    (hid : id ≠ base.id) (hd : id2lFind scopes id = some d) : nodes id ≠ none ∧ candidateStep s base scope scopes id =
      match mdbId2name s.dn2id id with
      | .error rc => .error rc
      | .ok (pdn, pndn) => .ok (scopes, .examined (childEntry id [] pdn pndn)) := by
  obtain ⟨hmem, hmid⟩ := (id2lFind_iff hc.increasing).mp hd
  obtain ⟨v, hv, -⟩ := hc.cached d hmem (hmid ▸ hid)
  rw [hmid] at hv
  have hisc : mdbIdscopes s.dn2id scope scopes id = .ok ⟨scopes, mdbId2lSearch scopes id, []⟩ := by
    unfold mdbIdscopes
    rw [hd]
  have hpos := (Search.search_spec hc.increasing.mids id).1
  have htop := getElem?_mdbId2lSearch hc.increasing hmem
  rw [hmid] at htop
  exact ⟨by simp [hv], by rw [candidateStep_eq hid hscope hisc (by unfold mdbId2lSearch; simp only; omega) (h.tree.mem_of_node hv) htop,
    hmid, if_neg hid]⟩

theorem Setting.step_cached (h : Setting s started nodes base) (hc : Cache nodes base.id scopes) (hscope : scope ≠ .base) {d : ID2} (hup : Up nodes base.id id ps) (hid : id ≠ base.id)
    (hd : id2lFind scopes id = some d)
    (hshort : ∀ ns rs, Named nodes id ns → Pretty nodes id rs → Short ns ∧ Short rs) :
    candidateStep s base scope scopes id = .ok (scopes, .examined (entryAt base id ps)) := by
  obtain ⟨hnode, hstep⟩ := h.step_at hc hscope hid hd
  obtain ⟨v, hv⟩ := Option.ne_none_iff_exists'.mp hnode
  obtain ⟨ns, hns⟩ := h.tree.named (h.tree.mem_of_node hv)
  obtain ⟨rs, hrs, -⟩ := hns.stored h.tree.rep
  have hname := (mdbId2name_iff h.tree.rep hns hrs (hns.length_le h.tree) (hns.ne_nil h.names)).mpr (hshort ns rs hns hrs)
  have hne : joinRdns rs ≠ [] := by
    intro hnil
    rw [joinRdns_eq_nil (hrs.ne_nil h.names)] at hnil
    rw [hnil] at hrs
    cases hrs
    exact h.tree.rep.ne_zero hv rfl
  rw [hstep, hname, h.entryAt_eq hup hns hrs]
  simp [childEntry, assembleDn, hne]

theorem Setting.step_overlong (h : Setting s started nodes base) (hc : Cache nodes base.id scopes) (hscope : scope ≠ .base) {d : ID2} (hid : id ≠ base.id) (hd : id2lFind scopes id = some d)
    (hns : Named nodes id ns) (hrs : Pretty nodes id rs) (hlong : ¬ (Short ns ∧ Short rs)) :
    ∃ rc, candidateStep s base scope scopes id = .error rc := by
  rw [(h.step_at hc hscope hid hd).2]
  cases hname : mdbId2name s.dn2id id with
  | error rc => exact ⟨rc, rfl⟩
  | ok out => exact absurd (mdbId2name_short h.tree.rep hns hrs (hns.ne_nil h.names) hname) hlong

theorem Cache.addChain {b : Nat} {chain : List ID2} (hc : Cache nodes b scopes) (hup : Up nodes b x ps) (hchain : IncreasingID2 chain)
    (hmem : ∀ e, e ∈ chain ↔ e ∈ (ps.takeWhile (fresh scopes)).map scopeOf) :
    Cache nodes b (addChain scopes chain) ∧
      (∀ e, e ∈ BackMdb.addChain scopes chain ↔ e ∈ scopes ∨
        (e ∈ chain ∧ scopes.length + (chain.filter fun d => d.mid ≤ e.mid).length ≤ MDB_IDL_UM_MAX)) ∧
      (scopes.length + chain.length ≤ MDB_IDL_UM_MAX ∨ (BackMdb.addChain scopes chain).length = MDB_IDL_UM_MAX) := by
  have hnew : ∀ d ∈ chain, ∀ e ∈ scopes, e.mid ≠ d.mid := by
    intro d hd
    obtain ⟨p, hp, rfl⟩ := List.mem_map.mp ((hmem d).mp hd)
    have hfresh := mem_takeWhile_imp hp
    exact (id2lFind_eq_none hc.increasing).mp (Option.isNone_iff_eq_none.mp hfresh)
  obtain ⟨hinc, hlen, hadd, hfit⟩ := addChain_spec hc.increasing hchain hnew hc.fits
  refine ⟨⟨hinc, (hadd _).mpr (.inl hc.hasBase), ?_, hlen⟩, hadd, hfit⟩
  intro d hd hb
  cases (hadd d).mp hd with
  | inl hd => exact hc.cached d hd hb
  | inr hd =>
    obtain ⟨p, hp, rfl⟩ := List.mem_map.mp ((hmem d).mp hd.1)
    obtain ⟨hpn, -, hr⟩ := hup.mem_reaches ((takeWhile_sublist _).subset hp)
    exact ⟨p.2, hpn, rfl, hr⟩

theorem Setting.step_below (h : Setting s started nodes base) (hc : Cache nodes base.id scopes) (hscope : scope ≠ .base)
    (hscope' : scope ≠ .onelevel) {v : Node} {rest : List (Nat × Node)}
    (hup : Up nodes base.id id ((id, v) :: rest)) (hnot : id2lFind scopes id = none) :
    ∃ chain, IncreasingID2 chain ∧ (∀ e, e ∈ chain ↔ e ∈ (rest.takeWhile (fresh scopes)).map scopeOf) ∧
      candidateStep s base scope scopes id =
        if (rest.dropWhile (fresh scopes)).all fun p => !fresh scopes p then
          .ok (addChain scopes chain, .examined (entryAt base id ((id, v) :: rest)))
        else .ok (scopes, .notfound) := by
  obtain ⟨nb, -, hnb, -⟩ := h.base
  have hlen : rest.length < MAXRDNS := by
    have hd := h.depth id _ (hup.named hnb)
    simp only [length_append, length_map, length_cons] at hd
    omega
  have hid : id ≠ base.id := h.tree.up_ne hup (cons_ne_nil _ _)
  obtain ⟨chain, hchain, hmem, hisc⟩ := mdbIdscopes_below h.tree hc hscope' hup hnot hlen
  refine ⟨chain, hchain, hmem, ?_⟩
  cases hup with
  | step hv hup =>
    if hall : (rest.dropWhile (fresh scopes)).all fun p => !fresh scopes p then
      rw [if_pos hall] at hisc ⊢
      obtain ⟨hcache, -⟩ := Cache.addChain hc hup hchain hmem
      have htop := getElem?_checkAgain hcache.increasing hcache.hasBase (mdbId2lSearch scopes base.id)
      have hpos := (Search.search_spec hc.increasing.mids base.id).1
      rw [candidateStep_eq hid hscope hisc (checkAgain_ne_zero hcache.increasing (by unfold mdbId2lSearch; omega))
        (h.tree.mem_of_node hv) htop, if_pos rfl, entryAt, if_neg (cons_ne_nil _ _)]
      simp [childEntry, childRecord, Node.child, Node.own, Function.comp_def]
    else
      rw [if_neg hall] at hisc ⊢
      unfold candidateStep
      rw [if_neg hid, if_neg hscope, hisc]

theorem Setting.step_outside (h : Setting s started nodes base) (hc : Cache nodes base.id scopes) (hscope : scope ≠ .base)
    (hscope' : scope ≠ .onelevel) (hid : id ≠ base.id) (hout : ¬ Reaches nodes.parent id base.id) :
    ∃ out, candidateStep s base scope scopes id = .ok (scopes, out) ∧ out.entries = [] := by
  unfold candidateStep
  rw [if_neg hid, if_neg hscope]
  cases hv : nodes id with
  | some v =>
    obtain ⟨ns, hns⟩ := h.tree.named (h.tree.mem_of_node hv)
    obtain ⟨rdns, hisc⟩ := mdbIdscopes_outside h.tree hc hscope' h.depth hns hout
    rw [hisc]
    exact ⟨.skipped, rfl, rfl⟩
  | none =>
    rw [mdbIdscopes_absent h.tree hc hv hid]
    if h0 : id = 0 then
      rw [if_pos h0]
      exact ⟨.skipped, rfl, rfl⟩
    else
      rw [if_neg h0]
      exact ⟨.notfound, rfl, rfl⟩

end

section

variable (parent : Nat → Option Nat) (N : Finset Nat) (base : Nat) (cands : Set Nat)

/-- `a` lies properly between `c` and the base. -/
def Between (c a : Nat) : Prop := a ≠ c ∧ a ≠ base ∧ Reaches parent c a ∧ Reaches parent a base

/-- The superiors of the candidates before `t`. -/
def Seen (t a : Nat) : Prop := ∃ c ∈ cands, c < t ∧ Between parent base c a

open Classical in
/-- How many superiors the candidates before `t` have. -/
noncomputable def seenCount (t : Nat) : Nat := (N.filter fun x => Seen parent base cands t x).card

open Classical in
/-- How many there are with those of `c` up to the ID `a`. -/
noncomputable def keptCount (c a : Nat) : Nat :=
  (N.filter fun x => Seen parent base cands c x ∨ (Between parent base c x ∧ x ≤ a)).card

/-- The superiors of the candidates before `c`, and of those of `c` the ones that there is room for. -/
def Kept (c a : Nat) : Prop :=
  Seen parent base cands c a ∨ (Between parent base c a ∧ keptCount parent N base cands c a < MDB_IDL_UM_MAX)

/-- After some candidate `c` the cache is full, `x` is not in it, and on the way from `x` to the base a superior is in the
cache whose own parent is not. -/
def Lost (x : Nat) : Prop :=
  ∃ c ∈ cands, c < x ∧ seenCount parent N base cands c < MDB_IDL_UM_MAX ∧ ¬ Kept parent N base cands c x ∧
    ∃ a b, Between parent base x a ∧ parent a = some b ∧ b ≠ base ∧
      Kept parent N base cands c a ∧ ¬ Kept parent N base cands c b

/-- `x` is in the cache when its turn comes. -/
def Remembered (x : Nat) : Prop :=
  ∃ c ∈ cands, c < x ∧ seenCount parent N base cands c < MDB_IDL_UM_MAX ∧ Kept parent N base cands c x

variable {parent N base cands}

section Sets

variable (hacyclic : ∀ x y, Reaches parent x y → Reaches parent y x → x = y)
include hacyclic

variable {a : Nat}

theorem Between.up {c b : Nat} (h : Between parent base c a) (hp : parent a = some b) (hb : b ≠ base) :
    Between parent base c b := by
  obtain ⟨hac, hab, hca, habase⟩ := h
  refine ⟨?_, hb, hca.trans (.head hp (.refl b)), ?_⟩
  · intro hbc
    exact hac (hacyclic a c (.head hp (hbc ▸ .refl b)) hca)
  · cases (reaches_of_parent hp).mp habase with
    | inl he => exact absurd he.symm hab
    | inr hr => exact hr

theorem Seen.up {t b : Nat} (h : Seen parent base cands t a) (hp : parent a = some b) (hb : b ≠ base) :
    Seen parent base cands t b := by
  obtain ⟨c, hc, hct, hbet⟩ := h
  exact ⟨c, hc, hct, hbet.up hacyclic hp hb⟩

theorem Seen.between {t x : Nat} (h : Seen parent base cands t x) (ha : Between parent base x a) :
    Seen parent base cands t a := by
  obtain ⟨c, hc, hct, hxc, -, hcx, -⟩ := h
  refine ⟨c, hc, hct, ?_, ha.2.1, hcx.trans ha.2.2.1, ha.2.2.2⟩
  intro hac
  exact hxc (hacyclic x c (hac ▸ ha.2.2.1) hcx)

end Sets

variable {t a c : Nat}

theorem Seen.mono {t' : Nat} (h : Seen parent base cands t a) (htt : t ≤ t') : Seen parent base cands t' a := by
  obtain ⟨c, hc, hct, hbet⟩ := h
  exact ⟨c, hc, hct.trans_le htt, hbet⟩

theorem seen_succ (hc : c ∈ cands) : Seen parent base cands (c + 1) a ↔ Seen parent base cands c a ∨ Between parent base c a := by
  constructor
  · intro ⟨c', hc', hlt, hbet⟩
    cases Nat.lt_or_eq_of_le (Nat.lt_succ_iff.mp hlt) with
    | inl hlt => exact .inl ⟨c', hc', hlt, hbet⟩
    | inr heq => exact .inr (heq ▸ hbet)
  · intro h
    cases h with
    | inl h => exact h.mono (Nat.le_succ c)
    | inr h => exact ⟨c, hc, Nat.lt_succ_self c, h⟩

theorem seenCount_mono {t t' : Nat} (htt : t ≤ t') : seenCount parent N base cands t ≤ seenCount parent N base cands t' := by
  classical
  refine Finset.card_le_card ?_
  intro x hx
  obtain ⟨hxN, hseen⟩ := Finset.mem_filter.mp hx
  exact Finset.mem_filter.mpr ⟨hxN, hseen.mono htt⟩

theorem seenCount_congr {t' : Nat} (h : ∀ x, Seen parent base cands t x ↔ Seen parent base cands t' x) :
    seenCount parent N base cands t = seenCount parent N base cands t' := by
  classical
  exact congrArg Finset.card (Finset.filter_congr fun x _ => h x)

theorem kept_iff (hc : c ∈ cands) (hct : c < t) (hroom : seenCount parent N base cands t < MDB_IDL_UM_MAX) :
    Kept parent N base cands c a ↔ Seen parent base cands (c + 1) a := by
  classical
  rw [seen_succ hc]
  unfold Kept
  have hle : keptCount parent N base cands c a ≤ seenCount parent N base cands t := by
    refine Finset.card_le_card ?_
    intro x hx
    obtain ⟨hxN, hx⟩ := Finset.mem_filter.mp hx
    refine Finset.mem_filter.mpr ⟨hxN, ?_⟩
    cases hx with
    | inl hseen => exact hseen.mono hct.le
    | inr hbet => exact ⟨c, hc, hct, hbet.1⟩
  constructor
  · intro h
    cases h with
    | inl h => exact .inl h
    | inr h => exact .inr h.1
  · intro h
    cases h with
    | inl h => exact .inl h
    | inr h => exact .inr ⟨h, hle.trans_lt hroom⟩

theorem not_lost (hacyclic : ∀ x y, Reaches parent x y → Reaches parent y x → x = y) {x : Nat}
    (hroom : seenCount parent N base cands x < MDB_IDL_UM_MAX) : ¬ Lost parent N base cands x := by
  intro ⟨c, hc, hcx, _, _, a, b, _, hp, hb, ha, hnb⟩
  rw [kept_iff hc hcx hroom] at ha hnb
  exact hnb (ha.up hacyclic hp hb)

theorem lost_iff (hacyclic : ∀ x y, Reaches parent x y → Reaches parent y x → x = y) {x : Nat} (hc : c ∈ cands)
    (hcx : c < x) (hroom : seenCount parent N base cands c < MDB_IDL_UM_MAX)
    (hfull : MDB_IDL_UM_MAX ≤ seenCount parent N base cands (c + 1)) :
    Lost parent N base cands x ↔ ¬ Kept parent N base cands c x ∧
      ∃ a b, Between parent base x a ∧ parent a = some b ∧ b ≠ base ∧
        Kept parent N base cands c a ∧ ¬ Kept parent N base cands c b := by
  constructor
  · intro ⟨c', hc', hcx', hroom', hx, a, b, hbet, hp, hb, ha, hnb⟩
    rcases Nat.lt_trichotomy c' c with hlt | heq | hgt
    · rw [kept_iff hc' hlt hroom] at ha hnb
      exact absurd (ha.up hacyclic hp hb) hnb
    · subst heq
      exact ⟨hx, a, b, hbet, hp, hb, ha, hnb⟩
    · have hle := @seenCount_mono parent N base cands (c + 1) c' hgt
      omega
  · intro ⟨hx, hrest⟩
    exact ⟨c, hc, hcx, hroom, hx, hrest⟩

end

/-! ## The cache between two candidates -/

section

variable {s : Tables} {started : Bool} {nodes : Nodes} {base : DnEntry} {scope : Scope} {scopes : List ID2}

theorem TreeInv.acyclic (h : TreeInv s started nodes) (x y : Nat) (hxy : Reaches nodes.parent x y)
    (hyx : Reaches nodes.parent y x) : x = y := by
  cases hp : nodes.parent x with
  | none => exact ((reaches_of_parent_none hp).mp hxy).symm
  | some p =>
    cases (reaches_of_parent hp).mp hxy with
    | inl he => exact he.symm
    | inr hr =>
      obtain ⟨v, hv, rfl⟩ := Nodes.parent_eq_some.mp hp
      exact absurd (hr.trans hyx) (h.not_reaches_node hv)

variable {rest ps : List (Nat × Node)} {v : Node} {b id x : Nat}

theorem TreeInv.between_iff (h : TreeInv s started nodes) {a : Nat}
    (hup : Up nodes b id ((id, v) :: rest)) : Between nodes.parent b id a ↔ ∃ p ∈ rest, p.1 = a := by
  constructor
  · intro ⟨hne, hb, hr, hrb⟩
    have hmem : ∀ {x : Nat} {ps : List (Nat × Node)}, Up nodes b x ps → Reaches nodes.parent x a → ∃ p ∈ ps, p.1 = a := by
      intro x ps hup hr
      induction hup with
      | refl => exact absurd (h.acyclic _ _ hrb hr) hb
      | @step x w ps hw _ ih =>
        cases (reaches_of_parent (Nodes.parent_eq_some.mpr ⟨w, hw, rfl⟩)).mp hr with
        | inl he => exact ⟨(x, w), mem_cons_self, he.symm⟩
        | inr hr =>
          obtain ⟨p, hp, hpa⟩ := ih hr
          exact ⟨p, mem_cons_of_mem _ hp, hpa⟩
    obtain ⟨p, hp, hpa⟩ := hmem hup hr
    cases List.mem_cons.mp hp with
    | inl hp =>
      rw [hp] at hpa
      exact absurd hpa.symm hne
    | inr hp => exact ⟨p, hp, hpa⟩
  · intro ⟨p, hp, hpa⟩
    have hmem := mem_cons_of_mem (id, v) hp
    obtain ⟨-, hr, hrb⟩ := hup.mem_reaches hmem
    rw [← hpa]
    exact ⟨h.up_tail_ne hup hp, h.up_base_ne hup hmem, hr, hrb⟩

theorem TreeInv.between_mem (h : TreeInv s started nodes) {c a : Nat} (ha : Between nodes.parent b c a) : a ∈ s.id2entry := by
  obtain ⟨-, hb, -, hr⟩ := ha
  cases hp : nodes.parent a with
  | none => exact absurd ((reaches_of_parent_none hp).mp hr).symm hb
  | some p =>
    obtain ⟨v, hv, -⟩ := Nodes.parent_eq_some.mp hp
    exact h.mem_of_node hv

theorem TreeInv.intact_iff (h : TreeInv s started nodes) {y : Nat} (hup : Up nodes b y ps) :
    ((ps.dropWhile (fresh scopes)).all fun p => !fresh scopes p) = true ↔
      ∀ p ∈ ps, ∀ q ∈ ps, fresh scopes p = false → p.2.parent = q.1 → fresh scopes q = false := by
  have hall : ∀ {x : Nat} {p : Nat × Node} {qs : List (Nat × Node)}, Up nodes b x (p :: qs) → fresh scopes p = false →
      (∀ a ∈ p :: qs, ∀ q ∈ p :: qs, fresh scopes a = false → a.2.parent = q.1 → fresh scopes q = false) →
      ∀ q ∈ qs, fresh scopes q = false := by
    intro x p qs hup hp hclosed
    induction qs generalizing x p with
    | nil => simp
    | cons q qs ih =>
      cases hup with
      | @step _ v _ hv hup =>
        have hq : v.parent = q.1 := by
          cases hup
          rfl
        have hfq := hclosed (x, v) mem_cons_self q (mem_cons_of_mem _ mem_cons_self) hp hq
        refine List.forall_mem_cons.mpr ⟨hfq, ih hup hfq ?_⟩
        intro a ha c hc
        exact hclosed a (mem_cons_of_mem _ ha) c (mem_cons_of_mem _ hc)
  induction hup with
  | refl => simp
  | @step x v ps hv hup ih =>
    cases hf : fresh scopes (x, v) with
    | true =>
      rw [dropWhile_cons_of_pos hf]
      refine ih.trans ?_
      constructor
      · intro hclosed p hp q hq hfp hpq
        cases List.mem_cons.mp hp with
        | inl hp =>
          rw [hp, hf] at hfp
          cases hfp
        | inr hp =>
          cases List.mem_cons.mp hq with
          | inr hq => exact hclosed p hp q hq hfp hpq
          | inl hq =>
            -- nothing on the way up has `x` for its parent
            exfalso
            obtain ⟨hpn, hr, -⟩ := hup.mem_reaches hp
            rw [hq] at hpq
            have hxp : nodes.parent p.1 = some x := Nodes.parent_eq_some.mpr ⟨p.2, hpn, hpq⟩
            exact h.not_reaches_node hv (hr.trans (.head hxp (.refl x)))
      · intro hclosed p hp q hq
        exact hclosed p (mem_cons_of_mem _ hp) q (mem_cons_of_mem _ hq)
    | false =>
      rw [dropWhile_cons_of_neg (by simp [hf]), all_cached_cons hf, List.all_eq_true]
      constructor
      · intro hcached p _ q hq _ _
        cases List.mem_cons.mp hq with
        | inl hq => exact hq ▸ hf
        | inr hq => simpa using hcached q hq
      · intro hclosed q hq
        have := hall (.step hv hup) hf hclosed q hq
        simpa using this

def Cached (scopes : List ID2) (x : Nat) : Prop := ∃ d ∈ scopes, d.mid = x

theorem Cache.fresh_iff (hc : Cache nodes b scopes) (p : Nat × Node) : fresh scopes p = true ↔ ¬ Cached scopes p.1 := by
  unfold fresh Cached
  rw [Option.isNone_iff_eq_none, id2lFind_eq_none hc.increasing]
  push Not
  rfl

theorem IncreasingID2.length_eq_card {ids : List ID2} (h : IncreasingID2 ids) {F : Finset Nat}
    (hF : ∀ x, x ∈ F ↔ ∃ d ∈ ids, d.mid = x) : ids.length = F.card := by
  have hnd : (ids.map ID2.mid).Nodup := h.mids.imp fun hab => hab.ne
  have hfin : (ids.map ID2.mid).toFinset = F := by
    ext x
    rw [List.mem_toFinset, hF, List.mem_map]
  rw [← hfin, toFinset_card_of_nodup hnd, length_map]

variable {cands : Set Nat}

/-- The cache before the candidate `t`: it holds the superiors of all candidates before `t`, or it was full before. -/
structure CacheAt (s : Tables) (nodes : Nodes) (base : Nat) (cands : Set Nat) (t : Nat) (scopes : List ID2) : Prop where
  cache : Cache nodes base scopes
  holds : ((∀ x, x ≠ base → (Cached scopes x ↔ Seen nodes.parent base cands t x)) ∧
      seenCount nodes.parent s.id2entry.toFinset base cands t < MDB_IDL_UM_MAX) ∨
    ∃ c ∈ cands, c < t ∧ seenCount nodes.parent s.id2entry.toFinset base cands c < MDB_IDL_UM_MAX ∧
      MDB_IDL_UM_MAX ≤ seenCount nodes.parent s.id2entry.toFinset base cands (c + 1) ∧
      (∀ x, x ≠ base → (Cached scopes x ↔ Kept nodes.parent s.id2entry.toFinset base cands c x)) ∧
      scopes.length = MDB_IDL_UM_MAX

theorem CacheAt.skip {t t' : Nat} (h : CacheAt s nodes b cands t scopes) (htt : t ≤ t')
    (hnone : ∀ c ∈ cands, t ≤ c → c < t' → ∀ a, Between nodes.parent b c a → Seen nodes.parent b cands t a) :
    CacheAt s nodes b cands t' scopes := by
  have hseen : ∀ x, Seen nodes.parent b cands t x ↔ Seen nodes.parent b cands t' x := by
    intro x
    constructor
    · exact fun hx => hx.mono htt
    · intro ⟨c, hc, hlt, hbet⟩
      if hct : c < t then exact ⟨c, hc, hct, hbet⟩
      else exact hnone c hc (by omega) hlt x hbet
  refine ⟨h.cache, ?_⟩
  cases h.holds with
  | inl hroom =>
    left
    refine ⟨fun x hx => (hroom.1 x hx).trans (hseen x), ?_⟩
    rw [← seenCount_congr hseen]
    exact hroom.2
  | inr hfull =>
    obtain ⟨c, hc, hct, hrest⟩ := hfull
    exact .inr ⟨c, hc, hct.trans_le htt, hrest⟩

theorem CacheAt.seen {t : Nat} (h : CacheAt s nodes b cands t scopes) (hx : x ≠ b) (hc : Cached scopes x) :
    Seen nodes.parent b cands t x := by
  cases h.holds with
  | inl hroom => exact (hroom.1 x hx).mp hc
  | inr hfull =>
    obtain ⟨c, hcc, hct, -, -, hkept, -⟩ := hfull
    cases (hkept x hx).mp hc with
    | inl hseen => exact hseen.mono hct.le
    | inr hbet => exact ⟨c, hcc, hct, hbet.1⟩

theorem CacheAt.cached_iff (h : CacheAt s nodes b cands x scopes) (hx : x ≠ b) :
    Cached scopes x ↔ Remembered nodes.parent s.id2entry.toFinset b cands x := by
  cases h.holds with
  | inl hroom =>
    obtain ⟨hcached, hcount⟩ := hroom
    rw [hcached x hx]
    constructor
    · intro ⟨c, hc, hcx, hbet⟩
      exact ⟨c, hc, hcx, (seenCount_mono hcx.le).trans_lt hcount,
        (kept_iff hc hcx hcount).mpr ((seen_succ hc).mpr (.inr hbet))⟩
    · intro ⟨c, hc, hcx, _, hkept⟩
      exact ((kept_iff hc hcx hcount).mp hkept).mono hcx
  | inr hfull =>
    obtain ⟨c, hc, hcx, hcount, hover, hkept, -⟩ := hfull
    rw [hkept x hx]
    constructor
    · exact fun hk => ⟨c, hc, hcx, hcount, hk⟩
    · intro ⟨c', hc', _, hcount', hk⟩
      rcases Nat.lt_trichotomy c' c with hlt | heq | hgt
      · exact .inl (((kept_iff hc' hlt hcount).mp hk).mono hlt)
      · exact heq ▸ hk
      · have hle := @seenCount_mono nodes.parent s.id2entry.toFinset b cands (c + 1) c' hgt
        omega

theorem kept_of_addChain (h : TreeInv s started nodes)
    {chain : List ID2} (hc : Cache nodes b scopes) (hup : Up nodes b id ((id, v) :: rest))
    (hroom : ∀ x, x ≠ b → (Cached scopes x ↔ Seen nodes.parent b cands id x))
    (hintact : ((rest.dropWhile (fresh scopes)).all fun p => !fresh scopes p) = true) (hchain : IncreasingID2 chain)
    (hmem : ∀ e, e ∈ chain ↔ e ∈ (rest.takeWhile (fresh scopes)).map scopeOf) :
    (∀ a, scopes.length + (chain.filter fun d => d.mid ≤ a).length =
      keptCount nodes.parent s.id2entry.toFinset b cands id a + 1) ∧
    (∀ x, (∃ d ∈ chain, d.mid = x) ↔ Between nodes.parent b id x ∧ ¬ Seen nodes.parent b cands id x) := by
  classical
  have hchainmem : ∀ x, (∃ d ∈ chain, d.mid = x) ↔ Between nodes.parent b id x ∧ ¬ Seen nodes.parent b cands id x := by
    intro x
    constructor
    · intro ⟨d, hd, hdx⟩
      obtain ⟨p, hp, rfl⟩ := List.mem_map.mp ((hmem d).mp hd)
      have hpr : p ∈ rest := (takeWhile_sublist _).subset hp
      have hfresh := (hc.fresh_iff p).mp (mem_takeWhile_imp hp)
      have hpx : p.1 = x := hdx
      have hbet := (h.between_iff hup).mpr ⟨p, hpr, hpx⟩
      rw [hpx, hroom x hbet.2.1] at hfresh
      exact ⟨hbet, hfresh⟩
    · intro ⟨hbet, hseen⟩
      obtain ⟨p, hp, hpx⟩ := (h.between_iff hup).mp hbet
      have hfresh : fresh scopes p = true := by
        rw [hc.fresh_iff, hpx, hroom x hbet.2.1]
        exact hseen
      refine ⟨scopeOf p, (hmem _).mpr (List.mem_map.mpr ⟨p, ?_, rfl⟩), hpx⟩
      rw [← takeWhile_append_dropWhile (p := fresh scopes) (l := rest)] at hp
      cases List.mem_append.mp hp with
      | inl hp => exact hp
      | inr hp =>
        have hnot := List.all_eq_true.mp hintact p hp
        rw [hfresh] at hnot
        cases hnot
  refine ⟨?_, hchainmem⟩
  intro a
  have hlen : scopes.length = (insert b (s.id2entry.toFinset.filter fun x => Seen nodes.parent b cands id x)).card := by
    refine hc.increasing.length_eq_card ?_
    intro x
    rw [Finset.mem_insert, Finset.mem_filter, List.mem_toFinset]
    constructor
    · intro hx
      cases hx with
      | inl hx => exact ⟨_, hc.hasBase, hx.symm⟩
      | inr hx =>
        obtain ⟨c, -, -, hbet⟩ := hx.2
        exact (hroom x hbet.2.1).mpr hx.2
    · intro hx
      if hxb : x = b then exact .inl hxb
      else
        have hseen := (hroom x hxb).mp hx
        obtain ⟨c, -, -, hbet⟩ := hseen
        exact .inr ⟨h.between_mem hbet, (hroom x hxb).mp hx⟩
  have hflen : (chain.filter fun d => d.mid ≤ a).length = (s.id2entry.toFinset.filter fun x =>
      Between nodes.parent b id x ∧ ¬ Seen nodes.parent b cands id x ∧ x ≤ a).card := by
    refine IncreasingID2.length_eq_card (hchain.filter _) ?_
    intro x
    rw [Finset.mem_filter, List.mem_toFinset]
    constructor
    · intro ⟨_, hbet, hseen, hle⟩
      obtain ⟨d, hd, hdx⟩ := (hchainmem x).mpr ⟨hbet, hseen⟩
      exact ⟨d, List.mem_filter.mpr ⟨hd, by simpa [hdx] using hle⟩, hdx⟩
    · intro ⟨d, hd, hdx⟩
      obtain ⟨hd, hle⟩ := List.mem_filter.mp hd
      obtain ⟨hbet, hseen⟩ := (hchainmem x).mp ⟨d, hd, hdx⟩
      exact ⟨h.between_mem hbet, hbet, hseen, by simpa [hdx] using hle⟩
  have hb : b ∉ s.id2entry.toFinset.filter fun x => Seen nodes.parent b cands id x := by
    intro hmem
    obtain ⟨c, -, -, hbet⟩ := (Finset.mem_filter.mp hmem).2
    exact hbet.2.1 rfl
  rw [hlen, hflen, Finset.card_insert_of_notMem hb, Nat.add_right_comm, ← Finset.card_union_of_disjoint]
  · refine congrArg (· + 1) (congrArg Finset.card ?_)
    ext x
    simp only [Finset.mem_union, Finset.mem_filter]
    tauto
  · refine Finset.disjoint_filter.mpr ?_
    intro x _ hseen hx
    exact hx.2.1 hseen

theorem Setting.step_room (h : Setting s started nodes base) (hscope : scope ≠ .base) (hscope' : scope ≠ .onelevel) (hid : id ∈ cands) (hc : Cache nodes base.id scopes)
    (hup : Up nodes base.id id ((id, v) :: rest)) (hnot : ¬ Cached scopes id)
    (hroom : ∀ x, x ≠ base.id → (Cached scopes x ↔ Seen nodes.parent base.id cands id x))
    (hcount : seenCount nodes.parent s.id2entry.toFinset base.id cands id < MDB_IDL_UM_MAX) :
    ∃ scopes', candidateStep s base scope scopes id = .ok (scopes', .examined (entryAt base id ((id, v) :: rest))) ∧
      CacheAt s nodes base.id cands (id + 1) scopes' := by
  classical
  have hfind : id2lFind scopes id = none := Option.isNone_iff_eq_none.mp ((hc.fresh_iff (id, v)).mpr hnot)
  obtain ⟨chain, hchain, hmem, hstep⟩ := h.step_below hc hscope hscope' hup hfind
  have hup' : Up nodes base.id v.parent rest := by
    cases hup with
    | step _ hup => exact hup
  -- the superiors of a superior are in the cache, too
  have hintact : ((rest.dropWhile (fresh scopes)).all fun p => !fresh scopes p) = true := by
    rw [h.tree.intact_iff hup']
    intro p hp q hq hfp hpq
    have hqb := h.tree.up_base_ne hup' hq
    have hcp : Cached scopes p.1 := by
      by_contra hn
      rw [(hc.fresh_iff p).mpr hn] at hfp
      cases hfp
    rw [hroom _ (h.tree.up_base_ne hup' hp)] at hcp
    have hpar : nodes.parent p.1 = some q.1 := Nodes.parent_eq_some.mpr ⟨p.2, (hup'.mem_reaches hp).1, hpq⟩
    have hcq := (hroom _ hqb).mpr (hcp.up h.tree.acyclic hpar hqb)
    cases hfq : fresh scopes q with
    | false => rfl
    | true => exact absurd hcq ((hc.fresh_iff q).mp hfq)
  rw [if_pos hintact] at hstep
  obtain ⟨hcache, hadd, hfit⟩ := Cache.addChain hc hup' hchain hmem
  obtain ⟨hlen, hchainmem⟩ := kept_of_addChain h.tree hc hup hroom hintact hchain hmem
  have hkept : ∀ x, x ≠ base.id →
      (Cached (addChain scopes chain) x ↔ Kept nodes.parent s.id2entry.toFinset base.id cands id x) := by
    intro x hx
    constructor
    · intro ⟨d, hd, hdx⟩
      cases (hadd d).mp hd with
      | inl hd => exact .inl ((hroom x hx).mp ⟨d, hd, hdx⟩)
      | inr hd =>
        rw [hlen, hdx] at hd
        exact .inr ⟨((hchainmem x).mp ⟨d, hd.1, hdx⟩).1, hd.2⟩
    · intro hk
      if hseen : Seen nodes.parent base.id cands id x then
        obtain ⟨d, hd, hdx⟩ := (hroom x hx).mpr hseen
        exact ⟨d, (hadd d).mpr (.inl hd), hdx⟩
      else
        cases hk with
        | inl hk => exact absurd hk hseen
        | inr hk =>
          obtain ⟨d, hd, hdx⟩ := (hchainmem x).mpr ⟨hk.1, hseen⟩
          refine ⟨d, (hadd d).mpr (.inr ⟨hd, ?_⟩), hdx⟩
          rw [hlen, hdx]
          exact hk.2
  have htotal : scopes.length + chain.length = seenCount nodes.parent s.id2entry.toFinset base.id cands (id + 1) + 1 := by
    -- no ID exceeds the bound
    have hself : (chain.filter fun d => d.mid ≤ 2 ^ 64) = chain := by
      refine List.filter_eq_self.mpr ?_
      intro d hd
      have hbet := ((hchainmem d.mid).mp ⟨d, hd, rfl⟩).1
      simpa using (h.tree.range _ (h.tree.between_mem hbet)).2.le
    have hall := hlen (2 ^ 64)
    rw [hself] at hall
    rw [hall]
    refine congrArg (· + 1) (congrArg Finset.card (Finset.filter_congr ?_))
    intro x hx
    have hle := (h.tree.range x (List.mem_toFinset.mp hx)).2.le
    rw [seen_succ hid]
    exact or_congr_right (and_iff_left hle)
  refine ⟨_, hstep, hcache, ?_⟩
  cases hfit with
  | inl hfit =>
    left
    have hcount' : seenCount nodes.parent s.id2entry.toFinset base.id cands (id + 1) < MDB_IDL_UM_MAX := by omega
    refine ⟨?_, hcount'⟩
    intro x hx
    rw [hkept x hx, kept_iff hid (Nat.lt_succ_self id) hcount']
  | inr hfull =>
    if hcount' : seenCount nodes.parent s.id2entry.toFinset base.id cands (id + 1) < MDB_IDL_UM_MAX then
      left
      refine ⟨?_, hcount'⟩
      intro x hx
      rw [hkept x hx, kept_iff hid (Nat.lt_succ_self id) hcount']
    else exact .inr ⟨id, hid, Nat.lt_succ_self id, hcount, by omega, hkept, hfull⟩

theorem Setting.step_full (h : Setting s started nodes base) (hscope : scope ≠ .base) (hscope' : scope ≠ .onelevel)
    {c : Nat} (hc : Cache nodes base.id scopes)
    (hup : Up nodes base.id id ((id, v) :: rest)) (hnot : ¬ Cached scopes id) (hcc : c ∈ cands) (hct : c < id)
    (hcount : seenCount nodes.parent s.id2entry.toFinset base.id cands c < MDB_IDL_UM_MAX)
    (hover : MDB_IDL_UM_MAX ≤ seenCount nodes.parent s.id2entry.toFinset base.id cands (c + 1))
    (hkept : ∀ x, x ≠ base.id → (Cached scopes x ↔ Kept nodes.parent s.id2entry.toFinset base.id cands c x))
    (hfull : scopes.length = MDB_IDL_UM_MAX) :
    ∃ scopes' out, candidateStep s base scope scopes id = .ok (scopes', out) ∧
      CacheAt s nodes base.id cands (id + 1) scopes' ∧
      ((¬ Lost nodes.parent s.id2entry.toFinset base.id cands id ∧ out = .examined (entryAt base id ((id, v) :: rest))) ∨
        (Lost nodes.parent s.id2entry.toFinset base.id cands id ∧ out = .notfound)) := by
  have hid : id ≠ base.id := h.tree.up_ne hup (cons_ne_nil _ _)
  have hfind : id2lFind scopes id = none := Option.isNone_iff_eq_none.mp ((hc.fresh_iff (id, v)).mpr hnot)
  obtain ⟨chain, hchain, hmem, hstep⟩ := h.step_below hc hscope hscope' hup hfind
  have hup' : Up nodes base.id v.parent rest := by
    cases hup with
    | step _ hup => exact hup
  have hcached : ∀ p ∈ rest,
      (fresh scopes p = false ↔ Kept nodes.parent s.id2entry.toFinset base.id cands c p.1) := by
    intro p hp
    rw [← hkept _ (h.tree.up_base_ne hup' hp), ← not_iff_not, Bool.not_eq_false, hc.fresh_iff]
  have hlost : Lost nodes.parent s.id2entry.toFinset base.id cands id ↔
      ¬ ((rest.dropWhile (fresh scopes)).all fun p => !fresh scopes p) = true := by
    rw [lost_iff h.tree.acyclic hcc hct hcount hover, h.tree.intact_iff hup', ← hkept id hid]
    constructor
    · intro ⟨_, a, b, hbet, hp, hb, ha, hnb⟩ hclosed
      obtain ⟨p, hpr, rfl⟩ := (h.tree.between_iff hup).mp hbet
      obtain ⟨q, hqr, rfl⟩ := (h.tree.between_iff hup).mp (hbet.up h.tree.acyclic hp hb)
      have hpq : p.2.parent = q.1 := by
        rw [Nodes.parent, (hup'.mem_reaches hpr).1] at hp
        exact Option.some.inj hp
      exact hnb ((hcached q hqr).mp (hclosed p hpr q hqr ((hcached p hpr).mpr ha) hpq))
    · intro hclosed
      refine ⟨hnot, ?_⟩
      push Not at hclosed
      obtain ⟨p, hpr, q, hqr, hfp, hpq, hfq⟩ := hclosed
      have hpar : nodes.parent p.1 = some q.1 := Nodes.parent_eq_some.mpr ⟨p.2, (hup'.mem_reaches hpr).1, hpq⟩
      exact ⟨p.1, q.1, (h.tree.between_iff hup).mpr ⟨p, hpr, rfl⟩, hpar, h.tree.up_base_ne hup' hqr,
        (hcached p hpr).mp hfp, fun hk => hfq ((hcached q hqr).mpr hk)⟩
  if hintact : ((rest.dropWhile (fresh scopes)).all fun p => !fresh scopes p) = true then
    rw [if_pos hintact] at hstep
    obtain ⟨hcache, hadd, hfit⟩ := Cache.addChain hc hup' hchain hmem
    have hsame : ∀ e, e ∈ addChain scopes chain ↔ e ∈ scopes := by
      intro e
      rw [hadd]
      constructor
      · intro he
        cases he with
        | inl he => exact he
        | inr he =>
          have hpos : 0 < (chain.filter fun d => d.mid ≤ e.mid).length :=
            length_pos_of_mem (List.mem_filter.mpr ⟨he.1, by simp⟩)
          omega
      · exact .inl
    have heq : addChain scopes chain = scopes := hcache.increasing.eq_of_mem_iff hc.increasing hsame
    rw [heq] at hstep
    refine ⟨_, _, hstep, ⟨hc, .inr ⟨c, hcc, by omega, hcount, hover, hkept, hfull⟩⟩, .inl ⟨?_, rfl⟩⟩
    intro hl
    exact hlost.mp hl hintact
  else
    rw [if_neg hintact] at hstep
    exact ⟨_, _, hstep, ⟨hc, .inr ⟨c, hcc, by omega, hcount, hover, hkept, hfull⟩⟩, .inr ⟨hlost.mpr hintact, rfl⟩⟩

theorem TreeInv.up_det (h : TreeInv s started nodes) {k : Nat} {qs : List (Nat × Node)} (hp : Up nodes k x ps)
    (hq : Up nodes k x qs) : ps = qs := by
  induction hp generalizing qs with
  | refl =>
    by_contra hne
    exact h.up_ne hq (fun hnil => hne hnil.symm) rfl
  | @step x v ps hv hup ih =>
    have hx := h.up_ne (.step hv hup) (cons_ne_nil _ _)
    cases hq with
    | refl => exact absurd rfl hx
    | step hv' hup' =>
      rw [hv] at hv'
      cases hv'
      rw [ih hup']

theorem Setting.examined_iff (h : Setting s started nodes base) {P : Prop} (hP : P)
    (hup : Up nodes base.id id ps) (hallow : scope.Allows ps) (e : DnEntry) :
    e ∈ (Outcome.examined (entryAt base id ps)).entries ↔
      ∃ ps, Up nodes base.id id ps ∧ scope.Allows ps ∧ P ∧ e = entryAt base id ps := by
  constructor
  · intro he
    exact ⟨ps, hup, hallow, hP, List.mem_singleton.mp he⟩
  · intro ⟨qs, hqs, _, _, he⟩
    rw [h.tree.up_det hup hqs]
    exact List.mem_singleton.mpr he

theorem Setting.step (h : Setting s started nodes base) (hscope : scope ≠ .base) (hscope' : scope ≠ .onelevel) {id : Nat}
    (hid : id ∈ cands) (hca : CacheAt s nodes base.id cands id scopes)
    (hshort : Remembered nodes.parent s.id2entry.toFinset base.id cands id →
      ∀ ns rs, Named nodes id ns → Pretty nodes id rs → Short ns ∧ Short rs) :
    ∃ scopes' out, candidateStep s base scope scopes id = .ok (scopes', out) ∧
      CacheAt s nodes base.id cands (id + 1) scopes' ∧
      (out.entries.map DnEntry.id).Sublist [id] ∧
      ∀ e, e ∈ out.entries ↔ ∃ ps, Up nodes base.id id ps ∧ scope.Allows ps ∧
        ¬ Lost nodes.parent s.id2entry.toFinset base.id cands id ∧ e = entryAt base id ps := by
  have hnext : (∀ a, Between nodes.parent base.id id a → Seen nodes.parent base.id cands id a) →
      CacheAt s nodes base.id cands (id + 1) scopes := by
    intro hnone
    refine hca.skip (Nat.le_succ id) ?_
    intro c _ hle hlt a hbet
    have hcid : c = id := by omega
    exact hnone a (hcid ▸ hbet)
  have hself : ∀ {a}, ¬ Between nodes.parent base.id base.id a := by
    intro a ⟨hne, _, hr, hrb⟩
    exact hne (h.tree.acyclic _ _ hrb hr)
  if hb : id = base.id then
    have hnl : ¬ Lost nodes.parent s.id2entry.toFinset base.id cands id := by
      intro ⟨_, _, _, _, _, a, _, hbet, _⟩
      exact hself (hb ▸ hbet)
    have hsub : candidateStep s base scope scopes id =
        if scope = .base ∨ scope = .subtree then .ok (scopes, .examined base) else .ok (scopes, .skipped) := by
      unfold candidateStep
      rw [if_pos hb]
    have hca' := hnext fun a hbet => absurd (hb ▸ hbet) hself
    cases scope with
    | base => exact absurd rfl hscope
    | onelevel => exact absurd rfl hscope'
    | subtree =>
      refine ⟨scopes, .examined base, hsub, hca', by simp [Outcome.entries, hb], ?_⟩
      exact h.examined_iff hnl (hb ▸ Up.refl : Up nodes base.id id []) trivial
    | children =>
      refine ⟨scopes, .skipped, hsub, hca', by simp [Outcome.entries], ?_⟩
      intro e
      constructor
      · intro he
        cases he
      · intro ⟨ps, hup, hne, _⟩
        exact absurd hb (h.tree.up_ne hup hne)
  else
    by_cases hr : Reaches nodes.parent id base.id
    · obtain ⟨ps, hup⟩ := Up.of_reaches hr
      cases ps with
      | nil => exact absurd hup.nil_inv hb
      | cons p rest =>
        have hup' := hup
        cases hup' with
        | @step _ v _ hv _ =>
          have hallow : scope.Allows ((id, v) :: rest) := by
            cases scope with
            | base => exact absurd rfl hscope
            | onelevel => exact absurd rfl hscope'
            | subtree => trivial
            | children => exact cons_ne_nil _ _
          have hids : ((Outcome.examined (entryAt base id ((id, v) :: rest))).entries.map DnEntry.id).Sublist [id] := by
            simp [Outcome.entries, entryAt, childEntry]
          by_cases hcached : Cached scopes id
          · have hseen := hca.seen hb hcached
            have hrem := (hca.cached_iff hb).mp hcached
            obtain ⟨d, hd, hdid⟩ := hcached
            have hstep := h.step_cached hca.cache hscope hup hb ((id2lFind_iff hca.cache.increasing).mpr ⟨hd, hdid⟩)
              (hshort hrem)
            refine ⟨scopes, _, hstep, hnext fun a hbet => hseen.between h.tree.acyclic hbet, hids,
              h.examined_iff ?_ hup hallow⟩
            cases hca.holds with
            | inl hroom => exact not_lost h.tree.acyclic hroom.2
            | inr hfull =>
              obtain ⟨c, hcc, hct, hcount, hover, hkept, -⟩ := hfull
              rw [lost_iff h.tree.acyclic hcc hct hcount hover]
              intro hl
              exact hl.1 ((hkept id hb).mp ⟨d, hd, hdid⟩)
          · cases hca.holds with
            | inl hroom =>
              obtain ⟨scopes', hstep, hca'⟩ := h.step_room hscope hscope' hid hca.cache hup hcached hroom.1 hroom.2
              exact ⟨scopes', _, hstep, hca', hids, h.examined_iff (not_lost h.tree.acyclic hroom.2) hup hallow⟩
            | inr hfull =>
              obtain ⟨c, hcc, hct, hcount, hover, hkept, hlen⟩ := hfull
              obtain ⟨scopes', out, hstep, hca', hout⟩ := h.step_full hscope hscope' hca.cache hup hcached hcc hct hcount
                hover hkept hlen
              refine ⟨scopes', out, hstep, hca', ?_⟩
              cases hout with
              | inl hout =>
                rw [hout.2]
                exact ⟨hids, h.examined_iff hout.1 hup hallow⟩
              | inr hout =>
                rw [hout.2]
                refine ⟨by simp [Outcome.entries], ?_⟩
                intro e
                constructor
                · intro he
                  cases he
                · intro ⟨_, _, _, hnl, _⟩
                  exact absurd hout.1 hnl
    · obtain ⟨out, hstep, hout⟩ := h.step_outside hca.cache hscope hscope' hb hr
      refine ⟨scopes, out, hstep, hnext ?_, by simp [hout], ?_⟩
      · intro a hbet
        exact absurd (hbet.2.2.1.trans hbet.2.2.2) hr
      · intro e
        rw [hout]
        constructor
        · intro he
          cases he
        · intro ⟨ps, hup, _⟩
          exact absurd hup.reaches hr

end
end BackMdb
end ReOpenLDAP
