import ReOpenLDAP.BackMdb.Counters

/-!
# BackMdb.TreeHistory

Histories of successful adds, deletes of leaves and renames, from empty tables.
-/

namespace ReOpenLDAP
namespace BackMdb

open Forest List

def prettyLength (ndn : Dn) (dn : List Byte) : Nat := if ndn = [] then dn.length else (dnRdn dn).length

inductive Effect (suffix : List Byte) (s : Tables) (nodes nodes' : Nodes) : Request → Prop where
  | add {ndn : Dn} {dn n rdn : List Byte} {pid : Nat} {up : List (List Byte)} :
      ndn.parts suffix = n :: up → Named nodes pid up → rdn.length ≤ prettyLength ndn dn →
      nodes (mdbNextId ⟨s.id2entry, 0⟩) = none → mdbNextId ⟨s.id2entry, 0⟩ ≠ 0 →
      nodes'.labels = Function.update nodes.labels (mdbNextId ⟨s.id2entry, 0⟩) (some (pid, n, rdn)) →
      Effect suffix s nodes nodes' (.add ndn dn)
  | delete {ndn : Dn} {e : Nat} {v : Node} :
      nodes e = some v → Named nodes e (ndn.parts suffix) → (∀ c, nodes.parent c ≠ some e) →
      nodes'.labels = Function.update nodes.labels e none → Effect suffix s nodes nodes' (.delete ndn)
  /-- The entry stays under its parent. -/
  | rename {r : Rdn} {up : Dn} {dn rdn : List Byte} {nnewrdn newrdn : Rdn} {newSup : Option Dn} {e : Nat} {v : Node} :
      nodes e = some v → Named nodes e (Dn.parts suffix (r :: up)) →
      (newSup = none ∨ newSup.map (Dn.str suffix) = some (Dn.str suffix up)) →
      rdn.length ≤ newrdn.bytes.length →
      nodes'.labels = Function.update nodes.labels e (some (v.parent, nnewrdn.bytes, rdn)) →
      Effect suffix s nodes nodes' (.modrdn (r :: up) dn nnewrdn newrdn newSup)
  /-- The entry moves below the new superior `q`. -/
  | move {r : Rdn} {up sup : Dn} {dn rdn : List Byte} {nnewrdn newrdn : Rdn} {e q : Nat} {v : Node} :
      nodes e = some v → Named nodes e (Dn.parts suffix (r :: up)) → sup.str suffix ≠ [] →
      Named nodes q (sup.parts suffix) → ¬ Reaches nodes.parent q e → rdn.length ≤ newrdn.bytes.length →
      nodes'.labels = Function.update nodes.labels e (some (q, nnewrdn.bytes, rdn)) →
      Effect suffix s nodes nodes' (.modrdn (r :: up) dn nnewrdn newrdn (some sup))
  /-- The request names the root as the new superior; the entry stays under its parent. -/
  | root {r : Rdn} {up sup : Dn} {dn rdn : List Byte} {nnewrdn newrdn : Rdn} {e : Nat} {v : Node} :
      nodes e = some v → Named nodes e (Dn.parts suffix (r :: up)) → sup.str suffix = [] →
      Dn.str suffix up ≠ [] → rdn.length ≤ newrdn.bytes.length →
      nodes'.labels = Function.update nodes.labels e (some (v.parent, nnewrdn.bytes, rdn)) →
      Effect suffix s nodes nodes' (.modrdn (r :: up) dn nnewrdn newrdn (some sup))

section

variable {suffix : List Byte}

theorem nrdn_cons (id : Nat) (r : Rdn) (dn : Dn) (name : List Byte) :
    DnEntry.nrdn suffix ⟨id, Dn.str suffix (r :: dn), name⟩ = r.bytes := by
  have hr : r.bytes.length ≠ 0 := fun h => r.nonempty (List.length_eq_zero_iff.mp h)
  have htake : (Dn.str suffix (r :: dn)).take r.bytes.length = r.bytes := by
    rw [Dn.str_cons, buildNewDn]
    split_ifs <;> simp
  unfold DnEntry.nrdn
  rw [Dn.dnRdnlen_cons, if_pos hr, htake]

theorem length_rdn_le (id : Nat) (r : Rdn) (dn : Dn) (name : List Byte) :
    (DnEntry.rdn suffix ⟨id, Dn.str suffix (r :: dn), name⟩).length ≤ (dnRdn name).length := by
  have hr : r.bytes.length ≠ 0 := fun h => r.nonempty (List.length_eq_zero_iff.mp h)
  unfold DnEntry.rdn
  rw [Dn.dnRdnlen_cons, if_pos hr, length_take]
  unfold dnRdnlen
  split_ifs <;> simp

theorem dnRdn_properName (p : Option DnEntry) (dn : List Byte) : dnRdn (properName p dn) = dnRdn dn := by
  unfold properName
  cases p with
  | none => rfl
  | some p =>
    simp only
    split_ifs
    · exact Dn.dnRdn_buildNewDn (Dn.comma_notMem_dnRdn dn) _
    · rfl

end

namespace TreeInv

variable {s s' : Tables} {started : Bool} {nodes : Nodes} {suffix : List Byte} {sub : Nat → Nat → Except Rc Nat}

theorem hasEntry_iff (h : TreeInv s started nodes) {x : Nat} {ns : List (List Byte)} (hx : Named nodes x ns) :
    hasEntry suffix s x = true ↔ ns ≠ [] ∨ suffix = [] := by
  cases hx with
  | root =>
    have h0 : (0 : Nat) ∉ s.id2entry := fun hm => absurd (h.range 0 hm).1 (lt_irrefl 0)
    simp [hasEntry, h0]
  | node hv _ =>
    have hm := h.mem_of_node hv
    simp [hasEntry, hm]

/-- Where `mdb_add` puts a new entry: below the node named by the parent's DN, which has no child of
the new name. -/
theorem add_parent (h : TreeInv s started nodes) {ndn : Dn}
    (hrc : (mdbDn2entry suffix s (ndn.str suffix) true).rc = some .notfound)
    (hp : parentDn suffix (ndn.str suffix) =
      ((mdbDn2entry suffix s (ndn.str suffix) true).e.getD slapEntryRoot).nname) :
    ∃ n up, ndn.parts suffix = n :: up ∧
      Named nodes ((mdbDn2entry suffix s (ndn.str suffix) true).e.getD slapEntryRoot).id up ∧
      (∀ a w, nodes a = some w →
        w.parent = ((mdbDn2entry suffix s (ndn.str suffix) true).e.getD slapEntryRoot).id → w.nrdn ≠ n) ∧
      (ndn = [] → (mdbDn2entry suffix s (ndn.str suffix) true).e = none) := by
  cases mdbDn2id_cases h.rep suffix ndn with
  | inl hhit =>
    -- an existing name is an existing entry
    exfalso
    have hentry : hasEntry suffix s (mdbDn2id suffix s.dn2id (ndn.str suffix)).id = true := by
      rw [h.hasEntry_iff hhit.named]
      if hs : suffix = [] then exact .inr hs
      else exact .inl fun hnil => hs (Dn.parts_eq_nil.mp hnil).1
    unfold mdbDn2entry at hrc
    simp [hhit.rc, hentry] at hrc
  | inr hmiss =>
    obtain ⟨low, n, up, hparts, hup, hnone, hnm⟩ := hmiss.superior
    have hentry : hasEntry suffix s _ = true ↔ _ := h.hasEntry_iff hup
    have he : (mdbDn2entry suffix s (ndn.str suffix) true).e =
        if hasEntry suffix s (mdbDn2id suffix s.dn2id (ndn.str suffix)).id then
          some ⟨(mdbDn2id suffix s.dn2id (ndn.str suffix)).id, joinRdns up,
            (mdbDn2id suffix s.dn2id (ndn.str suffix)).matched⟩
        else none := by
      unfold mdbDn2entry
      simp [hmiss.rc, hnm]
    have hid : ((mdbDn2entry suffix s (ndn.str suffix) true).e.getD slapEntryRoot).id =
        (mdbDn2id suffix s.dn2id (ndn.str suffix)).id := by
      rw [he]
      split_ifs with hif
      · rfl
      · have hnil : up = [] := by
          by_contra hne
          exact hif (hentry.mpr (.inl hne))
        rw [hnil] at hup
        exact hup.nil_inv.symm
    have hnname : ((mdbDn2entry suffix s (ndn.str suffix) true).e.getD slapEntryRoot).nname = joinRdns up := by
      rw [he]
      split_ifs with hif
      · rfl
      · have hnil : up = [] := by
          by_contra hne
          exact hif (hentry.mpr (.inl hne))
        rw [hnil]
        rfl
    rw [hid]
    rw [hnname] at hp
    cases ndn with
    | nil =>
      have hs : suffix ≠ [] := by
        intro hs
        rw [hs] at hparts
        simp at hparts
      rw [Dn.parts_nil, if_neg hs] at hparts ⊢
      cases low with
      | cons m low => simp at hparts
      | nil =>
        obtain ⟨rfl, rfl⟩ := List.cons.inj hparts
        refine ⟨_, _, rfl, hup, hnone, ?_⟩
        intro _
        rw [he, if_neg]
        rw [hentry]
        simp [hs]
    | cons r dn =>
      rw [parentDn, if_neg (Dn.str_cons_ne_suffix r dn), Dn.dnParent_cons] at hp
      rw [Dn.parts_cons] at hparts ⊢
      cases low with
      | nil =>
        obtain ⟨rfl, rfl⟩ := List.cons.inj hparts
        exact ⟨_, _, rfl, hup, hnone, by simp⟩
      | cons m low =>
        -- a longer way to the parent has a longer string
        exfalso
        have hdn : Dn.parts suffix dn = (low ++ [n]) ++ up := by
          rw [append_assoc]
          exact (List.cons.inj hparts).2
        have hne : ∀ k ∈ low ++ [n], k ≠ [] := by
          intro k hk
          have hmem : k ∈ Dn.parts suffix dn := by
            rw [hdn]
            exact mem_append_left _ hk
          exact Dn.ne_nil_of_mem_parts hmem
        have hlen := length_joinRdns_append (low ++ [n]) up hne
        rw [← hdn, ← hp] at hlen
        simp only [length_append, length_singleton, Dn.str] at hlen
        omega

theorem step_add (h : TreeInv s started nodes) {ndn : Dn} {dn : List Byte}
    (hok : mdbAdd suffix s (ndn.str suffix) dn = .ok s') :
    ∃ st nodes', TreeInv s' st nodes' ∧ Effect suffix s nodes nodes' (.add ndn dn) := by
  obtain ⟨hrc, hp, hlast, db, hadd, rfl⟩ := mdbAdd_ok hok
  obtain ⟨n, up, hparts, hup, hnone, hroot⟩ := h.add_parent hrc hp
  have hinv : Id2Entry.Inv ⟨s.id2entry, 0⟩ := ⟨h.increasing, fun x hx => (h.range x hx).1, fun h0 => absurd rfl h0⟩
  have hfresh := lt_mdbNextId hinv
  have hpos := mdbNextId_pos ⟨s.id2entry, 0⟩
  have hle : mdbNextId ⟨s.id2entry, 0⟩ ≤ 2 ^ 64 := mdbNextId_le (by decide) fun x hx => (h.range x hx).2
  have hlt : mdbNextId ⟨s.id2entry, 0⟩ < 2 ^ 64 := lt_of_le_of_ne hle hlast
  have hnrdn : DnEntry.nrdn suffix ⟨mdbNextId ⟨s.id2entry, 0⟩, ndn.str suffix,
      properName (mdbDn2entry suffix s (ndn.str suffix) true).e dn⟩ = n := by
    cases ndn with
    | nil =>
      have hs : suffix ≠ [] := by
        intro hs
        rw [hs] at hparts
        simp at hparts
      rw [Dn.parts_nil, if_neg hs] at hparts
      unfold DnEntry.nrdn
      rw [if_neg (by simp), Dn.str_nil]
      exact (List.cons.inj hparts).1
    | cons r dn =>
      rw [nrdn_cons]
      exact (List.cons.inj hparts).1
  have hrdn : (DnEntry.rdn suffix ⟨mdbNextId ⟨s.id2entry, 0⟩, ndn.str suffix,
      properName (mdbDn2entry suffix s (ndn.str suffix) true).e dn⟩).length ≤ prettyLength ndn dn := by
    cases ndn with
    | nil =>
      unfold DnEntry.rdn prettyLength
      rw [if_neg (by simp), if_pos rfl, hroot rfl]
      exact le_refl _
    | cons r dn' =>
      refine (length_rdn_le _ r dn' _).trans ?_
      rw [dnRdn_properName, prettyLength, if_neg (by simp)]
  obtain ⟨db', st, nodes', hadd', htree, hlabels⟩ := @addNode _ _ _ suffix h _
    ⟨mdbNextId ⟨s.id2entry, 0⟩, ndn.str suffix, properName (mdbDn2entry suffix s (ndn.str suffix) true).e dn⟩
    hfresh hpos hlt hup.reaches (by rw [hnrdn]; exact hnone)
  rw [hadd] at hadd'
  cases hadd'
  rw [hnrdn] at hlabels
  refine ⟨st, nodes', htree, .add hparts hup hrdn ?_ hpos.ne' hlabels⟩
  by_contra hne
  exact lt_irrefl _ (hfresh _ ((h.ids _).mpr hne))

theorem no_child (h : TreeInv s started nodes) {e : Nat} {v : Node} (hv : nodes e = some v)
    (hc : mdbDn2idChildren s.dn2id e = .error .notfound) (c : Nat) : nodes.parent c ≠ some e := by
  intro hp
  obtain ⟨w, hw, hwp⟩ := Nodes.parent_eq_some.mp hp
  have hown : v.own ∈ s.dn2id e := (h.rep.mem _ _).mpr (.own hv)
  have hchild : w.child c ∈ s.dn2id e := (h.rep.mem _ _).mpr (.child hw hwp)
  have hlen : 2 ≤ (s.dn2id e).length := by
    cases hds : s.dn2id e with
    | nil =>
      rw [hds] at hown
      cases hown
    | cons d ds =>
      cases ds with
      | nil =>
        rw [hds, mem_singleton] at hown hchild
        exact absurd (hown.trans hchild.symm) Node.own_ne_child
      | cons d' ds => simp
  unfold mdbDn2idChildren at hc
  rw [h.rep.set_own hv] at hc
  simp only at hc
  rw [if_neg (by omega)] at hc
  cases hc

theorem step_delete (h : TreeInv s started nodes) (hsub : SubOk sub) {ndn : Dn}
    (hok : mdbDelete sub suffix s (ndn.str suffix) = .ok s') :
    ∃ st nodes', TreeInv s' st nodes' ∧ Effect suffix s nodes nodes' (.delete ndn) ∧
      ∀ sub', SubOk sub' → mdbDelete sub' suffix s (ndn.str suffix) = .ok s' := by
  obtain ⟨e, nsubs, mc, db, he, hc, hdel, rfl⟩ := mdbDelete_ok hok
  obtain ⟨hnamed, -, hrec⟩ := h.dn2entry he
  have hparts : ndn.parts suffix ≠ [] := by
    intro hnil
    have hmc := (mdbDn2entry_ok he).2.2.2.2.2
    have hstr : ndn.str suffix = [] := by
      unfold Dn.str
      rw [hnil]
      rfl
    rw [hstr] at hmc
    cases hmc
  obtain ⟨v, hv, -, hmc⟩ := hrec hparts
  obtain rfl := Option.some.inj hmc
  have hleaf := h.no_child hv hc
  obtain ⟨db', nodes', hdel', htree, hlabels⟩ := h.deleteNode hv hleaf
  rw [hdel' sub hsub] at hdel
  cases hdel
  refine ⟨started, nodes', htree, .delete hv hnamed hleaf hlabels, ?_⟩
  intro sub' hsub'
  unfold mdbDelete at hok ⊢
  simp only [he, hc, hdel' sub hsub, hdel' sub' hsub'] at hok ⊢
  exact hok

theorem not_reaches_of_dnIsSuffix (h : TreeInv s started nodes) {e q : Nat} {ndn sup : Dn}
    (he : Named nodes e (ndn.parts suffix)) (hq : Named nodes q (sup.parts suffix))
    (hsuf : dnIsSuffix (sup.str suffix) (ndn.str suffix) = false) : ¬ Reaches nodes.parent q e := by
  intro hr
  obtain ⟨low, dn', rfl, hstr⟩ := Dn.dnIsSuffix_of_parts (hq.suffix_of_reaches h.rep.root he hr)
  rw [← hstr, Dn.dnIsSuffix_str] at hsuf
  cases hsuf

theorem mdbModrdn_congr {sub' : Nat → Nat → Except Rc Nat} {ndn dn nnewrdn newrdn : List Byte}
    {newSup : Option (List Byte)} {p e : DnEntry} {pnsubs nsubs : Nat} {pmc : Option (Nat × DiskNode)}
    {mc : Nat × DiskNode} {np : Option DnEntry} {pn pd : List Byte} {db₁ : Dn2id}
    (hok : mdbModrdn sub suffix s ndn dn nnewrdn newrdn newSup = .ok s')
    (hp : mdbDn2entry suffix s (dnParent ndn) false = ⟨none, some p, pnsubs, pmc⟩)
    (he : mdbDn2entry suffix s ndn false = ⟨none, some e, nsubs, some mc⟩)
    (hnew : newParent suffix s e (dnParent ndn) (dnParent dn) newSup = .ok (np, pn, pd))
    (hdel : mdbDn2idDelete sub s.dn2id mc e.id (if np.isSome then nsubs else 0) = .ok db₁)
    (hdel' : mdbDn2idDelete sub' s.dn2id mc e.id (if np.isSome then nsubs else 0) = .ok db₁) :
    mdbModrdn sub' suffix s ndn dn nnewrdn newrdn newSup = .ok s' := by
  unfold mdbModrdn at hok ⊢
  simp only [hp, he, hnew, hdel, hdel'] at hok ⊢
  exact hok

theorem rename (h : TreeInv s started nodes) {e : DnEntry} {v : Node} {n : List Byte} {db₁ db₂ : Dn2id}
    (hv : nodes e.id = some v) (hn : e.nrdn suffix = n)
    (hdel : mdbDn2idDelete sub s.dn2id (v.parent, v.child e.id) e.id 0 = .ok db₁)
    (hadd : mdbDn2idAdd suffix db₁ v.parent v.nsubs false e = .ok db₂) :
    ∃ st nodes', TreeInv { s with dn2id := db₂ } st nodes' ∧
      nodes'.labels = Function.update nodes.labels e.id (some (v.parent, n, e.rdn suffix)) ∧
      ∀ sub', mdbDn2idDelete sub' s.dn2id (v.parent, v.child e.id) e.id 0 = .ok db₁ := by
  have hname : ∀ a w, a ≠ e.id → nodes a = some w → w.parent = v.parent → w.nrdn ≠ e.nrdn suffix := by
    intro a w hae ha hp hw
    rw [h.rename_conflict hv hdel hae ha hp hw] at hadd
    cases hadd
  obtain ⟨db₁', db₂', st, nodes', hdel', hadd', htree, hlabels⟩ := h.renameNode hv hname
  have hd : db₁' = db₁ := Except.ok.inj ((hdel' sub).symm.trans hdel)
  subst hd
  have ha : db₂' = db₂ := Except.ok.inj (hadd'.symm.trans hadd)
  subst ha
  rw [hn] at hlabels
  exact ⟨st, nodes', htree, hlabels, hdel'⟩

theorem step_modrdn (h : TreeInv s started nodes) (hsub : SubOk sub) {ndn : Dn} {dn : List Byte} {nnewrdn newrdn : Rdn}
    {newSup : Option Dn} (hok : mdbModrdn sub suffix s (ndn.str suffix) dn nnewrdn.bytes newrdn.bytes
      (newSup.map (Dn.str suffix)) = .ok s') :
    ∃ st nodes', TreeInv s' st nodes' ∧ Effect suffix s nodes nodes' (.modrdn ndn dn nnewrdn newrdn newSup) ∧
      ∀ sub', SubOk sub' → mdbModrdn sub' suffix s (ndn.str suffix) dn nnewrdn.bytes newrdn.bytes
        (newSup.map (Dn.str suffix)) = .ok s' := by
  obtain ⟨hsuffix, p, pnsubs, pmc, e, nsubs, mc, np, pn, pd, db₁, db₂, hp, he, hnew, hexists, hdel, hadd, hs'⟩ :=
    mdbModrdn_ok hok
  cases ndn with
  | nil => exact absurd Dn.str_nil hsuffix
  | cons r up =>
    have hparent : dnParent (Dn.str suffix (r :: up)) = Dn.str suffix up := Dn.dnParent_cons r up
    obtain ⟨hnamed, hnname, hrec⟩ := h.dn2entry he
    obtain ⟨v, hv, rfl, hmc⟩ := hrec (by simp)
    obtain rfl := Option.some.inj hmc
    obtain ⟨v', hv', -, hvp⟩ := hnamed.cons_inv
    rw [hv] at hv'
    cases hv'
    have hpid : p.id = v.parent := by
      have hp' := hp
      rw [hparent] at hp'
      exact (h.dn2entry hp').1.inj h.rep hvp
    -- the new name is the DN of a child of the chosen parent, whichever that is
    have hchoice : ∃ x : Dn, pn = Dn.str suffix x := by
      obtain ⟨-, -, rfl, -⟩ | ⟨npNdn, n, nn, nmc, hsup, -, -, -, -, -, rfl, -⟩ | ⟨hsup, -, -, rfl, -⟩ := newParent_ok hnew
      · exact ⟨up, hparent⟩
      · obtain ⟨sup, -, rfl⟩ := Option.map_eq_some_iff.mp hsup
        exact ⟨sup, rfl⟩
      · obtain ⟨sup, -, hstr⟩ := Option.map_eq_some_iff.mp hsup
        exact ⟨sup, hstr.symm⟩
    obtain ⟨x, hx⟩ := hchoice
    have hnrdn : DnEntry.nrdn suffix ⟨e.id, buildNewDn pn nnewrdn.bytes, buildNewDn pd newrdn.bytes⟩ =
        nnewrdn.bytes := by
      rw [hx, ← Dn.str_cons, nrdn_cons]
    have hrdn : (DnEntry.rdn suffix ⟨e.id, buildNewDn pn nnewrdn.bytes, buildNewDn pd newrdn.bytes⟩).length ≤
        newrdn.bytes.length := by
      rw [hx, ← Dn.str_cons]
      refine (length_rdn_le _ _ _ _).trans ?_
      rw [Dn.dnRdn_buildNewDn newrdn.nosep]
    obtain ⟨hstay, rfl, -, -⟩ | ⟨npNdn, n, nn, nmc, hsup, -, hne, hsuf, hn, rfl, rfl, -⟩ | ⟨hsup, hpne, rfl, -, -⟩ :=
      newParent_ok hnew
    · obtain ⟨st, nodes', htree, hlabels, hdel'⟩ := rename
        (e := ⟨e.id, buildNewDn pn nnewrdn.bytes, buildNewDn pd newrdn.bytes⟩) h hv hnrdn (by simpa using hdel)
        (by simpa [hpid] using hadd)
      refine ⟨st, nodes', hs' ▸ htree, .rename hv hnamed ?_ hrdn hlabels, ?_⟩
      · cases hstay with
        | inl h0 => exact .inl (by simpa using h0)
        | inr h0 => exact .inr (hparent ▸ h0)
      · intro sub' _
        exact mdbModrdn_congr hok hp he hnew hdel (by simpa using hdel' sub')
    · obtain ⟨sup, rfl, rfl⟩ := Option.map_eq_some_iff.mp hsup
      have hq := (h.dn2entry hn).1
      have hqe := h.not_reaches_of_dnIsSuffix hnamed hq (hnname ▸ hsuf)
      have hfree : ∀ a w, a ≠ e.id → nodes a = some w → w.parent = n.id → w.nrdn ≠ nnewrdn.bytes := by
        intro a w hae ha hw hwn
        have ha' : Named nodes a (Dn.parts suffix (nnewrdn :: sup)) := by
          rw [Dn.parts_cons, ← hwn]
          refine .node ha ?_
          rw [hw]
          exact hq
        obtain ⟨hhit, hid⟩ := mdbDn2id_hit h.rep ha'
        rw [Dn.str_cons] at hhit hid
        exact hae (hid.symm.trans (hexists hhit.rc))
      obtain ⟨db₁', db₂', st, nodes', hdel', hadd', htree, hlabels⟩ := @moveNode _ _ _ suffix h
        ⟨e.id, buildNewDn (Dn.str suffix sup) nnewrdn.bytes, buildNewDn pd newrdn.bytes⟩ v n.id hv hq.reaches hqe
        (by rw [hnrdn]; exact hfree)
      have hd : db₁' = db₁ := by
        have := (hdel' sub hsub).symm.trans hdel
        exact Except.ok.inj this
      subst hd
      rw [hnrdn] at hlabels
      have ha : db₂' = db₂ := Except.ok.inj (hadd'.symm.trans hadd)
      subst ha
      refine ⟨st, nodes', hs' ▸ htree, .move hv hnamed hne hq hqe hrdn hlabels, ?_⟩
      intro sub' hsub'
      exact mdbModrdn_congr hok hp he hnew hdel (hdel' sub' hsub')
    · obtain ⟨sup, rfl, hstr⟩ := Option.map_eq_some_iff.mp hsup
      obtain ⟨st, nodes', htree, hlabels, hdel'⟩ := rename
        (e := ⟨e.id, buildNewDn pn nnewrdn.bytes, buildNewDn pd newrdn.bytes⟩) h hv hnrdn (by simpa using hdel)
        (by simpa [hpid] using hadd)
      refine ⟨st, nodes', hs' ▸ htree, .root hv hnamed hstr (hparent ▸ hpne) hrdn hlabels, ?_⟩
      intro sub' _
      exact mdbModrdn_congr hok hp he hnew hdel (by simpa using hdel' sub')

end TreeInv

/-- A successful request keeps the invariant, has its effect on the tree, and does the same when every
subtraction is checked. -/
theorem TreeInv.step {suffix : List Byte} {s s' : Tables} {started : Bool} {nodes : Nodes} {q : Request}
    (h : TreeInv s started nodes) (hok : Performs suffix s q s') :
    ∃ st nodes', TreeInv s' st nodes' ∧ Effect suffix s nodes nodes' q ∧ q.run subSubsChecked suffix s = .ok s' := by
  cases q with
  | add ndn dn =>
    obtain ⟨st, nodes', htree, heff⟩ := h.step_add hok
    exact ⟨st, nodes', htree, heff, hok⟩
  | delete ndn =>
    obtain ⟨st, nodes', htree, heff, hchecked⟩ := h.step_delete subOk_subSubs hok
    exact ⟨st, nodes', htree, heff, hchecked _ subOk_subSubsChecked⟩
  | modrdn ndn dn nnewrdn newrdn newSup =>
    obtain ⟨st, nodes', htree, heff, hchecked⟩ := h.step_modrdn subOk_subSubs hok
    exact ⟨st, nodes', htree, heff, hchecked _ subOk_subSubsChecked⟩

/-! ## The counters -/

def ownParent (db : Dn2id) (id : Nat) : Option Nat :=
  if id = 0 then none else ((db id).find? fun d => !d.child).map DiskNode.entryID

structure CountersExact (s : Tables) : Prop where
  own : ∀ id ∈ s.id2entry, ∃! d, d ∈ s.dn2id id ∧ d.child = false
  child : ∀ id ∈ s.id2entry, ∃ p, ownParent s.dn2id id = some p ∧
    (∃! d, d ∈ s.dn2id p ∧ d.child = true ∧ d.entryID = id) ∧
    ∀ k d, d ∈ s.dn2id k → d.child = true → d.entryID = id → k = p
  count : ∀ k d, d ∈ s.dn2id k → d.child = true →
    d.entryID ∈ s.id2entry ∧ d.nsubs = size (ownParent s.dn2id) s.id2entry.toFinset d.entryID

theorem Represents.ownParent_eq {db : Dn2id} {started : Bool} {nodes : Nodes} (h : Represents db started nodes) :
    ownParent db = nodes.parent := by
  funext id
  unfold ownParent Nodes.parent
  if h0 : id = 0 then
    rw [if_pos h0, h0, h.root]
    rfl
  else
    rw [if_neg h0]
    cases hf : (db id).find? fun d => !d.child with
    | none =>
      cases hv : nodes id with
      | none => rfl
      | some v =>
        have hown := List.find?_eq_none.mp hf v.own ((h.mem _ _).mpr (.own hv))
        simp [Node.own] at hown
    | some d =>
      have hmem := (h.mem _ _).mp (List.mem_of_find?_eq_some hf)
      have hchild : d.child = false := by simpa using List.find?_some hf
      cases hmem with
      | own hv =>
        rw [hv]
        rfl
      | root hk _ => exact absurd hk h0
      | child _ _ => cases hchild

theorem TreeInv.countersExact {s : Tables} {started : Bool} {nodes : Nodes} (h : TreeInv s started nodes) :
    CountersExact s := by
  have hnode : ∀ id ∈ s.id2entry, ∃ v, nodes id = some v := by
    intro id hid
    exact Option.ne_none_iff_exists'.mp ((h.ids id).mp hid)
  refine ⟨?_, ?_, ?_⟩
  · intro id hid
    obtain ⟨v, hv⟩ := hnode id hid
    refine ⟨v.own, ⟨(h.rep.mem _ _).mpr (.own hv), rfl⟩, ?_⟩
    intro d hd
    exact ((h.rep.mem _ _).mp hd.1).eq_own hv h.rep.root hd.2
  · intro id hid
    obtain ⟨v, hv⟩ := hnode id hid
    have hunique : ∀ k d, d ∈ s.dn2id k → d.child = true → d.entryID = id → k = v.parent ∧ d = v.child id := by
      intro k d hd hc hid
      obtain ⟨c, w, hw, hk, rfl⟩ := ((h.rep.mem _ _).mp hd).exists_child hc
      have hcid : c = id := hid
      subst hcid
      rw [hv] at hw
      cases hw
      exact ⟨hk.symm, rfl⟩
    refine ⟨v.parent, ?_, ⟨v.child id, ⟨(h.rep.mem _ _).mpr (.child hv rfl), rfl, rfl⟩, ?_⟩, ?_⟩
    · rw [h.rep.ownParent_eq]
      exact Nodes.parent_eq_some.mpr ⟨v, hv, rfl⟩
    · intro d hd
      exact (hunique _ d hd.1 hd.2.1 hd.2.2).2
    · intro k d hd hc hid
      exact (hunique k d hd hc hid).1
  · intro k d hd hc
    obtain ⟨c, w, hw, -, rfl⟩ := ((h.rep.mem _ _).mp hd).exists_child hc
    refine ⟨h.mem_of_node hw, ?_⟩
    rw [h.rep.ownParent_eq]
    exact h.exact c w hw

theorem TreeInv.run {suffix : List Byte} {qs : List Request} {s s' : Tables} {started : Bool} {nodes : Nodes}
    (h : TreeInv s started nodes) (hrun : Steps (Performs suffix) s qs s') :
    (∃ st nodes', TreeInv s' st nodes') ∧ Steps (fun s q s' => q.run subSubsChecked suffix s = .ok s') s qs s' := by
  induction hrun generalizing started nodes with
  | refl => exact ⟨⟨started, nodes, h⟩, .refl⟩
  | cons hstep _ ih =>
    obtain ⟨st, nodes', htree, -, hchecked⟩ := h.step hstep
    obtain ⟨hinv, hsteps⟩ := ih htree
    exact ⟨hinv, .cons hchecked hsteps⟩

theorem subtree_counters_exact {suffix : List Byte} {qs : List Request} {s : Tables}
    (h : Steps (Performs suffix) Tables.empty qs s) :
    CountersExact s ∧ Steps (fun s q s' => q.run subSubsChecked suffix s = .ok s') Tables.empty qs s := by
  obtain ⟨⟨_, _, hinv⟩, hsteps⟩ := TreeInv.empty.run h
  exact ⟨hinv.countersExact, hsteps⟩

def Request.exec (suffix : List Byte) (s : Tables) (q : Request) : Tables :=
  match q.run subSubs suffix s with
  | .ok s' => s'
  | .error _ => s

theorem performs_exec {suffix : List Byte} {s : Tables} {q : Request} (h : (q.run subSubs suffix s).isOk = true) :
    Performs suffix s q (q.exec suffix s) := by
  unfold Performs Request.exec
  cases hr : q.run subSubs suffix s with
  | ok s' => rfl
  | error e =>
    rw [hr] at h
    cases h

def rdnA : Rdn := ⟨[97], by decide, by decide⟩
def rdnB : Rdn := ⟨[98], by decide, by decide⟩
def rdnC : Rdn := ⟨[99], by decide, by decide⟩

/-- `a`, `b` and `c,b` are added, `b` moves below `a` as `c,a`, and `c,c,a` is deleted. -/
def moveHistory : List Request :=
  [.add [rdnA] [97], .add [rdnB] [98], .add [rdnC, rdnB] [99, 44, 98],
    .modrdn [rdnB] [98] rdnC rdnC (some [rdnA]), .delete [rdnC, rdnC, rdnA]]

theorem subtree_counters_exact_moveHistory :
    ∃ s, Steps (Performs []) Tables.empty moveHistory s ∧ s.id2entry = [1, 2] ∧ CountersExact s := by
  have hrun : ∃ s, Steps (Performs []) Tables.empty moveHistory s ∧ s.id2entry = [1, 2] :=
    ⟨_, .cons (performs_exec (by decide)) (.cons (performs_exec (by decide)) (.cons (performs_exec (by decide))
      (.cons (performs_exec (by decide)) (.cons (performs_exec (by decide)) .refl)))), by decide⟩
  obtain ⟨s, hs, hids⟩ := hrun
  exact ⟨s, hs, hids, (subtree_counters_exact hs).1⟩

end BackMdb
end ReOpenLDAP
