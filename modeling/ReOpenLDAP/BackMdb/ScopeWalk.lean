import ReOpenLDAP.BackMdb.Scope
import ReOpenLDAP.BackMdb.TreeHistory

/-!
# BackMdb.ScopeWalk

What `mdb_dn2id_walk` finds: every entry below the base, each once, with the RDNs from the base down
to it. It goes through the children of an entry twice, first to return them and then to push down to
those that have children themselves.
-/

namespace ReOpenLDAP
namespace BackMdb

open Forest List

inductive Up (nodes : Nodes) (k : Nat) : Nat → List (Nat × Node) → Prop where
  | refl : Up nodes k k []
  | step {x : Nat} {v : Node} {ps : List (Nat × Node)} :
      nodes x = some v → Up nodes k v.parent ps → Up nodes k x ((x, v) :: ps)

def childRecord (p : Nat × Node) : DiskNode := p.2.child p.1

section

variable {nodes : Nodes} {k : Nat}
variable {ps : List (Nat × Node)} {x : Nat}

theorem Up.reaches (h : Up nodes k x ps) : Reaches nodes.parent x k := by
  induction h with
  | refl => exact .refl k
  | step hv _ ih => exact ih.head (Nodes.parent_eq_some.mpr ⟨_, hv, rfl⟩)

theorem Up.of_reaches (h : Reaches nodes.parent x k) : ∃ ps, Up nodes k x ps := by
  induction h using Relation.ReflTransGen.head_induction_on with
  | refl => exact ⟨[], .refl⟩
  | head hp _ ih =>
    obtain ⟨v, hv, hvp⟩ := Nodes.parent_eq_some.mp hp
    obtain ⟨ps, hps⟩ := ih
    exact ⟨_, .step hv (hvp ▸ hps)⟩

theorem Up.nil_inv (h : Up nodes k x []) : x = k := by
  cases h
  rfl

theorem Up.snoc {c : Nat} {v : Node} (h : Up nodes c x ps) (hc : nodes c = some v)
    (hp : v.parent = k) : Up nodes k x (ps ++ [(c, v)]) := by
  induction h with
  | refl =>
    refine .step hc ?_
    rw [hp]
    exact .refl
  | step hv _ ih => exact .step hv ih

theorem Up.exists_child (h : Up nodes k x ps) (hne : ps ≠ []) :
    ∃ c v qs, nodes c = some v ∧ v.parent = k ∧ Up nodes c x qs ∧ ps = qs ++ [(c, v)] := by
  induction h with
  | refl => exact absurd rfl hne
  | @step x v ps hv hup ih =>
    cases hup with
    | refl => exact ⟨x, v, [], hv, rfl, .refl, rfl⟩
    | step hw hup' =>
      obtain ⟨c, u, qs, hc, hcp, hqs, heq⟩ := ih (cons_ne_nil _ _)
      refine ⟨c, u, (x, v) :: qs, hc, hcp, .step hv hqs, ?_⟩
      rw [cons_append, ← heq]

theorem Up.named {ns : List (List Byte)} (h : Up nodes k x ps)
    (hk : Named nodes k ns) : Named nodes x (ps.map (fun p => p.2.nrdn) ++ ns) := by
  induction h with
  | refl => exact hk
  | step hv _ ih => exact .node hv ih

theorem Up.pretty {rs : List (List Byte)} (h : Up nodes k x ps)
    (hk : Pretty nodes k rs) : Pretty nodes x (ps.map (fun p => p.2.rdn) ++ rs) := by
  induction h with
  | refl => exact hk
  | step hv _ ih => exact .node hv ih

end

inductive Trace (db : Dn2id) (oscope : Scope) : Walk → List (Nat × List DiskNode) → Walk → Prop where
  | refl {w : Walk} : Trace db oscope w [] w
  | next {w w1 w2 : Walk} {out : List (Nat × List DiskNode)} :
      walkStep db oscope w = .next w1 → Trace db oscope w1 out w2 → Trace db oscope w out w2
  | found {w w1 w2 : Walk} {id : Nat} {rdns : List DiskNode} {out : List (Nat × List DiskNode)} :
      walkStep db oscope w = .found w1 id rdns → Trace db oscope w1 out w2 →
      Trace db oscope w ((id, rdns) :: out) w2

section

variable {db : Dn2id} {oscope : Scope}

theorem Trace.trans {w w1 w2 : Walk} {out out' : List (Nat × List DiskNode)} (h : Trace db oscope w out w1)
    (h' : Trace db oscope w1 out' w2) : Trace db oscope w (out ++ out') w2 := by
  induction h with
  | refl => exact h'
  | next hs _ ih => exact .next hs (ih h')
  | found hs _ ih => exact .found hs (ih h')

theorem trace_children {k : Nat} {mids : List Nat} {rdns : List DiskNode} (ds : List DiskNode)
    (hlen : ds ≠ [] → rdns.length < MAXRDNS) :
    Trace db oscope ⟨k :: mids, rdns, ds, false⟩ (ds.map fun d => (d.entryID, d :: rdns))
      ⟨k :: mids, rdns, [], false⟩ := by
  induction ds with
  | nil => exact .refl
  | cons d ds ih =>
    have hlt := hlen (cons_ne_nil _ _)
    refine .found ?_ (ih fun _ => hlt)
    simp [walkStep, hlt]

theorem Dn2id.after_append {k : Nat} {pre post : List DiskNode} {d : DiskNode}
    (hs : DupSort.SortedBy DiskNode.key (db k)) (hdb : db k = pre ++ d :: post) : db.after k d.key = post := by
  have hpre : ∀ x ∈ pre, (decide (x.key ≠ d.key)) = true := by
    intro x hx
    rw [hdb] at hs
    have hlt := (List.pairwise_append.mp hs).2.2 x hx d mem_cons_self
    simpa using hlt.ne
  unfold Dn2id.after
  rw [hdb, dropWhile_append_of_pos hpre]
  simp

end

section

variable {s : Tables} {started : Bool} {nodes : Nodes} {oscope : Scope}

theorem HasRecord.own_unique {k : Nat} {a b : DiskNode} (h0 : nodes 0 = none) (ha : HasRecord nodes started k a)
    (hb : HasRecord nodes started k b) (hac : a.child = false) (hbc : b.child = false) : a = b := by
  cases ha with
  | own hv => exact (hb.eq_own hv h0 hbc).symm
  | root hk _ =>
    cases hb with
    | own hv =>
      rw [hk, h0] at hv
      cases hv
    | root _ _ => rfl
    | child _ _ => cases hbc
  | child _ _ => cases hac

variable {o : DiskNode} {v : Node} {x : Nat} {rdns : List DiskNode} {mids : List Nat} {ns : List (List Byte)} {w w' : Walk} {candidates : IDL}

theorem Represents.tail (h : Represents s.dn2id started nodes) {k : Nat} (ho : o ∈ s.dn2id k) (hoc : o.child = false) :
    ∃ ds, s.dn2id k = o :: ds ∧ ∀ d, d ∈ ds ↔ ∃ c v, nodes c = some v ∧ v.parent = k ∧ d = v.child c := by
  cases hdb : s.dn2id k with
  | nil =>
    rw [hdb] at ho
    cases ho
  | cons e ds =>
    have hsorted := h.sorted k
    rw [hdb] at hsorted ho
    have hlt := (DupSort.sortedBy_cons.mp hsorted).1
    have hrec : ∀ d, d ∈ e :: ds ↔ HasRecord nodes started k d := by
      intro d
      rw [← hdb]
      exact h.mem k d
    have heo : e = o := by
      cases ho with
      | head => rfl
      | tail _ ho =>
        cases hec : e.child with
        | true =>
          have hkey := hlt o ho
          unfold DiskNode.key at hkey
          rw [hec, hoc] at hkey
          exact absurd hkey (mkKey_own_lt_child _ _).not_gt
        | false =>
          exact HasRecord.own_unique h.root ((hrec e).mp mem_cons_self)
            ((hrec o).mp (mem_cons_of_mem _ ho)) hec hoc
    subst heo
    refine ⟨ds, rfl, ?_⟩
    intro d
    constructor
    · intro hd
      have hdrec := (hrec d).mp (mem_cons_of_mem _ hd)
      refine hdrec.exists_child ?_
      cases hdc : d.child with
      | true => rfl
      | false =>
        have hed := HasRecord.own_unique h.root ((hrec e).mp mem_cons_self) hdrec hoc hdc
        exact absurd (hlt d hd) (hed ▸ lt_irrefl _)
    · intro ⟨c, v, hc, hp, hd⟩
      have hmem := (hrec d).mpr (hd ▸ .child hc hp)
      cases hmem with
      | head =>
        rw [hd] at hoc
        cases hoc
      | tail _ hmem => exact hmem

/-- `out` are the nodes below `k`, each once, with the records on the way from `k` down. -/
def Covers (nodes : Nodes) (k : Nat) (rdns : List DiskNode) (out : List (Nat × List DiskNode)) : Prop :=
  (∀ x rs, (x, rs) ∈ out ↔ ∃ ps, ps ≠ [] ∧ Up nodes k x ps ∧ rs = ps.map childRecord ++ rdns) ∧
  (out.map Prod.fst).Nodup

theorem TreeInv.siblings_disjoint (h : TreeInv s started nodes) {a b : Nat} {w : Node} (ha : nodes a = some v)
    (hb : nodes b = some w) (hp : v.parent = w.parent) (hxa : Reaches nodes.parent x a)
    (hxb : Reaches nodes.parent x b) : a = b := by
  have hpa : nodes.parent a = some v.parent := Nodes.parent_eq_some.mpr ⟨v, ha, rfl⟩
  have hpb : nodes.parent b = some w.parent := Nodes.parent_eq_some.mpr ⟨w, hb, rfl⟩
  cases hxa.total hxb with
  | inl hab =>
    cases (reaches_of_parent hpa).mp hab with
    | inl heq => exact heq.symm
    | inr hr => exact absurd (hp ▸ hr) (h.not_reaches_node hb)
  | inr hba =>
    cases (reaches_of_parent hpb).mp hba with
    | inl heq => exact heq
    | inr hr => exact absurd (hp ▸ hr) (h.not_reaches_node ha)

theorem TreeInv.no_child_of_nsubs (h : TreeInv s started nodes) {c : Nat} (hc : nodes c = some v)
    (hsubs : v.nsubs < 2) {a : Nat} {w : Node} (ha : nodes a = some w) : w.parent ≠ c := by
  intro hp
  have hpar : nodes.parent a = some c := Nodes.parent_eq_some.mpr ⟨w, ha, hp⟩
  have hlt := size_lt_of_parent hpar (List.mem_toFinset.mpr (h.mem_of_node hc)) (hp ▸ h.not_reaches_node ha)
  have hpos := h.nsubs_pos ha
  rw [h.exact c v hc] at hsubs
  rw [h.exact a w ha] at hpos
  omega

theorem TreeInv.up_ne (h : TreeInv s started nodes) {k : Nat} {ps : List (Nat × Node)} (hup : Up nodes k x ps)
    (hne : ps ≠ []) : x ≠ k := by
  cases hup with
  | refl => exact absurd rfl hne
  | step hv hup =>
    intro hx
    exact h.not_reaches_node hv (hx ▸ hup.reaches)

theorem trace_push (h : TreeInv s started nodes) {k : Nat} {pre ds : List DiskNode} (hdb : s.dn2id k = pre ++ ds)
    (hds : ∀ d ∈ ds, ∃ c v, nodes c = some v ∧ v.parent = k ∧ d = v.child c)
    (hlen : ds ≠ [] → rdns.length < MAXRDNS)
    (hbelow : ∀ c v, nodes c = some v → v.parent = k → 2 ≤ v.nsubs →
      ∃ out, Trace s.dn2id oscope ⟨c :: k :: mids, v.child c :: rdns, (s.dn2id c).tail, false⟩ out
        ⟨c :: k :: mids, v.child c :: rdns, [], true⟩ ∧ Covers nodes c (v.child c :: rdns) out) :
    ∃ out, Trace s.dn2id oscope ⟨k :: mids, rdns, ds, true⟩ out ⟨k :: mids, rdns, [], true⟩ ∧
      (∀ x rs, (x, rs) ∈ out ↔ ∃ c v ps, nodes c = some v ∧ v.child c ∈ ds ∧ ps ≠ [] ∧ Up nodes c x ps ∧
        rs = ps.map childRecord ++ v.child c :: rdns) ∧
      (out.map Prod.fst).Nodup := by
  induction ds generalizing pre with
  | nil => exact ⟨[], .refl, by simp, by simp⟩
  | cons d ds ih =>
    obtain ⟨out, htrace, hout, hnd⟩ := @ih (pre ++ [d]) (by rw [hdb]; simp) (fun e he => hds e (mem_cons_of_mem _ he))
      (fun _ => hlen (cons_ne_nil _ _))
    obtain ⟨c, v, hc, hp, rfl⟩ := hds d mem_cons_self
    have hsame : ∀ {c' : Nat} {v' : Node}, nodes c' = some v' → v'.child c' = v.child c → c' = c ∧ v' = v := by
      intro c' v' hc' heq
      have hcc := (Node.child_inj heq).1
      subst hcc
      exact ⟨rfl, Option.some.inj (hc'.symm.trans hc)⟩
    if hsubs : v.nsubs < 2 then
      -- no children, go to next sibling
      refine ⟨out, .next (by simp [walkStep, Node.child, hsubs]) htrace, ?_, hnd⟩
      intro x rs
      rw [hout]
      constructor
      · rintro ⟨c', v', ps, hc', hmem, hrest⟩
        exact ⟨c', v', ps, hc', mem_cons_of_mem _ hmem, hrest⟩
      · rintro ⟨c', v', ps, hc', hmem, hne, hup, hrs⟩
        refine ⟨c', v', ps, hc', ?_, hne, hup, hrs⟩
        cases List.mem_cons.mp hmem with
        | inr hmem => exact hmem
        | inl heq =>
          obtain ⟨rfl, rfl⟩ := hsame hc' heq
          obtain ⟨a, w, -, ha, hw, -, -⟩ := hup.exists_child hne
          exact absurd hw (h.no_child_of_nsubs hc hsubs ha)
    else
      have hlt := hlen (cons_ne_nil _ _)
      obtain ⟨out₁, htrace₁, hcov, hnd₁⟩ := hbelow c v hc hp (by omega)
      have hpush : walkStep s.dn2id oscope ⟨k :: mids, rdns, v.child c :: ds, true⟩ =
          .next ⟨c :: k :: mids, v.child c :: rdns, (s.dn2id c).tail, false⟩ := by
        simp [walkStep, Node.child, hsubs, hlt]
      have hpop : walkStep s.dn2id oscope ⟨c :: k :: mids, v.child c :: rdns, [], true⟩ =
          .next ⟨k :: mids, rdns, ds, true⟩ := by
        have hafter := Dn2id.after_append (h.rep.sorted k) hdb
        show WalkStep.next ⟨k :: mids, rdns, s.dn2id.after k (v.child c).key, true⟩ = _
        rw [hafter]
      refine ⟨out₁ ++ out, .next hpush (htrace₁.trans (.next hpop htrace)), ?_, ?_⟩
      · intro x rs
        rw [mem_append, hcov, hout]
        constructor
        · intro hx
          cases hx with
          | inl hx =>
            obtain ⟨ps, hne, hup, hrs⟩ := hx
            exact ⟨c, v, ps, hc, mem_cons_self, hne, hup, hrs⟩
          | inr hx =>
            obtain ⟨c', v', ps, hc', hmem, hrest⟩ := hx
            exact ⟨c', v', ps, hc', mem_cons_of_mem _ hmem, hrest⟩
        · rintro ⟨c', v', ps, hc', hmem, hne, hup, hrs⟩
          cases List.mem_cons.mp hmem with
          | inr hmem => exact .inr ⟨c', v', ps, hc', hmem, hne, hup, hrs⟩
          | inl heq =>
            obtain ⟨rfl, rfl⟩ := hsame hc' heq
            exact .inl ⟨ps, hne, hup, hrs⟩
      · rw [map_append]
        refine List.nodup_append.mpr ⟨hnd₁, hnd, ?_⟩
        -- two children have no descendant in common
        intro x hx y hy hxy
        subst hxy
        obtain ⟨⟨_, rs⟩, hmem, rfl⟩ := List.mem_map.mp hx
        obtain ⟨⟨_, rs'⟩, hmem', hfst⟩ := List.mem_map.mp hy
        obtain ⟨ps, -, hup, -⟩ := (hcov _ _).mp hmem
        obtain ⟨c', v', ps', hc', hin, -, hup', -⟩ := (hout _ _).mp hmem'
        simp only at hfst hup
        rw [hfst] at hup'
        obtain ⟨c'', v'', hc'', hp'', heq⟩ := hds _ (mem_cons_of_mem _ hin)
        obtain ⟨hcc, -⟩ := Node.child_inj heq
        subst hcc
        rw [hc'] at hc''
        cases hc''
        have hcc := h.siblings_disjoint hc hc' (hp.trans hp''.symm) hup.reaches hup'.reaches
        subst hcc
        rw [hc] at hc'
        cases hc'
        have hsorted := h.rep.sorted k
        rw [hdb] at hsorted
        have hlt := (DupSort.sortedBy_cons.mp (List.pairwise_append.mp hsorted).2.1).1 _ hin
        exact absurd hlt (lt_irrefl _)

theorem children_nodup (h : TreeInv s started nodes) {k : Nat} {ds : List DiskNode}
    (hdb : s.dn2id k = o :: ds) (hds : ∀ d ∈ ds, ∃ c v, nodes c = some v ∧ v.parent = k ∧ d = v.child c) :
    (ds.map DiskNode.entryID).Nodup := by
  have hsorted := h.rep.sorted k
  rw [hdb] at hsorted
  refine (List.Pairwise.and_mem.mp (DupSort.sortedBy_cons.mp hsorted).2).map _ ?_
  intro a b ⟨ha, hb, hkey⟩ hid
  obtain ⟨c, v, hc, -, rfl⟩ := hds a ha
  obtain ⟨c', v', hc', -, rfl⟩ := hds b hb
  have hcc : c = c' := hid
  subst hcc
  rw [hc] at hc'
  cases hc'
  exact absurd hkey (lt_irrefl _)

theorem trace_level (h : TreeInv s started nodes) (hscope : oscope ≠ .onelevel) {k : Nat} (ho : o ∈ s.dn2id k) (hoc : o.child = false)
    (hlen : ∀ c v, nodes c = some v → v.parent = k → rdns.length < MAXRDNS)
    (hbelow : ∀ c v, nodes c = some v → v.parent = k → 2 ≤ v.nsubs →
      ∃ out, Trace s.dn2id oscope ⟨c :: k :: mids, v.child c :: rdns, (s.dn2id c).tail, false⟩ out
        ⟨c :: k :: mids, v.child c :: rdns, [], true⟩ ∧ Covers nodes c (v.child c :: rdns) out) :
    ∃ out, Trace s.dn2id oscope ⟨k :: mids, rdns, (s.dn2id k).tail, false⟩ out ⟨k :: mids, rdns, [], true⟩ ∧
      Covers nodes k rdns out := by
  obtain ⟨ds, hdb, hds⟩ := h.rep.tail ho hoc
  have hlen' : ds ≠ [] → rdns.length < MAXRDNS := by
    intro hne
    obtain ⟨d, hd⟩ := exists_mem_of_ne_nil ds hne
    obtain ⟨c, v, hc, hp, -⟩ := (hds d).mp hd
    exact hlen c v hc hp
  obtain ⟨out, htrace, hout, hnd⟩ := trace_push h (show s.dn2id k = [o] ++ ds from hdb) (fun d hd => (hds d).mp hd) hlen' hbelow
  have hreset : walkStep s.dn2id oscope ⟨k :: mids, rdns, [], false⟩ = .next ⟨k :: mids, rdns, ds, true⟩ := by
    simp [walkStep, hscope, hdb]
  have htail : (s.dn2id k).tail = ds := by rw [hdb, tail_cons]
  rw [htail]
  refine ⟨_, (trace_children ds hlen').trans (.next hreset htrace), ?_, ?_⟩
  · intro x rs
    rw [mem_append, hout]
    constructor
    · intro hx
      cases hx with
      | inl hx =>
        obtain ⟨d, hd, heq⟩ := List.mem_map.mp hx
        obtain ⟨c, v, hc, hp, rfl⟩ := (hds d).mp hd
        cases heq
        refine ⟨[(c, v)], cons_ne_nil _ _, .step hc ?_, rfl⟩
        rw [hp]
        exact .refl
      | inr hx =>
        obtain ⟨c, v, ps, hc, hmem, -, hup, rfl⟩ := hx
        obtain ⟨c', v', hc', hp', heq⟩ := (hds _).mp hmem
        obtain ⟨hcc, -⟩ := Node.child_inj heq
        subst hcc
        rw [hc] at hc'
        cases hc'
        exact ⟨ps ++ [(c, v)], by simp, hup.snoc hc hp', by simp [childRecord]⟩
    · intro ⟨ps, hne, hup, hrs⟩
      obtain ⟨c, v, qs, hc, hp, hqs, rfl⟩ := hup.exists_child hne
      have hmem := (hds (v.child c)).mpr ⟨c, v, hc, hp, rfl⟩
      cases qs with
      | nil =>
        left
        cases hqs
        exact List.mem_map.mpr ⟨_, hmem, by rw [hrs]; rfl⟩
      | cons q qs => exact .inr ⟨c, v, q :: qs, hc, hmem, cons_ne_nil _ _, hqs, by simp [hrs, childRecord]⟩
  · rw [map_append]
    refine List.nodup_append.mpr ⟨?_, hnd, ?_⟩
    · rw [List.map_map]
      exact children_nodup h hdb fun d hd => (hds d).mp hd
    · intro x hx y hy hxy
      subst hxy
      obtain ⟨p, hp, rfl⟩ := List.mem_map.mp hx
      obtain ⟨d, hd, rfl⟩ := List.mem_map.mp hp
      obtain ⟨c, v, hc, hcp, rfl⟩ := (hds d).mp hd
      obtain ⟨⟨x, rs⟩, hmem, hfst⟩ := List.mem_map.mp hy
      obtain ⟨c', v', ps, hc', hin, hne, hup, -⟩ := (hout _ _).mp hmem
      have hxc : x = c := hfst
      subst hxc
      obtain ⟨c'', v'', hc'', hp'', heq⟩ := (hds _).mp hin
      obtain ⟨hcc, -⟩ := Node.child_inj heq
      subst hcc
      rw [hc'] at hc''
      cases hc''
      exact h.up_ne hup hne (h.siblings_disjoint hc hc' (hcp.trans hp''.symm) (.refl _) hup.reaches)

theorem trace_node (h : TreeInv s started nodes) (hscope : oscope ≠ .onelevel)
    (hdepth : ∀ x ns, Named nodes x ns → ns.length ≤ MAXRDNS) {k : Nat} (hv : nodes k = some v) (hk : Named nodes k ns)
    (hr : rdns.length ≤ ns.length) :
    ∃ out, Trace s.dn2id oscope ⟨k :: mids, rdns, (s.dn2id k).tail, false⟩ out ⟨k :: mids, rdns, [], true⟩ ∧
      Covers nodes k rdns out := by
  induction hn : size nodes.parent s.id2entry.toFinset k using Nat.strong_induction_on
    generalizing k v mids rdns ns with
  | _ n ih =>
    have hnamed : ∀ c w, nodes c = some w → w.parent = k → Named nodes c (w.nrdn :: ns) := by
      intro c w hc hp
      refine .node hc ?_
      rw [hp]
      exact hk
    refine trace_level h hscope ((h.rep.mem _ _).mpr (.own hv)) rfl ?_ ?_
    · intro c w hc hp
      have hlen := hdepth c _ (hnamed c w hc hp)
      rw [length_cons] at hlen
      omega
    · intro c w hc hp _
      have hpar : nodes.parent c = some k := Nodes.parent_eq_some.mpr ⟨w, hc, hp⟩
      have hlt := size_lt_of_parent hpar (List.mem_toFinset.mpr (h.mem_of_node hv)) (hp ▸ h.not_reaches_node hc)
      exact ih _ (hn ▸ hlt) hc (hnamed c w hc hp) (by simpa using hr) rfl

theorem trace_base (h : TreeInv s started nodes) (hscope : oscope ≠ .onelevel)
    (hdepth : ∀ x ns, Named nodes x ns → ns.length ≤ MAXRDNS) {k : Nat} {o : DiskNode} {ns : List (List Byte)}
    (ho : o ∈ s.dn2id k) (hoc : o.child = false) (hk : Named nodes k ns) :
    ∃ out, Trace s.dn2id oscope ⟨[k], [], (s.dn2id k).tail, false⟩ out ⟨[k], [], [], true⟩ ∧
      Covers nodes k [] out := by
  have hnamed : ∀ c w, nodes c = some w → w.parent = k → Named nodes c (w.nrdn :: ns) := by
    intro c w hc hp
    refine .node hc ?_
    rw [hp]
    exact hk
  refine trace_level h hscope ho hoc (fun _ _ _ _ => by decide) ?_
  intro c w hc hp _
  exact trace_node h hscope hdepth hc (hnamed c w hc hp) (by simp)

/-! ## All calls -/

/-- What `mdb_dn2id_walk` answers with when it is called until it fails: `numrdns`, the ID and the RDNs; and how it fails. -/
def walkCalls (db : Dn2id) (oscope : Scope) (fuel : Nat) :
    Nat → Except Rc (Walk × Nat × List DiskNode) → List (Nat × Nat × List DiskNode) × Rc
  | 0, _ => ([], .bad)
  | calls + 1, answer =>
    match answer with
    | .error rc => ([], rc)
    | .ok (w, id, rdns) =>
      ((w.mids.length, id, rdns) :: (walkCalls db oscope fuel calls (walkNext db oscope fuel w)).1,
        (walkCalls db oscope fuel calls (walkNext db oscope fuel w)).2)

/-- The answer for a node: at the base `numrdns` is 1 already. -/
def walkAnswer (p : Nat × List DiskNode) : Nat × Nat × List DiskNode := (max 1 p.2.length, p)

theorem Walk.numrdns_next (hw : w.mids.length = w.rdns.length + 1) (h : walkStep db oscope w = .next w') :
    w'.mids.length = w'.rdns.length + 1 := by
  obtain ⟨mids, rdns, cur, down⟩ := w
  unfold walkStep at h
  cases mids with
  | nil => cases h
  | cons mid mids =>
    cases cur with
    | cons d cur =>
      dsimp only at h
      split_ifs at h <;> cases h <;> simpa using hw
    | nil =>
      dsimp only at h
      split_ifs at h
      · cases h
        exact hw
      · split at h <;> cases h
        simpa using hw

theorem Walk.numrdns_found {id : Nat} (hw : w.mids.length = w.rdns.length + 1)
    (h : walkStep db oscope w = .found w' id rdns) : w'.mids.length = w'.rdns.length + 1 ∧ (w'.mids.length, id, rdns) = walkAnswer (id, rdns) := by
  obtain ⟨mids, rdns, cur, down⟩ := w
  unfold walkStep at h
  cases mids with
  | nil => cases h
  | cons mid mids =>
    cases cur with
    | cons d cur =>
      dsimp only at h
      split_ifs at h
      cases h
      simpa [walkAnswer] using hw
    | nil =>
      dsimp only at h
      split_ifs at h
      split at h <;> cases h

theorem walkCalls_of_trace {out : List (Nat × List DiskNode)} (htrace : Trace db oscope w out w')
    (hstop : walkStep db oscope w' = .stop .notfound) (hb : oscope ≠ .base) (hw : w.mids.length = w.rdns.length + 1) :
    ∃ F, ∀ f fuel calls, F ≤ f → F ≤ fuel → F ≤ calls →
      walkCalls db oscope fuel calls (walkRounds db oscope f w) = (out.map walkAnswer, .notfound) := by
  induction htrace with
  | refl =>
    refine ⟨1, ?_⟩
    intro f fuel calls hf _ hcalls
    obtain ⟨f, rfl⟩ := Nat.exists_eq_add_of_le' hf
    obtain ⟨calls, rfl⟩ := Nat.exists_eq_add_of_le' hcalls
    simp [walkRounds, hstop, walkCalls]
  | next hs _ ih =>
    obtain ⟨F, hF⟩ := ih hstop (Walk.numrdns_next hw hs)
    refine ⟨F + 1, ?_⟩
    intro f fuel calls hf hfuel hcalls
    obtain ⟨f, rfl⟩ := Nat.exists_eq_add_of_le' (Nat.one_le_of_lt hf)
    rw [walkRounds, hs]
    exact hF f fuel calls (by omega) (by omega) (by omega)
  | @found w w1 w2 id rdns out hs _ ih =>
    obtain ⟨hw1, hanswer⟩ := Walk.numrdns_found hw hs
    obtain ⟨F, hF⟩ := ih hstop hw1
    refine ⟨F + 1, ?_⟩
    intro f fuel calls hf hfuel hcalls
    obtain ⟨f, rfl⟩ := Nat.exists_eq_add_of_le' (Nat.one_le_of_lt hf)
    obtain ⟨calls, rfl⟩ := Nat.exists_eq_add_of_le' (Nat.one_le_of_lt hcalls)
    rw [walkRounds, hs, walkCalls, walkNext, if_neg hb, hF fuel fuel calls (by omega) (by omega) (by omega), hanswer]
    rfl

def Scope.Allows : Scope → List (Nat × Node) → Prop
  | .base, ps => ps = []
  | .onelevel, ps => ps.length = 1
  | .subtree, _ => True
  | .children, ps => ps ≠ []

def entryAt (base : DnEntry) (x : Nat) (ps : List (Nat × Node)) : DnEntry :=
  if ps = [] then base else childEntry x (ps.map childRecord) base.name base.nname

theorem TreeInv.lt_NOID (h : TreeInv s started nodes) (hnoid : ∀ x ∈ s.id2entry, x < NOID) (hx : Named nodes x ns) : x < NOID := by
  cases hx with
  | root => decide
  | node hv _ => exact hnoid x (h.mem_of_node hv)

theorem inCandidates_iff (hv : candidates.Valid) (x : Nat) : inCandidates candidates x = true ↔ x ∈ candidates.denote := by
  cases candidates with
  | list ids => simp [inCandidates, Search.search_found hv.1]
  | range lo hi => simp [inCandidates]

theorem walkCalls_spec (h : TreeInv s started nodes) (hdepth : ∀ x ns, Named nodes x ns → ns.length ≤ MAXRDNS) {id : Nat} (ho : o ∈ s.dn2id id) (hoc : o.child = false) (hk : Named nodes id ns) (oscope : Scope) :
    ∃ (F : Nat) (out : List (Nat × List DiskNode)), (∀ fuel, F ≤ fuel →
        walkCalls s.dn2id oscope fuel fuel (walkFirst s.dn2id oscope fuel id) = (out.map walkAnswer, .notfound)) ∧
      (out.map Prod.fst).Nodup ∧
      ∀ x rs, (x, rs) ∈ out ↔ ∃ ps, Up nodes id x ps ∧ oscope.Allows ps ∧ rs = ps.map childRecord := by
  obtain ⟨ds, hdb, hds⟩ := h.rep.tail ho hoc
  have hset : s.dn2id.set id = .ok o := by
    unfold Dn2id.set
    rw [hdb]
  have hstop : oscope ≠ .onelevel → walkStep s.dn2id oscope ⟨[id], [], [], true⟩ = .stop .notfound := by
    intro _
    simp [walkStep]
  cases oscope with
  | base =>
    refine ⟨2, [(id, [])], ?_, by simp, ?_⟩
    · intro fuel hfuel
      obtain ⟨fuel, rfl⟩ := Nat.exists_eq_add_of_le' hfuel
      simp [walkFirst, hset, walkCalls, walkNext, Except.map, walkAnswer]
    · intro x rs
      constructor
      · intro hx
        cases List.mem_singleton.mp hx
        exact ⟨[], .refl, rfl, rfl⟩
      · intro ⟨ps, hup, hps, hrs⟩
        have hnil : ps = [] := hps
        subst hnil
        cases hup
        rw [hrs]
        exact List.mem_singleton.mpr rfl
  | onelevel =>
    have htail : (s.dn2id id).tail = ds := by rw [hdb, tail_cons]
    have htrace := @trace_children s.dn2id .onelevel id [] [] ds (fun _ => by decide)
    have hend : walkStep s.dn2id .onelevel ⟨[id], [], [], false⟩ = .stop .notfound := by simp [walkStep]
    obtain ⟨F, hF⟩ := walkCalls_of_trace htrace hend (by decide) rfl
    refine ⟨F, ds.map fun d => (d.entryID, [d]), ?_, ?_, ?_⟩
    · intro fuel hfuel
      rw [walkFirst, if_neg (by decide), htail]
      exact hF fuel fuel fuel hfuel hfuel hfuel
    · rw [List.map_map]
      exact children_nodup h hdb fun d hd => (hds d).mp hd
    · intro x rs
      constructor
      · intro hx
        obtain ⟨d, hd, heq⟩ := List.mem_map.mp hx
        obtain ⟨c, v, hc, hp, rfl⟩ := (hds d).mp hd
        cases heq
        refine ⟨[(c, v)], .step hc ?_, rfl, rfl⟩
        rw [hp]
        exact .refl
      · intro ⟨ps, hup, hps, hrs⟩
        cases hup with
        | refl => cases hps
        | @step _ v ps hv hup =>
          have hnil : ps = [] := List.length_eq_zero_iff.mp (Nat.succ.inj hps)
          subst hnil
          exact List.mem_map.mpr ⟨v.child x, (hds _).mpr ⟨x, v, hv, hup.nil_inv, rfl⟩, by rw [hrs]; rfl⟩
  | subtree =>
    obtain ⟨out, htrace, hcov, hnd⟩ := @trace_base s started nodes .subtree h (by decide) hdepth _ o ns ho hoc hk
    obtain ⟨F, hF⟩ := walkCalls_of_trace htrace (hstop (by decide)) (by decide) rfl
    refine ⟨F + 1, (id, []) :: out, ?_, ?_, ?_⟩
    · intro fuel hfuel
      obtain ⟨calls, rfl⟩ := Nat.exists_eq_add_of_le' (Nat.one_le_of_lt hfuel)
      rw [walkFirst, if_pos (.inl rfl), hset]
      simp only [Except.map]
      rw [walkCalls, walkNext, if_neg (by decide), hF _ _ _ (by omega) (by omega) (by omega)]
      rfl
    · rw [map_cons]
      refine List.nodup_cons.mpr ⟨?_, hnd⟩
      intro hmem
      obtain ⟨⟨x, rs⟩, hp, hx⟩ := List.mem_map.mp hmem
      obtain ⟨ps, hne, hup, -⟩ := (hcov x rs).mp hp
      exact h.up_ne hup hne hx
    · intro x rs
      rw [mem_cons, hcov]
      constructor
      · intro hx
        cases hx with
        | inl hx =>
          cases hx
          exact ⟨[], .refl, trivial, rfl⟩
        | inr hx =>
          obtain ⟨ps, -, hup, hrs⟩ := hx
          exact ⟨ps, hup, trivial, by simpa using hrs⟩
      · intro ⟨ps, hup, _, hrs⟩
        if hps : ps = [] then
          left
          rw [hps] at hup hrs
          rw [hup.nil_inv, hrs]
          rfl
        else exact .inr ⟨ps, hps, hup, by simpa using hrs⟩
  | children =>
    obtain ⟨out, htrace, hcov, hnd⟩ := @trace_base s started nodes .children h (by decide) hdepth _ o ns ho hoc hk
    obtain ⟨F, hF⟩ := walkCalls_of_trace htrace (hstop (by decide)) (by decide) rfl
    refine ⟨F, out, ?_, hnd, ?_⟩
    · intro fuel hfuel
      rw [walkFirst, if_neg (by decide)]
      exact hF fuel fuel fuel hfuel hfuel hfuel
    · intro x rs
      rw [hcov]
      constructor
      · intro ⟨ps, hne, hup, hrs⟩
        exact ⟨ps, hup, hne, by simpa using hrs⟩
      · intro ⟨ps, hup, hne, hrs⟩
        exact ⟨ps, hne, hup, by simpa using hrs⟩

theorem walkLoop_of_calls {base : DnEntry} {fuel calls : Nat} {out : List (Nat × List DiskNode)}
    {answer : Except Rc (Walk × Nat × List DiskNode)}
    (h : walkCalls s.dn2id oscope fuel calls answer = (out.map walkAnswer, .notfound)) (hid : ∀ p ∈ out, p.1 ≠ NOID) :
    walkLoop s base oscope candidates fuel calls answer = .ok (out.flatMap fun p => walked s base candidates p.1 p.2) := by
  induction calls generalizing out answer with
  | zero => simp [walkCalls] at h
  | succ calls ih =>
    match answer, out with
    | .error rc, [] =>
      obtain rfl : rc = .notfound := (Prod.mk.inj h).2
      rfl
    | .error rc, _ :: _ => cases (Prod.mk.inj h).1
    | .ok _, [] => cases (Prod.mk.inj h).1
    | .ok (w, id, rdns), p :: out =>
      obtain ⟨hout, hrc⟩ := Prod.mk.inj h
      obtain ⟨hp, hrest⟩ := List.cons.inj hout
      obtain rfl : (id, rdns) = p := congrArg Prod.snd hp
      rw [walkLoop, if_neg (hid _ mem_cons_self), ih (Prod.ext hrest hrc) fun p hp => hid p (mem_cons_of_mem _ hp)]
      rfl

theorem mem_walked (h : TreeInv s started nodes) {base : DnEntry} (hv : candidates.Valid)
    {ps : List (Nat × Node)} (hup : Up nodes base.id x ps) {e : DnEntry} :
    e ∈ walked s base candidates x (ps.map childRecord) ↔ x ∈ candidates.denote ∧ e = entryAt base x ps := by
  rw [← inCandidates_iff hv]
  unfold walked entryAt
  cases hup with
  | refl => simp
  | @step _ v ps hv' hup =>
    have hne : x ≠ base.id := h.up_ne (.step hv' hup) (cons_ne_nil _ _)
    have hmem := h.mem_of_node hv'
    simp [hne, hmem]

theorem walked_ids {base : DnEntry} (out : List (Nat × List DiskNode)) :
    ((out.flatMap fun p => walked s base candidates p.1 p.2).map DnEntry.id).Sublist (out.map Prod.fst) := by
  induction out with
  | nil => simp
  | cons p out ih =>
    have hp : (walked s base candidates p.1 p.2).map DnEntry.id = [] ∨
        (walked s base candidates p.1 p.2).map DnEntry.id = [p.1] := by
      unfold walked
      split_ifs with hc hb hm
      · exact .inr (by simp [hb])
      · exact .inr rfl
      · exact .inl rfl
      · exact .inl rfl
    rw [flatMap_cons, map_append, map_cons]
    cases hp with
    | inl hp =>
      rw [hp]
      exact ih.cons _
    | inr hp =>
      rw [hp]
      exact ih.cons_cons _

theorem walkLoop_spec (h : TreeInv s started nodes) (hdepth : ∀ x ns, Named nodes x ns → ns.length ≤ MAXRDNS)
    (hnoid : ∀ x ∈ s.id2entry, x < NOID) {base : DnEntry}
    (ho : o ∈ s.dn2id base.id) (hoc : o.child = false) (hk : Named nodes base.id ns) (hv : candidates.Valid)
    (oscope : Scope) :
    ∃ (F : Nat) (out : List DnEntry), (∀ fuel, F ≤ fuel →
        walkLoop s base oscope candidates fuel fuel (walkFirst s.dn2id oscope fuel base.id) = .ok out) ∧
      (out.map DnEntry.id).Nodup ∧
      ∀ e, e ∈ out ↔ ∃ x ps, Up nodes base.id x ps ∧ oscope.Allows ps ∧ x ∈ candidates.denote ∧
        e = entryAt base x ps := by
  obtain ⟨F, out, hcalls, hnd, hout⟩ := walkCalls_spec h hdepth ho hoc hk oscope
  have hids : ∀ p ∈ out, p.1 ≠ NOID := by
    intro ⟨x, rs⟩ hp
    obtain ⟨ps, hup, -⟩ := (hout x rs).mp hp
    exact (h.lt_NOID hnoid (hup.named hk)).ne
  refine ⟨F, _, fun fuel hfuel => walkLoop_of_calls (hcalls fuel hfuel) hids, (walked_ids out).nodup hnd, ?_⟩
  intro e
  rw [mem_flatMap]
  constructor
  · intro ⟨⟨x, rs⟩, hp, he⟩
    obtain ⟨ps, hup, hallow, rfl⟩ := (hout x rs).mp hp
    obtain ⟨hc, he⟩ := (mem_walked h hv hup).mp he
    exact ⟨x, ps, hup, hallow, hc, he⟩
  · intro ⟨x, ps, hup, hallow, hc, he⟩
    exact ⟨(x, ps.map childRecord), (hout _ _).mpr ⟨ps, hup, hallow, rfl⟩, (mem_walked h hv hup).mpr ⟨hc, he⟩⟩

end
end BackMdb
end ReOpenLDAP
