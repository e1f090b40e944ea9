import ReOpenLDAP.BackMdb.TreeHistory

/-!
# BackMdb.DnMap

dn2id as a map from normalized DNs to IDs. A `Directory` gives the names of each entry, and
`Directory.apply` says what a request means for it, without a word about dn2id.

`mdb_modrdn` with an empty newSuperior leaves the entry under its parent and stores its new RDN there,
so the map and dn2id part at that request unless the parent is the root. `KeepsSuperior` excludes it.
-/

namespace ReOpenLDAP
namespace BackMdb

open Forest List Option Function

abbrev Directory := Nat → Option (List (List Byte))

def Directory.empty : Directory := fun x => if x = 0 then some [] else none

/-- A subtree of `old` gets `new` in its place. -/
def renamed (old new ns : List (List Byte)) : List (List Byte) :=
  if old <:+ ns then ns.take (ns.length - old.length) ++ new else ns

def newDn (ndn : Dn) (nnewrdn : Rdn) (newSup : Option Dn) : Dn := nnewrdn :: newSup.getD ndn.tail

/-- What a request means; `id` is the ID of the entry that an add makes. -/
def Directory.apply (suffix : List Byte) (id : Nat) (dir : Directory) : Request → Directory
  | .add ndn _ => Function.update dir id (some (ndn.parts suffix))
  | .delete ndn => fun x => if dir x = some (ndn.parts suffix) then none else dir x
  | .modrdn ndn _ nnewrdn _ newSup => fun x =>
    (dir x).map (renamed (ndn.parts suffix) ((newDn ndn nnewrdn newSup).parts suffix))

/-- The empty DN is the new superior only of an entry that is below the root already. -/
def KeepsSuperior (suffix : List Byte) : Request → Prop
  | .modrdn ndn _ _ _ (some sup) => sup.str suffix = [] → dnParent (ndn.str suffix) = []
  | _ => True

def MapStep (suffix : List Byte) (a : Tables × Directory) (q : Request) (b : Tables × Directory) : Prop :=
  Performs suffix a.1 q b.1 ∧ b.2 = a.2.apply suffix (mdbNextId ⟨a.1.id2entry, 0⟩) q

section

variable {nodes nodes' : Nodes}
variable {x e : Nat} {ns : List (List Byte)}

theorem Nodes.labels_eq_some {p : Nat} {n r : List Byte} :
    nodes.labels x = some (p, n, r) ↔ ∃ v, nodes x = some v ∧ v.parent = p ∧ v.nrdn = n ∧ v.rdn = r := by
  simp [Nodes.labels]

theorem Named.of_labels {l : Option (Nat × List Byte × List Byte)}
    (hlabels : nodes'.labels = Function.update nodes.labels e l) (hx : Named nodes x ns)
    (hxe : ¬ Reaches nodes.parent x e) : Named nodes' x ns := by
  refine hx.congr ?_
  intro y hy v hv
  have hye : y ≠ e := fun he => hxe (he ▸ hy)
  have hlab : nodes'.labels y = some (v.parent, v.nrdn, v.rdn) := by
    rw [hlabels, update_of_ne hye]
    exact Nodes.labels_eq_some.mpr ⟨v, hv, rfl, rfl, rfl⟩
  obtain ⟨v', hv', hp, hn, -⟩ := Nodes.labels_eq_some.mp hlab
  exact ⟨v', hv', hp, hn⟩

theorem Named.suffix_iff {db : Dn2id} {started : Bool} (hr : Represents db started nodes)
    {old : List (List Byte)} (he : Named nodes e old) (hx : Named nodes x ns) :
    old <:+ ns ↔ Reaches nodes.parent x e := by
  constructor
  · intro hsuf
    obtain ⟨low, rfl⟩ := hsuf
    induction low generalizing x with
    | nil =>
      rw [hx.inj hr he]
      exact .refl e
    | cons n low ih =>
      obtain ⟨v, hv, -, hvp⟩ := hx.cons_inv
      exact (ih hvp).head (Nodes.parent_eq_some.mpr ⟨v, hv, rfl⟩)
  · intro hreach
    exact hx.suffix_of_reaches hr.root he hreach

theorem Named.relabel {db : Dn2id} {started : Bool} (hr : Represents db started nodes) {q : Nat} {n r : List Byte}
    {old qs : List (List Byte)} (hlabels : nodes'.labels = Function.update nodes.labels e (some (q, n, r)))
    (he : Named nodes e old) (hq : Named nodes q qs) (hqe : ¬ Reaches nodes.parent q e) (hx : Named nodes x ns) : Named nodes' x (renamed old (n :: qs) ns) := by
  have hq' := hq.of_labels hlabels hqe
  have he' : Named nodes' e (n :: qs) := by
    have hlab : nodes'.labels e = some (q, n, r) := by rw [hlabels, update_self]
    obtain ⟨v', hv', hp, hn, -⟩ := Nodes.labels_eq_some.mp hlab
    rw [← hn]
    refine .node hv' ?_
    rw [hp]
    exact hq'
  unfold renamed
  split_ifs with hsuf
  · obtain ⟨low, rfl⟩ := hsuf
    rw [length_append, Nat.add_sub_cancel, take_left]
    induction low generalizing x with
    | nil =>
      rw [hx.inj hr he]
      exact he'
    | cons m low ih =>
      obtain ⟨v, hv, hm, hvp⟩ := hx.cons_inv
      -- a node properly below `e` is not `e`
      have hxe : x ≠ e := by
        intro hxe
        rw [hxe] at hx
        have hlen := congrArg List.length (hx.det hr.root he)
        simp only [length_append, length_cons] at hlen
        omega
      have hlab : nodes'.labels x = some (v.parent, v.nrdn, v.rdn) := by
        rw [hlabels, update_of_ne hxe]
        exact Nodes.labels_eq_some.mpr ⟨v, hv, rfl, rfl, rfl⟩
      obtain ⟨v', hv', hp, hn, -⟩ := Nodes.labels_eq_some.mp hlab
      rw [cons_append, ← hm, ← hn]
      refine .node hv' ?_
      rw [hp]
      exact ih hvp
  · exact hx.of_labels hlabels fun hreach => hsuf ((he.suffix_iff hr hx).mpr hreach)

end

def Agree (nodes : Nodes) (dir : Directory) : Prop := ∀ x ns, dir x = some ns ↔ Named nodes x ns

section

variable {suffix : List Byte} {s s' : Tables} {started st : Bool} {nodes nodes' : Nodes} {dir dir' : Directory}

theorem Named.zero_or_labels {x : Nat} {ns : List (List Byte)} (h : Named nodes x ns) : x = 0 ∨ nodes.labels x ≠ none := by
  cases h with
  | root => exact .inl rfl
  | node hv _ =>
    right
    unfold Nodes.labels
    rw [hv]
    simp

theorem Agree.of_total (h' : TreeInv s' st nodes') (hname : ∀ x ns, dir' x = some ns → Named nodes' x ns)
    (htotal : ∀ x, x = 0 ∨ nodes'.labels x ≠ none → dir' x ≠ none) : Agree nodes' dir' := by
  intro x ns
  constructor
  · exact hname x ns
  · intro hx
    obtain ⟨ms, hms⟩ := Option.ne_none_iff_exists'.mp (htotal x hx.zero_or_labels)
    rw [hms, (hname x ms hms).det h'.rep.root hx]

theorem Agree.total (h : TreeInv s started nodes) (ha : Agree nodes dir) {x : Nat}
    (hx : x = 0 ∨ nodes.labels x ≠ none) : dir x ≠ none := by
  have hnamed : ∃ ns, Named nodes x ns := by
    cases hx with
    | inl hx => exact ⟨[], hx ▸ .root⟩
    | inr hx =>
      refine h.named ((h.ids x).mpr ?_)
      intro hnone
      rw [Nodes.labels, hnone] at hx
      exact hx rfl
  obtain ⟨ns, hns⟩ := hnamed
  rw [(ha x ns).mpr hns]
  exact some_ne_none ns

theorem Agree.add (h : TreeInv s started nodes) (h' : TreeInv s' st nodes') (ha : Agree nodes dir) {e pid : Nat}
    {n r : List Byte} {up : List (List Byte)} (hup : Named nodes pid up) (hnew : nodes e = none) (he0 : e ≠ 0)
    (hlabels : nodes'.labels = Function.update nodes.labels e (some (pid, n, r))) :
    Agree nodes' (Function.update dir e (some (n :: up))) := by
  have hnot : ∀ {x ns}, Named nodes x ns → ¬ Reaches nodes.parent x e := by
    intro x ns hx hreach
    obtain ⟨ms, hms⟩ := hx.of_reaches h.rep.root hreach
    cases hms with
    | root => exact he0 rfl
    | node hv _ =>
      rw [hnew] at hv
      cases hv
  refine Agree.of_total h' ?_ ?_
  · intro x ns hx
    if hxe : x = e then
      rw [hxe, update_self] at hx
      cases hx
      have hlab : nodes'.labels e = some (pid, n, r) := by rw [hlabels, update_self]
      obtain ⟨v', hv', hp, hn, -⟩ := Nodes.labels_eq_some.mp hlab
      rw [hxe, ← hn]
      refine .node hv' ?_
      rw [hp]
      exact hup.of_labels hlabels (hnot hup)
    else
      rw [update_of_ne hxe] at hx
      have hxn := (ha x ns).mp hx
      exact hxn.of_labels hlabels (hnot hxn)
  · intro x hx
    if hxe : x = e then
      rw [hxe, update_self]
      exact some_ne_none _
    else
      rw [update_of_ne hxe]
      rw [hlabels, update_of_ne hxe] at hx
      exact ha.total h hx

theorem Agree.delete (h : TreeInv s started nodes) (h' : TreeInv s' st nodes') (ha : Agree nodes dir) {e : Nat} {v : Node}
    {old : List (List Byte)} (hv : nodes e = some v) (he : Named nodes e old) (hleaf : ∀ c, nodes.parent c ≠ some e)
    (hlabels : nodes'.labels = Function.update nodes.labels e none) :
    Agree nodes' fun x => if dir x = some old then none else dir x := by
  refine Agree.of_total h' ?_ ?_
  · intro x ns hx
    split_ifs at hx with hold
    have hxn := (ha x ns).mp hx
    refine hxn.of_labels hlabels ?_
    intro hreach
    have hxe := hreach.eq_of_no_child hleaf
    rw [hxe] at hold
    exact hold ((ha e old).mpr he)
  · intro x hx
    have hxe : x ≠ e := by
      intro hxe
      cases hx with
      | inl h0 => exact h.rep.ne_zero hv (hxe ▸ h0)
      | inr hlab =>
        rw [hlabels, hxe, update_self] at hlab
        exact hlab rfl
    rw [hlabels, update_of_ne hxe] at hx
    rw [if_neg]
    · exact ha.total h hx
    · intro hold
      exact hxe (((ha x old).mp hold).inj h.rep he)

theorem Agree.relabel (h : TreeInv s started nodes) (h' : TreeInv s' st nodes') (ha : Agree nodes dir) {e q : Nat} {v : Node}
    {n r : List Byte} {old qs : List (List Byte)} (hv : nodes e = some v) (he : Named nodes e old)
    (hq : Named nodes q qs) (hqe : ¬ Reaches nodes.parent q e)
    (hlabels : nodes'.labels = Function.update nodes.labels e (some (q, n, r))) :
    Agree nodes' fun x => (dir x).map (renamed old (n :: qs)) := by
  refine Agree.of_total h' ?_ ?_
  · intro x ns hx
    obtain ⟨ms, hms, rfl⟩ := Option.map_eq_some_iff.mp hx
    exact Named.relabel h.rep hlabels he hq hqe ((ha x ms).mp hms)
  · intro x hx
    have hold : x = 0 ∨ nodes.labels x ≠ none := by
      cases hx with
      | inl h0 => exact .inl h0
      | inr hlab =>
        right
        if hxe : x = e then
          rw [hxe, Nodes.labels, hv]
          simp
        else
          rw [hlabels, update_of_ne hxe] at hlab
          exact hlab
    have htot := ha.total h hold
    simpa using htot

theorem Agree.step (h : TreeInv s started nodes) (h' : TreeInv s' st nodes') (ha : Agree nodes dir) {q : Request}
    (heff : Effect suffix s nodes nodes' q) (hkeep : KeepsSuperior suffix q) :
    Agree nodes' (dir.apply suffix (mdbNextId ⟨s.id2entry, 0⟩) q) := by
  cases heff with
  | add hparts hup _ hnew he0 hlabels =>
    simp only [Directory.apply]
    rw [hparts]
    exact ha.add h h' hup hnew he0 hlabels
  | delete hv he hleaf hlabels => exact ha.delete h h' hv he hleaf hlabels
  | @rename r up _ _ nnewrdn _ newSup e v hv he hsup _ hlabels =>
    obtain ⟨w, hw, -, hup⟩ := he.cons_inv
    rw [hv] at hw
    cases hw
    have hnew : (newDn (r :: up) nnewrdn newSup).parts suffix = nnewrdn.bytes :: Dn.parts suffix up := by
      unfold newDn
      rw [Dn.parts_cons]
      cases newSup with
      | none => rfl
      | some sup =>
        cases hsup with
        | inl hnone => cases hnone
        | inr hstr =>
          rw [getD_some, Dn.parts_eq_of_str_eq (Option.some.inj hstr)]
    simp only [Directory.apply]
    rw [hnew]
    exact ha.relabel h h' hv he hup (h.not_reaches_node hv) hlabels
  | move hv he _ hq hqe _ hlabels => exact ha.relabel h h' hv he hq hqe hlabels
  | root _ _ hstr hne _ _ =>
    refine absurd (hkeep hstr) ?_
    rw [Dn.dnParent_cons]
    exact hne

end

/-! ## dn2id as the map -/

/-- The names in the own records from an entry up to the root: normalized, and as they were given. -/
inductive StoredNames (db : Dn2id) : Nat → List (List Byte) → List (List Byte) → Prop where
  | root : StoredNames db 0 [] []
  | own {id : Nat} {d : DiskNode} {ns rs : List (List Byte)} :
      id ≠ 0 → d ∈ db id → d.child = false → StoredNames db d.entryID ns rs →
      StoredNames db id (d.nrdn :: ns) (d.rdn :: rs)

/-- dn2id is the map `dir`. -/
structure Refines (suffix : List Byte) (s : Tables) (dir : Directory) : Prop where
  entries : ∀ id, id ∈ s.id2entry ↔ id ≠ 0 ∧ dir id ≠ none
  hit : ∀ (ndn : Dn) (id : Nat), ((mdbDn2id suffix s.dn2id (ndn.str suffix)).rc = none ∧
    (mdbDn2id suffix s.dn2id (ndn.str suffix)).id = id) ↔ dir id = some (ndn.parts suffix)
  miss : ∀ ndn : Dn, (∀ id, dir id ≠ some (ndn.parts suffix)) →
    (mdbDn2id suffix s.dn2id (ndn.str suffix)).rc = some .notfound ∧
    ∃ up, up <:+ ndn.parts suffix ∧ dir (mdbDn2id suffix s.dn2id (ndn.str suffix)).id = some up ∧
      ∀ id up', up' <:+ ndn.parts suffix → dir id = some up' → up'.length ≤ up.length
  name : ∀ id ns, id ≠ 0 → dir id = some ns → ∃ rs, StoredNames s.dn2id id ns rs ∧
    (mdbId2name s.dn2id id = .ok (joinRdns rs, joinRdns ns) ↔ Short ns ∧ Short rs)

section

variable {suffix : List Byte} {s : Tables} {started : Bool} {nodes : Nodes} {dir : Directory}

theorem Named.stored (h : Represents s.dn2id started nodes) {x : Nat} {ns : List (List Byte)} (hx : Named nodes x ns) :
    ∃ rs, Pretty nodes x rs ∧ StoredNames s.dn2id x ns rs := by
  induction hx with
  | root => exact ⟨[], .root, .root⟩
  | node hv _ ih =>
    obtain ⟨rs, hp, hs⟩ := ih
    exact ⟨_, .node hv hp, .own (h.ne_zero hv) ((h.mem _ _).mpr (.own hv)) rfl hs⟩

theorem Named.length_le (h : TreeInv s started nodes) {x : Nat} {ns : List (List Byte)} (hx : Named nodes x ns) :
    ns.length ≤ NOID := by
  obtain ⟨l, hl, hlen⟩ := h.chain hx.reaches
  have heq : ns.length = l.length := by
    clear hlen
    induction hx generalizing l with
    | root =>
      cases hl with
      | nil => rfl
      | cons h0 _ _ => exact absurd rfl h0
    | node hv _ ih =>
      cases hl with
      | nil => exact absurd rfl (h.rep.ne_zero hv)
      | cons _ hp hl =>
        rw [Nodes.parent_eq_some.mpr ⟨_, hv, rfl⟩] at hp
        cases hp
        rw [length_cons, length_cons, ih _ hl]
  omega

theorem Named.of_suffix {x : Nat} {ns up : List (List Byte)} (hx : Named nodes x ns) (hup : up <:+ ns) :
    ∃ y, Named nodes y up := by
  obtain ⟨low, rfl⟩ := hup
  induction low generalizing x with
  | nil => exact ⟨x, hx⟩
  | cons n low ih =>
    obtain ⟨v, -, -, hvp⟩ := hx.cons_inv
    exact ih hvp

theorem Agree.entries (h : TreeInv s started nodes) (ha : Agree nodes dir) (id : Nat) :
    id ∈ s.id2entry ↔ id ≠ 0 ∧ dir id ≠ none := by
  constructor
  · intro hid
    obtain ⟨ns, hns⟩ := h.named hid
    refine ⟨((h.range id hid).1).ne', ?_⟩
    rw [(ha id ns).mpr hns]
    exact some_ne_none ns
  · intro ⟨h0, hne⟩
    obtain ⟨ns, hns⟩ := Option.ne_none_iff_exists'.mp hne
    cases (ha id ns).mp hns with
    | root => exact absurd rfl h0
    | node hv _ => exact h.mem_of_node hv

theorem Agree.hit (h : TreeInv s started nodes) (ha : Agree nodes dir) (ndn : Dn) (id : Nat) :
    ((mdbDn2id suffix s.dn2id (ndn.str suffix)).rc = none ∧ (mdbDn2id suffix s.dn2id (ndn.str suffix)).id = id) ↔
      dir id = some (ndn.parts suffix) := by
  rw [ha]
  constructor
  · intro ⟨hrc, hid⟩
    cases mdbDn2id_cases h.rep suffix ndn with
    | inl hhit => exact hid ▸ hhit.named
    | inr hmiss =>
      rw [hmiss.rc] at hrc
      cases hrc
  · intro hnamed
    obtain ⟨hhit, hid⟩ := mdbDn2id_hit h.rep hnamed
    exact ⟨hhit.rc, hid⟩

theorem Agree.miss (h : TreeInv s started nodes) (ha : Agree nodes dir) (ndn : Dn)
    (hnone : ∀ id, dir id ≠ some (ndn.parts suffix)) :
    (mdbDn2id suffix s.dn2id (ndn.str suffix)).rc = some .notfound ∧
    ∃ up, up <:+ ndn.parts suffix ∧ dir (mdbDn2id suffix s.dn2id (ndn.str suffix)).id = some up ∧
      ∀ id up', up' <:+ ndn.parts suffix → dir id = some up' → up'.length ≤ up.length := by
  cases mdbDn2id_cases h.rep suffix ndn with
  | inl hhit => exact absurd ((ha _ _).mpr hhit.named) (hnone _)
  | inr hmiss =>
    obtain ⟨low, n, up, hparts, hup, hchild, -⟩ := hmiss.superior
    refine ⟨hmiss.rc, up, ⟨low ++ [n], by simp [hparts]⟩, (ha _ _).mpr hup, ?_⟩
    intro id up' hsuf hid
    by_contra hlt
    -- a longer superior is `n :: up` or lies below it
    have hnup : n :: up <:+ up' :=
      suffix_of_suffix_length_le ⟨low, hparts.symm⟩ hsuf (by rw [length_cons]; omega)
    obtain ⟨y, hy⟩ := ((ha id up').mp hid).of_suffix hnup
    obtain ⟨v, hv, hvn, hvp⟩ := hy.cons_inv
    exact hchild y v hv (hvp.inj h.rep hup) hvn

theorem Agree.refines (h : TreeInv s started nodes) (ha : Agree nodes dir)
    (hne : ∀ x v, nodes x = some v → v.nrdn ≠ []) : Refines suffix s dir where
  entries := ha.entries h
  hit := ha.hit h
  miss := ha.miss h
  name := by
    intro id ns h0 hid
    have hnamed := (ha id ns).mp hid
    obtain ⟨rs, hp, hs⟩ := hnamed.stored h.rep
    refine ⟨rs, hs, mdbId2name_iff h.rep hnamed hp (hnamed.length_le h) ?_⟩
    clear h0 hid hp hs
    induction hnamed with
    | root => simp
    | node hv _ ih => exact List.forall_mem_cons.mpr ⟨hne _ _ hv, ih⟩

end

section

variable {suffix : List Byte} {s s' : Tables} {nodes nodes' : Nodes} {dir : Directory}

theorem names_ne_nil_update {e : Nat} {l : Option (Nat × List Byte × List Byte)}
    (hlabels : nodes'.labels = Function.update nodes.labels e l) (hne : ∀ x v, nodes x = some v → v.nrdn ≠ [])
    (hl : ∀ p n r, l = some (p, n, r) → n ≠ []) (x : Nat) (v : Node) (hv : nodes' x = some v) : v.nrdn ≠ [] := by
  have hlab : nodes'.labels x = some (v.parent, v.nrdn, v.rdn) := Nodes.labels_eq_some.mpr ⟨v, hv, rfl, rfl, rfl⟩
  rw [hlabels] at hlab
  if hx : x = e then
    rw [hx, update_self] at hlab
    exact hl _ _ _ hlab
  else
    rw [update_of_ne hx] at hlab
    obtain ⟨w, hw, -, hn, -⟩ := Nodes.labels_eq_some.mp hlab
    rw [← hn]
    exact hne x w hw

theorem Effect.names_ne_nil {q : Request} (heff : Effect suffix s nodes nodes' q)
    (hne : ∀ x v, nodes x = some v → v.nrdn ≠ []) : ∀ x v, nodes' x = some v → v.nrdn ≠ [] := by
  cases heff with
  | @add ndn dn n rdn pid up hparts _ _ _ _ hlabels =>
    refine names_ne_nil_update hlabels hne ?_
    intro p m r h
    cases h
    exact Dn.ne_nil_of_mem_parts (hparts ▸ mem_cons_self)
  | delete _ _ _ hlabels => exact names_ne_nil_update hlabels hne (by simp)
  | @rename _ _ _ _ nnewrdn _ _ _ _ _ _ _ _ hlabels
  | @move _ _ _ _ _ nnewrdn _ _ _ _ _ _ _ _ _ _ hlabels
  | @root _ _ _ _ _ nnewrdn _ _ _ _ _ _ _ _ hlabels =>
    refine names_ne_nil_update hlabels hne ?_
    intro p m r h
    cases h
    exact nnewrdn.nonempty

def MapInv (a : Tables × Directory) : Prop :=
  ∃ started nodes, TreeInv a.1 started nodes ∧ Agree nodes a.2 ∧ ∀ x v, nodes x = some v → v.nrdn ≠ []

theorem MapInv.empty : MapInv (Tables.empty, Directory.empty) := by
  refine ⟨false, fun _ => none, TreeInv.empty, ?_, by simp⟩
  intro x ns
  show (if x = 0 then some [] else none) = some ns ↔ _
  constructor
  · intro h
    split_ifs at h with hx
    cases h
    rw [hx]
    exact .root
  · intro h
    cases h with
    | root => rfl
    | node hv _ => cases hv

theorem MapInv.step {a b : Tables × Directory} {q : Request} (h : MapInv a) (hkeep : KeepsSuperior suffix q)
    (hstep : MapStep suffix a q b) : MapInv b := by
  obtain ⟨started, nodes, htree, ha, hne⟩ := h
  obtain ⟨hok, hdir⟩ := hstep
  obtain ⟨st, nodes', htree', heff, -⟩ := htree.step hok
  rw [MapInv, hdir]
  exact ⟨st, nodes', htree', ha.step htree htree' heff hkeep, heff.names_ne_nil hne⟩

theorem MapInv.run {a b : Tables × Directory} {qs : List Request} (h : MapInv a)
    (hkeep : ∀ q ∈ qs, KeepsSuperior suffix q) (hrun : Steps (MapStep suffix) a qs b) : MapInv b := by
  induction hrun with
  | refl => exact h
  | cons hstep _ ih =>
    obtain ⟨hq, hqs⟩ := List.forall_mem_cons.mp hkeep
    exact ih (h.step hq hstep) hqs

variable {a : Tables × Directory} {ns : List (List Byte)}

theorem MapInv.refines (h : MapInv a) : Refines suffix a.1 a.2 := by
  obtain ⟨_, _, htree, ha, hne⟩ := h
  exact ha.refines htree hne

theorem MapInv.inj (h : MapInv a) {x y : Nat} (hx : a.2 x = some ns) (hy : a.2 y = some ns) : x = y := by
  obtain ⟨_, _, htree, ha, -⟩ := h
  exact ((ha x ns).mp hx).inj htree.rep ((ha y ns).mp hy)

theorem MapInv.of_suffix (h : MapInv a) {x : Nat} {up : List (List Byte)}
    (hx : a.2 x = some ns) (hup : up <:+ ns) : ∃ y, a.2 y = some up := by
  obtain ⟨_, _, _, ha, -⟩ := h
  obtain ⟨y, hy⟩ := ((ha x ns).mp hx).of_suffix hup
  exact ⟨y, (ha y up).mpr hy⟩

theorem renamed_self (old new : List (List Byte)) : renamed old new old = new := by
  unfold renamed
  rw [if_pos (suffix_refl old), Nat.sub_self, take_zero, List.nil_append]

theorem renamed_of_length_lt {old : List (List Byte)} (h : ns.length < old.length) (new : List (List Byte)) :
    renamed old new ns = ns := by
  unfold renamed
  rw [if_neg]
  intro hsuf
  exact absurd hsuf.length_le (by omega)

theorem MapInv.modrdn {b : Tables × Directory} (h : MapInv a) {ndn : Dn} {dn : List Byte} {nnewrdn newrdn : Rdn}
    {newSup : Option Dn} (hkeep : KeepsSuperior suffix (.modrdn ndn dn nnewrdn newrdn newSup))
    (hstep : MapStep suffix a (.modrdn ndn dn nnewrdn newrdn newSup) b) :
    ∃ id, a.2 id = some (ndn.parts suffix) ∧ b.2 id = some ((newDn ndn nnewrdn newSup).parts suffix) ∧
      ((newDn ndn nnewrdn newSup).parts suffix ≠ ndn.parts suffix → ∀ x, b.2 x ≠ some (ndn.parts suffix)) := by
  have h' := h.step hkeep hstep
  obtain ⟨hok, hdir⟩ := hstep
  have hentry : ∃ id, a.2 id = some (ndn.parts suffix) := by
    obtain ⟨started, nodes, htree, ha, -⟩ := h
    obtain ⟨_, nodes', _, heff, -⟩ := htree.step hok
    cases heff with
    | rename _ he _ _ _ => exact ⟨_, (ha _ _).mpr he⟩
    | move _ he _ _ _ _ _ => exact ⟨_, (ha _ _).mpr he⟩
    | root _ he _ _ _ _ => exact ⟨_, (ha _ _).mpr he⟩
  obtain ⟨id, hid⟩ := hentry
  simp only [Directory.apply] at hdir
  generalize Dn.parts suffix ndn = old at hdir hid ⊢
  generalize Dn.parts suffix (newDn ndn nnewrdn newSup) = new at hdir ⊢
  have hb : ∀ y, b.2 y = (a.2 y).map (renamed old new) := congrFun hdir
  have hnew : b.2 id = some new := by rw [hb, hid, map_some, renamed_self]
  refine ⟨id, hid, hnew, ?_⟩
  intro hne x hx
  rw [hb] at hx
  obtain ⟨ms, hms, hren⟩ := Option.map_eq_some_iff.mp hx
  unfold renamed at hren
  split_ifs at hren with hsuf
  · obtain ⟨low, rfl⟩ := hsuf
    rw [length_append, Nat.add_sub_cancel, take_left] at hren
    -- the new name is a superior's name, which no request takes away
    have hlow : low ≠ [] := by
      intro hnil
      rw [hnil, List.nil_append] at hren
      exact hne hren
    have hlt : new.length < old.length := by
      rw [← hren, length_append]
      have := length_pos_of_ne_nil hlow
      omega
    obtain ⟨y, hy⟩ := h.of_suffix hid ⟨low, hren⟩
    have hy' : b.2 y = some new := by rw [hb, hy, map_some, renamed_of_length_lt hlt]
    rw [h'.inj hy' hnew, hid] at hy
    have hlen := congrArg List.length (Option.some.inj hy)
    omega
  · rw [hren] at hsuf
    exact hsuf (suffix_refl old)

end

theorem mapStep_exec {suffix : List Byte} {s : Tables} {dir : Directory} {q : Request}
    (h : (q.run subSubs suffix s).isOk = true) :
    MapStep suffix (s, dir) q (q.exec suffix s, dir.apply suffix (mdbNextId ⟨s.id2entry, 0⟩) q) :=
  ⟨performs_exec h, rfl⟩

/-- `b,a` is to become `b`, directly below the root. -/
def toRootHistory : List Request :=
  [.add [rdnA] [97], .add [rdnB, rdnA] [98, 44, 97], .modrdn [rdnB, rdnA] [98, 44, 97] rdnB rdnB (some [])]

end BackMdb
end ReOpenLDAP
