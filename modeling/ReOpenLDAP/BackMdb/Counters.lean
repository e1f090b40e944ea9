import ReOpenLDAP.BackMdb.Dn2idLookup
import ReOpenLDAP.BackMdb.Update
import Mathlib.Order.Interval.Finset.Nat

/-!
# BackMdb.Counters

The subtree counters of dn2id over whole histories of adds, deletes and renames.
-/

namespace ReOpenLDAP
namespace BackMdb

open Forest List Option Function

/-- Every count is the number of nodes of `N` in the subtree. -/
def Exact (nodes : Nodes) (N : Finset Nat) : Prop :=
  ∀ x v, nodes x = some v → v.nsubs = size nodes.parent N x

section

variable {nodes : Nodes} {N : Finset Nat}

@[simp] theorem Nodes.parent_update_some (e : Nat) (v : Node) :
    Nodes.parent (Function.update nodes e (some v)) = Function.update nodes.parent e (some v.parent) := by
  funext x
  unfold Nodes.parent
  if hx : x = e then rw [hx, update_self, update_self]; rfl
  else rw [update_of_ne hx, update_of_ne hx]

@[simp] theorem Nodes.parent_update_none (e : Nat) :
    Nodes.parent (Function.update nodes e none) = Function.update nodes.parent e none := by
  funext x
  unfold Nodes.parent
  if hx : x = e then rw [hx, update_self, update_self]; rfl
  else rw [update_of_ne hx, update_of_ne hx]

variable {l : List Nat} {e : Nat}

theorem Nodes.bump_eq_some {g : Nat → Nat} {x : Nat} {w : Node} (h : nodes.bump l g x = some w) :
    ∃ v, nodes x = some v ∧ w = if x ∈ l then { v with nsubs := g v.nsubs } else v := by
  unfold Nodes.bump at h
  cases hx : nodes x with
  | none =>
    rw [hx] at h
    cases h
  | some v =>
    rw [hx] at h
    exact ⟨v, rfl, (Option.some.inj h).symm⟩

theorem Exact.attach {q : Nat} {n r : List Byte} (h : Exact nodes N) (h0 : nodes 0 = none)
    (he : nodes e = none) (hl : Chain nodes.parent 0 q l) (hqe : ¬ Reaches nodes.parent q e)
    (hN : N.card < 2 ^ 64) :
    Exact (Nodes.bump (Function.update nodes e (some ⟨q, n, r, size nodes.parent N e⟩)) l
      fun subs => (subs + size nodes.parent N e) % 2 ^ 64) N := by
  classical
  have hpe : nodes.parent e = none := by rw [Nodes.parent, he]; rfl
  have hp0 : nodes.parent 0 = none := by rw [Nodes.parent, h0]; rfl
  have hsize := fun x => size_attach (N := N) (x := x) hpe hqe
  intro x w hw
  obtain ⟨v, hv, rfl⟩ := Nodes.bump_eq_some hw
  rw [Nodes.parent_bump, Nodes.parent_update_some, hsize]
  have hle := @size_le_card _ (Function.update nodes.parent e (some q)) N x
  rw [hsize] at hle
  if hx : x = e then
    rw [hx, update_self] at hv
    cases hv
    have hnot : e ∉ l := fun hmem => hqe ((hl.mem_iff hp0).mp hmem).1
    rw [hx, if_neg hnot, if_neg hqe, Nat.add_zero]
  else
    rw [update_of_ne hx] at hv
    have hx0 : x ≠ 0 := by
      intro e0
      rw [e0, h0] at hv
      cases hv
    have hmem : x ∈ l ↔ Reaches nodes.parent q x := by
      rw [hl.mem_iff hp0]
      exact and_iff_left hx0
    have hcount := h x v hv
    if hq : Reaches nodes.parent q x then
      rw [if_pos hq] at hle
      rw [if_pos (hmem.mpr hq), if_pos hq, hcount]
      exact Nat.mod_eq_of_lt (by omega)
    else rw [if_neg (fun hm => hq (hmem.mp hm)), if_neg hq, Nat.add_zero, hcount]

theorem size_detach {v : Node} (h0 : nodes 0 = none) (he : nodes e = some v) (hl : Chain nodes.parent 0 v.parent l) (x : Nat) :
    size nodes.parent N e = size (Function.update nodes.parent e none) N e ∧
    (Reaches (Function.update nodes.parent e none) v.parent x ↔ Reaches nodes.parent v.parent x) ∧
    (Reaches nodes.parent v.parent x →
      size nodes.parent N x = size (Function.update nodes.parent e none) N x + size nodes.parent N e) ∧
    (¬ Reaches nodes.parent v.parent x →
      size nodes.parent N x = size (Function.update nodes.parent e none) N x) := by
  classical
  have hp0 : nodes.parent 0 = none := by rw [Nodes.parent, h0]; rfl
  have hpe : nodes.parent e = some v.parent := by rw [Nodes.parent, he]; rfl
  have hnot := not_reaches_detach (hl.not_reaches_of_parent hp0 hpe)
  have hback : nodes.parent = Function.update (Function.update nodes.parent e none) e (some v.parent) := by
    rw [update_idem, ← hpe, update_eq_self]
  have hnone : (Function.update nodes.parent e none) e = none := update_self ..
  have hsize := fun y => size_attach (N := N) (x := y) hnone hnot
  have hreach := @reaches_attach _ _ _ _ _ hnone hnot v.parent x
  rw [← hback] at hreach
  simp only [← hback] at hsize
  have hiff : Reaches nodes.parent v.parent x ↔ Reaches (Function.update nodes.parent e none) v.parent x := by
    rw [hreach]
    exact or_iff_left fun hc => hnot hc.1
  have hself : size nodes.parent N e = size (Function.update nodes.parent e none) N e := by
    rw [hsize, if_neg hnot, Nat.add_zero]
  refine ⟨hself, hiff.symm, ?_, ?_⟩
  · intro hx
    rw [hsize x, if_pos (hiff.mp hx), ← hself]
  · intro hx
    rw [hsize x, if_neg (fun hm => hx (hiff.mpr hm)), Nat.add_zero]

theorem Exact.detach {v : Node} (h : Exact nodes N) (h0 : nodes 0 = none)
    (he : nodes e = some v) (hl : Chain nodes.parent 0 v.parent l) :
    Exact (Nodes.bump (Function.update nodes e none) l fun subs => subs - v.nsubs) N := by
  have hp0 : nodes.parent 0 = none := by rw [Nodes.parent, h0]; rfl
  intro x w hw
  obtain ⟨u, hu, rfl⟩ := Nodes.bump_eq_some hw
  have hx : x ≠ e := by
    intro hxe
    rw [hxe, update_self] at hu
    cases hu
  rw [update_of_ne hx] at hu
  have hx0 : x ≠ 0 := by
    intro e0
    rw [e0, h0] at hu
    cases hu
  obtain ⟨-, -, hyes, hno⟩ := size_detach (N := N) h0 he hl x
  have hcount := h x u hu
  have hsub := h e v he
  have hmem : x ∈ l ↔ Reaches nodes.parent v.parent x := by
    rw [hl.mem_iff hp0]
    exact and_iff_left hx0
  rw [Nodes.parent_bump, Nodes.parent_update_none]
  if hq : Reaches nodes.parent v.parent x then
    rw [if_pos (hmem.mpr hq)]
    have := hyes hq
    show u.nsubs - v.nsubs = _
    omega
  else
    rw [if_neg (fun hm => hq (hmem.mp hm)), hcount]
    exact hno hq

end

structure TreeInv (s : Tables) (started : Bool) (nodes : Nodes) : Prop where
  rep : Represents s.dn2id started nodes
  ids : ∀ x, x ∈ s.id2entry ↔ nodes x ≠ none
  increasing : Increasing s.id2entry
  range : ∀ x ∈ s.id2entry, 0 < x ∧ x < 2 ^ 64
  rooted : ∀ x ∈ s.id2entry, Reaches nodes.parent x 0
  exact : Exact nodes s.id2entry.toFinset

theorem TreeInv.empty : TreeInv Tables.empty false fun _ => none where
  rep := by
    refine ⟨fun _ => DupSort.sortedBy_nil, ?_, rfl⟩
    intro k d
    constructor
    · intro h
      cases h
    · intro h
      cases h with
      | own hv => cases hv
      | root _ hs => cases hs
      | child hc _ => cases hc
  ids := by simp [Tables.empty]
  increasing := DupSort.sortedBy_nil
  range := by simp [Tables.empty]
  rooted := by simp [Tables.empty]
  exact := by
    intro x v hv
    cases hv

theorem card_lt_of_range {N : Finset Nat} (h : ∀ x ∈ N, 0 < x ∧ x < 2 ^ 64) : N.card < 2 ^ 64 := by
  have hsub : N ⊆ Finset.Ico 1 (2 ^ 64) := fun x hx => Finset.mem_Ico.mpr (h x hx)
  have hcard := Finset.card_le_card hsub
  rw [Nat.card_Ico] at hcard
  omega

namespace TreeInv

variable {s : Tables} {started : Bool} {nodes : Nodes}
variable {x : Nat}

theorem mem_of_node (h : TreeInv s started nodes) {v : Node} (hv : nodes x = some v) : x ∈ s.id2entry := by
  rw [h.ids, hv]
  exact some_ne_none v

theorem parent_zero (h : TreeInv s started nodes) : nodes.parent 0 = none := by
  rw [Nodes.parent, h.rep.root]
  rfl

theorem card_lt (h : TreeInv s started nodes) : s.id2entry.toFinset.card < 2 ^ 64 :=
  card_lt_of_range fun x hx => h.range x (List.mem_toFinset.mp hx)

theorem chain (h : TreeInv s started nodes) (hx : Reaches nodes.parent x 0) :
    ∃ l, Chain nodes.parent 0 x l ∧ l.length ≤ NOID := by
  obtain ⟨l, hl⟩ := Chain.of_reaches hx
  refine ⟨l, hl, ?_⟩
  have hmem : ∀ y ∈ l, y ∈ s.id2entry.toFinset := by
    intro y hy
    obtain ⟨b, hb⟩ := hl.exists_parent hy
    obtain ⟨v, hv, -⟩ := Nodes.parent_eq_some.mp hb
    exact List.mem_toFinset.mpr (h.mem_of_node hv)
  have hlen := hl.length_le_card hmem
  have hcard := h.card_lt
  unfold NOID
  omega

theorem named (h : TreeInv s started nodes) (hx : x ∈ s.id2entry) : ∃ ns, Named nodes x ns := by
  obtain ⟨l, hl⟩ := Chain.of_reaches (h.rooted x hx)
  exact Named.of_chain hl

theorem dn2entry (h : TreeInv s started nodes) {suffix : List Byte} {dn : Dn} {matched : Bool} {e : DnEntry}
    {nsubs : Nat} {mc : Option (Nat × DiskNode)}
    (he : mdbDn2entry suffix s (dn.str suffix) matched = ⟨none, some e, nsubs, mc⟩) :
    Named nodes e.id (dn.parts suffix) ∧ e.nname = dn.str suffix ∧
      (dn.parts suffix ≠ [] → ∃ v, nodes e.id = some v ∧ nsubs = v.nsubs ∧ mc = some (v.parent, v.child e.id)) := by
  obtain ⟨hrc, hid, hnn, -, hns, hmc⟩ := mdbDn2entry_ok he
  cases mdbDn2id_cases h.rep suffix dn with
  | inl hhit =>
    have hrec := hhit.record
    rw [hid, hns, hmc] at hrec
    exact ⟨hid ▸ hhit.named, hnn, hrec⟩
  | inr hmiss =>
    rw [hmiss.rc] at hrc
    cases hrc

end TreeInv

def Nodes.labels (nodes : Nodes) (x : Nat) : Option (Nat × List Byte × List Byte) :=
  (nodes x).map fun v => (v.parent, v.nrdn, v.rdn)

section

variable {nodes : Nodes}

@[simp] theorem Nodes.labels_bump (l : List Nat) (g : Nat → Nat) : (nodes.bump l g).labels = nodes.labels := by
  funext x
  unfold Nodes.labels Nodes.bump
  cases nodes x with
  | none => rfl
  | some v =>
    simp only [map_some]
    split_ifs <;> rfl

@[simp] theorem Nodes.labels_update (e : Nat) (v : Option Node) :
    Nodes.labels (Function.update nodes e v) =
      Function.update nodes.labels e (v.map fun v => (v.parent, v.nrdn, v.rdn)) := by
  funext x
  unfold Nodes.labels
  if hx : x = e then rw [hx, update_self, update_self]
  else rw [update_of_ne hx, update_of_ne hx]

theorem Nodes.bump_eq_none {l : List Nat} {g : Nat → Nat} {x : Nat} : nodes.bump l g x = none ↔ nodes x = none := by
  simp [Nodes.bump]

end

def SubOk (sub : Nat → Nat → Except Rc Nat) : Prop := ∀ n m, n ≤ m → m < 2 ^ 64 → sub n m = .ok (m - n)

theorem subOk_subSubs : SubOk subSubs := by
  intro n m hnm hm
  have heq : m + 2 ^ 64 - n = (m - n) + 2 ^ 64 := by omega
  unfold subSubs
  rw [heq, Nat.add_mod_right, Nat.mod_eq_of_lt (by omega)]

theorem subOk_subSubsChecked : SubOk subSubsChecked := by
  intro n m hnm _
  unfold subSubsChecked
  rw [if_pos hnm]

namespace TreeInv

variable {s : Tables} {started : Bool} {nodes : Nodes} {suffix : List Byte}
variable {v : Node} {x e : Nat}

theorem nsubs_lt (h : TreeInv s started nodes) (hv : nodes x = some v) : v.nsubs < 2 ^ 64 := by
  rw [h.exact x v hv]
  exact (size_le_card _ _).trans_lt h.card_lt

theorem nsubs_pos (h : TreeInv s started nodes) (hv : nodes x = some v) : 0 < v.nsubs := by
  rw [h.exact x v hv]
  exact Forest.size_pos (List.mem_toFinset.mpr (h.mem_of_node hv))

theorem reaches_parent (h : TreeInv s started nodes) (hv : nodes x = some v) : Reaches nodes.parent v.parent 0 := by
  have hp : nodes.parent x = some v.parent := Nodes.parent_eq_some.mpr ⟨v, hv, rfl⟩
  cases (reaches_of_parent hp).mp (h.rooted x (h.mem_of_node hv)) with
  | inl he => exact absurd he.symm (h.rep.ne_zero hv)
  | inr hr => exact hr

theorem not_reaches_node (h : TreeInv s started nodes) (hv : nodes e = some v) : ¬ Reaches nodes.parent v.parent e := by
  obtain ⟨l, hl, -⟩ := h.chain (h.reaches_parent hv)
  exact hl.not_reaches_of_parent h.parent_zero (Nodes.parent_eq_some.mpr ⟨v, hv, rfl⟩)

theorem not_reaches_parent (h : TreeInv s started nodes) (hv : nodes e = some v) :
    ¬ Reaches (Function.update nodes.parent e none) v.parent e := not_reaches_detach (h.not_reaches_node hv)

/-- The first half of a delete or a move: the node is taken from its parent. No subtraction
underflows. -/
theorem detach (h : TreeInv s started nodes) (hv : nodes e = some v) : ∃ l db, Chain nodes.parent 0 v.parent l ∧
      Exact (Nodes.bump (Function.update nodes e none) l fun subs => subs - v.nsubs) s.id2entry.toFinset ∧
      Represents db started (Nodes.bump (Function.update nodes e none) l fun subs => subs - v.nsubs) ∧
      ∀ sub, SubOk sub → mdbDn2idDelete sub s.dn2id (v.parent, v.child e) e v.nsubs = .ok db := by
  obtain ⟨l, hl, hlen⟩ := h.chain (h.reaches_parent hv)
  have hpos : v.nsubs ≠ 0 := (h.nsubs_pos hv).ne'
  have hdel : ∀ sub, SubOk sub → ∃ db, mdbDn2idDelete sub s.dn2id (v.parent, v.child e) e v.nsubs = .ok db ∧
      Represents db started (Nodes.bump (Function.update nodes e none) l fun subs => subs - v.nsubs) := by
    intro sub hsub
    have hg : v.nsubs ≠ 0 → ∀ x ∈ l, ∀ w, nodes x = some w →
        sub v.nsubs w.nsubs = .ok ((fun subs => subs - v.nsubs) w.nsubs) := by
      intro _ x hx w hw
      refine hsub _ _ ?_ (h.nsubs_lt hw)
      have hq := ((hl.mem_iff h.parent_zero).mp hx).1
      have hsize := (size_detach (N := s.id2entry.toFinset) h.rep.root hv hl x).2.2.1 hq
      rw [h.exact x w hw, h.exact e v hv]
      omega
    have hspec := @dn2idDelete_spec _ _ _ sub (fun subs => subs - v.nsubs) e v.nsubs v l h.rep hv hl hlen hg
    rw [if_pos hpos] at hspec
    exact hspec
  obtain ⟨db, -, hrep⟩ := hdel subSubs subOk_subSubs
  refine ⟨l, db, hl, h.exact.detach h.rep.root hv hl, hrep, ?_⟩
  intro sub hsub
  obtain ⟨db', hdb', hrep'⟩ := hdel sub hsub
  rw [hdb', hrep'.unique hrep]

theorem addNode (h : TreeInv s started nodes) {pid : Nat} {e : DnEntry} (hfresh : ∀ x ∈ s.id2entry, x < e.id)
    (h0 : 0 < e.id) (hlt : e.id < 2 ^ 64) (hpid : Reaches nodes.parent pid 0)
    (hname : ∀ a w, nodes a = some w → w.parent = pid → w.nrdn ≠ e.nrdn suffix) :
    ∃ db st nodes', mdbDn2idAdd suffix s.dn2id pid 1 true e = .ok db ∧
      TreeInv ⟨db, s.id2entry ++ [e.id]⟩ st nodes' ∧
      nodes'.labels = Function.update nodes.labels e.id (some (pid, e.nrdn suffix, e.rdn suffix)) := by
  have hnot : e.id ∉ s.id2entry := fun hm => lt_irrefl _ (hfresh _ hm)
  have hid : nodes e.id = none := by
    by_contra hne
    exact hnot ((h.ids _).mpr hne)
  have hpe : nodes.parent e.id = none := by rw [Nodes.parent, hid]; rfl
  obtain ⟨l, hl, hlen⟩ := h.chain hpid
  have hqe : ¬ Reaches nodes.parent pid e.id := by
    intro hr
    obtain ⟨b, hb⟩ := hl.exists_parent ((hl.mem_iff h.parent_zero).mpr ⟨hr, h0.ne'⟩)
    rw [hpe] at hb
    cases hb
  have hne : pid ≠ e.id := by
    intro he
    rw [he] at hqe
    exact hqe (.refl _)
  have hleaf : ∀ c, nodes.parent c ≠ some e.id := by
    intro c hc
    obtain ⟨v, hv, hvp⟩ := Nodes.parent_eq_some.mp hc
    have hr := h.reaches_parent hv
    rw [hvp] at hr
    exact h0.ne ((reaches_of_parent_none hpe).mp hr)
  obtain ⟨db, hadd, hrep⟩ := @dn2idAdd_spec _ _ _ suffix e pid 1 true l h.rep hid h0.ne' hne hname hl hlen
  rw [if_pos rfl] at hrep
  have htoFinset : (s.id2entry ++ [e.id]).toFinset = insert e.id s.id2entry.toFinset := by
    ext x
    simp
  have hcard : (insert e.id s.id2entry.toFinset).card < 2 ^ 64 := by
    refine card_lt_of_range ?_
    intro x hx
    cases Finset.mem_insert.mp hx with
    | inl hx => rw [hx]; exact ⟨h0, hlt⟩
    | inr hx => exact h.range x (List.mem_toFinset.mp hx)
  have hexact : Exact nodes (insert e.id s.id2entry.toFinset) := by
    intro x v hv
    have hx : x ≠ e.id := by
      intro he
      rw [he, hid] at hv
      cases hv
    rw [size_insert hpe (by simpa using hnot), if_neg hx, Nat.add_zero]
    exact h.exact x v hv
  have hone : size nodes.parent (insert e.id s.id2entry.toFinset) e.id = 1 := by
    rw [size_of_no_child hleaf, if_pos (Finset.mem_insert_self _ _)]
  have hattach := hexact.attach (n := e.nrdn suffix) (r := e.rdn suffix) h.rep.root hid hl hqe hcard
  rw [hone] at hattach
  refine ⟨db, _, _, hadd, ⟨hrep, ?_, ?_, ?_, ?_, ?_⟩, ?_⟩
  · intro x
    rw [mem_append, mem_singleton, ne_eq, Nodes.bump_eq_none]
    if hx : x = e.id then
      rw [hx, update_self]
      simp
    else
      rw [update_of_ne hx, h.ids]
      simp [hx]
  · refine List.pairwise_append.mpr ⟨h.increasing, by simp, ?_⟩
    intro x hx y hy
    rw [List.mem_singleton.mp hy]
    exact hfresh x hx
  · intro x hx
    cases List.mem_append.mp hx with
    | inl hx => exact h.range x hx
    | inr hx =>
      rw [List.mem_singleton.mp hx]
      exact ⟨h0, hlt⟩
  · intro x hx
    rw [Nodes.parent_bump, Nodes.parent_update_some, reaches_attach hpe hqe]
    cases List.mem_append.mp hx with
    | inl hx => exact .inl (h.rooted x hx)
    | inr hx =>
      rw [List.mem_singleton.mp hx]
      exact .inr ⟨.refl _, hpid⟩
  · rw [htoFinset]
    exact hattach
  · rw [Nodes.labels_bump, Nodes.labels_update]
    rfl

theorem deleteNode (h : TreeInv s started nodes) (hv : nodes e = some v) (hleaf : ∀ c, nodes.parent c ≠ some e) :
    ∃ db nodes', (∀ sub, SubOk sub → mdbDn2idDelete sub s.dn2id (v.parent, v.child e) e 1 = .ok db) ∧
      TreeInv ⟨db, s.id2entry.erase e⟩ started nodes' ∧ nodes'.labels = Function.update nodes.labels e none := by
  have hmem := h.mem_of_node hv
  have hone : v.nsubs = 1 := by
    rw [h.exact e v hv, size_of_no_child hleaf, if_pos (List.mem_toFinset.mpr hmem)]
  obtain ⟨l, db, -, hexact, hrep, hdel⟩ := h.detach hv
  rw [hone] at hdel
  have hnd : s.id2entry.Nodup := h.increasing.imp fun hab => hab.ne
  have hpe : nodes.parent e = some v.parent := Nodes.parent_eq_some.mpr ⟨v, hv, rfl⟩
  have htoFinset : s.id2entry.toFinset = insert e (s.id2entry.erase e).toFinset := by
    ext x
    simp only [List.mem_toFinset, Finset.mem_insert, hnd.mem_erase_iff]
    if hx : x = e then simp [hx, hmem]
    else simp [hx]
  have hnot : e ∉ (s.id2entry.erase e).toFinset := by
    simp [hnd.mem_erase_iff]
  refine ⟨db, _, hdel, ⟨hrep, ?_, ?_, ?_, ?_, ?_⟩, ?_⟩
  · intro x
    rw [hnd.mem_erase_iff, ne_eq, ne_eq, Nodes.bump_eq_none]
    if hx : x = e then simp [hx]
    else simp [hx, h.ids]
  · exact h.increasing.sublist erase_sublist
  · exact fun x hx => h.range x (mem_of_mem_erase hx)
  · intro x hx
    obtain ⟨hxe, hx⟩ := hnd.mem_erase_iff.mp hx
    rw [Nodes.parent_bump, Nodes.parent_update_none]
    cases (reaches_detach hpe (h.not_reaches_parent hv)).mp (h.rooted x hx) with
    | inl hr => exact hr
    | inr hr =>
      refine absurd (hr.1.eq_of_no_child ?_) hxe
      intro c hc
      if hce : c = e then
        rw [hce, update_self] at hc
        cases hc
      else
        rw [update_of_ne hce] at hc
        exact hleaf c hc
  · intro x w hw
    have hx : x ≠ e := by
      intro hxe
      rw [hxe, Nodes.bump, update_self] at hw
      cases hw
    have hsize := hexact x w hw
    rw [htoFinset, size_insert (by simp) hnot, if_neg hx, Nat.add_zero] at hsize
    exact hsize
  · simp

theorem unlink (h : TreeInv s started nodes) (hv : nodes e = some v) :
    ∃ db, Represents db started (Function.update nodes e none) ∧
      ∀ sub, mdbDn2idDelete sub s.dn2id (v.parent, v.child e) e 0 = .ok db := by
  obtain ⟨l, hl, hlen⟩ := h.chain (h.reaches_parent hv)
  have hdel : ∀ sub, ∃ db, mdbDn2idDelete sub s.dn2id (v.parent, v.child e) e 0 = .ok db ∧
      Represents db started (Function.update nodes e none) := by
    intro sub
    have hspec := @dn2idDelete_spec _ _ _ sub (fun subs => subs) e 0 v l h.rep hv hl hlen (fun h0 => absurd rfl h0)
    simpa using hspec
  obtain ⟨db, -, hrep⟩ := hdel subSubs
  refine ⟨db, hrep, ?_⟩
  intro sub
  obtain ⟨db', hdb', hrep'⟩ := hdel sub
  rw [hdb', hrep'.unique hrep]

theorem renameNode (h : TreeInv s started nodes) {e : DnEntry} (hv : nodes e.id = some v)
    (hname : ∀ a w, a ≠ e.id → nodes a = some w → w.parent = v.parent → w.nrdn ≠ e.nrdn suffix) :
    ∃ db₁ db₂ st nodes', (∀ sub, mdbDn2idDelete sub s.dn2id (v.parent, v.child e.id) e.id 0 = .ok db₁) ∧
      mdbDn2idAdd suffix db₁ v.parent v.nsubs false e = .ok db₂ ∧ TreeInv { s with dn2id := db₂ } st nodes' ∧
      nodes'.labels = Function.update nodes.labels e.id (some (v.parent, e.nrdn suffix, e.rdn suffix)) := by
  obtain ⟨db₁, hrep₁, hdel₁⟩ := h.unlink hv
  obtain ⟨l, hl, hlen⟩ := h.chain (h.reaches_parent hv)
  have hpe : nodes.parent e.id = some v.parent := Nodes.parent_eq_some.mpr ⟨v, hv, rfl⟩
  have hnot := hl.not_reaches_of_parent h.parent_zero hpe
  have hne : v.parent ≠ e.id := by
    intro he
    rw [he] at hnot
    exact hnot (.refl _)
  have hchain : Chain (Nodes.parent (Function.update nodes e.id none)) 0 v.parent l := by
    refine hl.congr ?_
    intro x hx
    have hxe : x ≠ e.id := by
      intro he
      exact hnot (he ▸ ((hl.mem_iff h.parent_zero).mp hx).1)
    rw [Nodes.parent_update_none, update_of_ne hxe]
  have hname₁ : ∀ a w, Function.update nodes e.id none a = some w → w.parent = v.parent →
      w.nrdn ≠ e.nrdn suffix := by
    intro a w ha
    if hae : a = e.id then
      rw [hae, update_self] at ha
      cases ha
    else
      rw [update_of_ne hae] at ha
      exact hname a w hae ha
  obtain ⟨db₂, hadd, hrep₂⟩ := @dn2idAdd_spec _ _ _ suffix e v.parent v.nsubs false l hrep₁
    (update_self ..) (h.rep.ne_zero hv) hne hname₁ hchain hlen
  rw [if_neg (by simp), Nodes.bump_nil, update_idem] at hrep₂
  have hparent : Nodes.parent (Function.update nodes e.id
      (some ⟨v.parent, e.nrdn suffix, e.rdn suffix, v.nsubs⟩)) = nodes.parent := by
    rw [Nodes.parent_update_some, ← hpe, update_eq_self]
  refine ⟨db₁, db₂, _, _, hdel₁, hadd, ⟨hrep₂, ?_, h.increasing, h.range, ?_, ?_⟩, ?_⟩
  · intro x
    if hx : x = e.id then
      rw [hx, update_self]
      simpa using h.mem_of_node hv
    else
      rw [update_of_ne hx]
      exact h.ids x
  · rw [hparent]
    exact h.rooted
  · intro x w hw
    rw [hparent]
    if hx : x = e.id then
      rw [hx, update_self] at hw
      cases hw
      rw [hx]
      exact h.exact e.id v hv
    else
      rw [update_of_ne hx] at hw
      exact h.exact x w hw
  · simp

theorem rename_conflict (h : TreeInv s started nodes) {e : DnEntry} {w : Node} {a nsubs : Nat} {upsub : Bool}
    {sub : Nat → Nat → Except Rc Nat} {db : Dn2id} (hv : nodes e.id = some v)
    (hdel : mdbDn2idDelete sub s.dn2id (v.parent, v.child e.id) e.id 0 = .ok db) (hae : a ≠ e.id)
    (ha : nodes a = some w) (hp : w.parent = v.parent) (hn : w.nrdn = e.nrdn suffix) :
    mdbDn2idAdd suffix db v.parent nsubs upsub e = .error .keyexist := by
  obtain ⟨db₁, hrep₁, hdel₁⟩ := h.unlink hv
  rw [hdel₁ sub] at hdel
  cases hdel
  exact dn2idAdd_eq_error hrep₁ (by rw [update_of_ne hae, ha]) hp hn

theorem moveNode (h : TreeInv s started nodes) {e : DnEntry} {v : Node} {q : Nat} (hv : nodes e.id = some v)
    (hq : Reaches nodes.parent q 0) (hqe : ¬ Reaches nodes.parent q e.id)
    (hname : ∀ a w, a ≠ e.id → nodes a = some w → w.parent = q → w.nrdn ≠ e.nrdn suffix) :
    ∃ db₁ db₂ st nodes',
      (∀ sub, SubOk sub → mdbDn2idDelete sub s.dn2id (v.parent, v.child e.id) e.id v.nsubs = .ok db₁) ∧
      mdbDn2idAdd suffix db₁ q v.nsubs true e = .ok db₂ ∧ TreeInv { s with dn2id := db₂ } st nodes' ∧
      nodes'.labels = Function.update nodes.labels e.id (some (q, e.nrdn suffix, e.rdn suffix)) := by
  obtain ⟨l₁, db₁, hl₁, hexact, hrep₁, hdel⟩ := h.detach hv
  obtain ⟨l, hl, hlen⟩ := h.chain hq
  have hpe : nodes.parent e.id = some v.parent := Nodes.parent_eq_some.mpr ⟨v, hv, rfl⟩
  have hne : q ≠ e.id := by
    intro he
    rw [he] at hqe
    exact hqe (.refl _)
  have hparent₁ : Nodes.parent (Nodes.bump (Function.update nodes e.id none) l₁ fun subs => subs - v.nsubs) =
      Function.update nodes.parent e.id none := by
    rw [Nodes.parent_bump, Nodes.parent_update_none]
  have hchain : Chain (Nodes.parent (Nodes.bump (Function.update nodes e.id none) l₁ fun subs => subs - v.nsubs))
      0 q l := by
    refine hl.congr ?_
    intro x hx
    have hxe : x ≠ e.id := by
      intro he
      exact hqe (he ▸ ((hl.mem_iff h.parent_zero).mp hx).1)
    rw [hparent₁, update_of_ne hxe]
  have hqe₁ := not_reaches_detach hqe
  have hnone : Nodes.bump (Function.update nodes e.id none) l₁ (fun subs => subs - v.nsubs) e.id = none := by
    rw [Nodes.bump_eq_none, update_self]
  have hname₁ : ∀ a w, Nodes.bump (Function.update nodes e.id none) l₁ (fun subs => subs - v.nsubs) a = some w →
      w.parent = q → w.nrdn ≠ e.nrdn suffix := by
    intro a w ha hw
    obtain ⟨u, hu, rfl⟩ := Nodes.bump_eq_some ha
    if hae : a = e.id then
      rw [hae, update_self] at hu
      cases hu
    else
      rw [update_of_ne hae] at hu
      have hsame : ∀ w' : Node, (w' = if a ∈ l₁ then { u with nsubs := u.nsubs - v.nsubs } else u) →
          w'.parent = u.parent ∧ w'.nrdn = u.nrdn := by
        intro w' hw'
        split_ifs at hw' <;> rw [hw'] <;> exact ⟨rfl, rfl⟩
      obtain ⟨hp, hn⟩ := hsame _ rfl
      rw [hn]
      exact hname a u hae hu (hp.symm.trans hw)
  obtain ⟨db₂, hadd, hrep₂⟩ := @dn2idAdd_spec _ _ _ suffix e q v.nsubs true l hrep₁ hnone (h.rep.ne_zero hv) hne
    hname₁ hchain hlen
  rw [if_pos rfl] at hrep₂
  have hsize : size (Function.update nodes.parent e.id none) s.id2entry.toFinset e.id = v.nsubs := by
    rw [h.exact e.id v hv]
    exact (size_detach h.rep.root hv hl₁ 0).1.symm
  have hattach := hexact.attach (n := e.nrdn suffix) (r := e.rdn suffix) hrep₁.root hnone hchain
    (by rw [hparent₁]; exact hqe₁) h.card_lt
  rw [hparent₁, hsize] at hattach
  have hup : ∀ x, Reaches nodes.parent x 0 → Reaches (Function.update nodes.parent e.id none) x 0 ∨
      Reaches (Function.update nodes.parent e.id none) x e.id := by
    intro x hx
    cases (reaches_detach hpe (h.not_reaches_parent hv)).mp hx with
    | inl hr => exact .inl hr
    | inr hr => exact .inr hr.1
  have hq₁ : Reaches (Function.update nodes.parent e.id none) q 0 := by
    cases hup q hq with
    | inl hr => exact hr
    | inr hr => exact absurd hr hqe₁
  refine ⟨db₁, db₂, _, _, hdel, hadd, ⟨hrep₂, ?_, h.increasing, h.range, ?_, hattach⟩, ?_⟩
  · intro x
    rw [ne_eq, Nodes.bump_eq_none]
    if hx : x = e.id then
      rw [hx, update_self]
      simpa using h.mem_of_node hv
    else
      rw [update_of_ne hx, Nodes.bump_eq_none, update_of_ne hx]
      exact h.ids x
  · intro x hx
    rw [Nodes.parent_bump, Nodes.parent_update_some, hparent₁,
      reaches_attach (update_self ..) hqe₁]
    cases hup x (h.rooted x hx) with
    | inl hr => exact .inl hr
    | inr hr => exact .inr ⟨hr, hq₁⟩
  · simp

end TreeInv
/-! ## Tables for a tree -/

theorem exists_sortedBy {δ β : Type*} [LinearOrder β] (key : δ → β) (ds : List δ)
    (hinj : ∀ a ∈ ds, ∀ b ∈ ds, key a = key b → a = b) :
    ∃ es, DupSort.SortedBy key es ∧ ∀ d, d ∈ es ↔ d ∈ ds := by
  induction ds with
  | nil => exact ⟨[], DupSort.sortedBy_nil, fun _ => Iff.rfl⟩
  | cons a ds ih =>
    obtain ⟨es, hes, hmem⟩ := ih fun x hx y hy => hinj x (mem_cons_of_mem _ hx) y (mem_cons_of_mem _ hy)
    refine ⟨DupSort.insert key a es, DupSort.insert_sortedBy hes, ?_⟩
    intro d
    rw [DupSort.mem_insert hes, mem_cons, hmem]
    constructor
    · intro hd
      cases hd with
      | inl hd => exact .inl hd
      | inr hd => exact .inr hd.1
    · intro hd
      if hda : d = a then exact .inl hda
      else
        cases hd with
        | inl hd => exact absurd hd hda
        | inr hd =>
          exact .inr ⟨hd, fun hk => hda (hinj d (mem_cons_of_mem _ hd) a mem_cons_self hk)⟩

noncomputable def nodesOf (parent : Nat → Option Nat) (name : Nat → List Byte) (N : Finset Nat) : Nodes := fun x =>
  (parent x).map fun p => ⟨p, name x, name x, size parent N x⟩

section

variable {parent : Nat → Option Nat} {name : Nat → List Byte} {ids : List Nat}

theorem nodesOf_eq_some {N : Finset Nat} {x : Nat} {v : Node} :
    nodesOf parent name N x = some v ↔ ∃ p, parent x = some p ∧ v = ⟨p, name x, name x, size parent N x⟩ := by
  unfold nodesOf
  rw [map_eq_some_iff]
  simp only [eq_comm]

theorem nodesOf_parent (N : Finset Nat) : (nodesOf parent name N).parent = parent := by
  funext x
  unfold Nodes.parent nodesOf
  cases parent x <;> rfl

theorem HasRecord.eq_of_key {nodes : Nodes} {started : Bool} (h0 : nodes 0 = none)
    (hname : ∀ x y v w, nodes x = some v → nodes y = some w → v.nrdn = w.nrdn → x = y) {k : Nat} {a b : DiskNode}
    (ha : HasRecord nodes started k a) (hb : HasRecord nodes started k b) (hkey : a.key = b.key) : a = b := by
  have hk := mkKey_inj hkey
  cases ha with
  | @own v hv =>
    cases hb with
    | own hw =>
      rw [hv] at hw
      cases hw
      rfl
    | root hk0 _ =>
      rw [hk0, h0] at hv
      cases hv
    | child _ _ => cases hk.1
  | root hk0 _ =>
    cases hb with
    | own hw =>
      rw [hk0, h0] at hw
      cases hw
    | root _ _ => rfl
    | child _ _ => cases hk.1
  | @child c v hc _ =>
    cases hb with
    | own _ => cases hk.1
    | root _ _ => cases hk.1
    | @child c' w hc' _ =>
      have hcc := hname c c' v w hc hc' hk.2
      subst hcc
      rw [hc] at hc'
      cases hc'
      rfl

theorem exists_tree (hinc : Increasing ids) (hids : ∀ x, x ∈ ids ↔ parent x ≠ none)
    (hrange : ∀ x ∈ ids, 0 < x ∧ x < 2 ^ 64) (hroot : ∀ x ∈ ids, Reaches parent x 0)
    (hname : ∀ x ∈ ids, ∀ y ∈ ids, name x = name y → x = y) :
    ∃ s : Tables, s.id2entry = ids ∧ TreeInv s true (nodesOf parent name ids.toFinset) := by
  have hnode : ∀ x v, nodesOf parent name ids.toFinset x = some v → x ∈ ids ∧ v.nrdn = name x := by
    intro x v hv
    obtain ⟨p, hp, rfl⟩ := nodesOf_eq_some.mp hv
    exact ⟨(hids x).mpr (by simp [hp]), rfl⟩
  have h0 : nodesOf parent name ids.toFinset 0 = none := by
    rw [eq_none_iff_forall_not_mem]
    intro v hv
    exact absurd (hrange 0 (hnode 0 v hv).1).1 (lt_irrefl 0)
  have hdb : ∀ k, ∃ ds, DupSort.SortedBy DiskNode.key ds ∧
      ∀ d, d ∈ ds ↔ HasRecord (nodesOf parent name ids.toFinset) true k d := by
    intro k
    let children : List DiskNode := ids.filterMap fun c =>
      (nodesOf parent name ids.toFinset c).bind fun v => if v.parent = k then some (v.child c) else none
    have hall : ∀ d, d ∈ (if k = 0 then [dummyRoot] else []) ++
        ((nodesOf parent name ids.toFinset k).toList.map Node.own ++ children) ↔
          HasRecord (nodesOf parent name ids.toFinset) true k d := by
      intro d
      rw [mem_append, mem_append]
      constructor
      · rintro (hd | hd | hd)
        · split_ifs at hd with hk
          · rw [List.mem_singleton.mp hd]
            exact .root hk rfl
          · cases hd
        · obtain ⟨v, hv, rfl⟩ := List.mem_map.mp hd
          exact .own (Option.mem_toList.mp hv)
        · obtain ⟨c, -, hc⟩ := List.mem_filterMap.mp hd
          obtain ⟨v, hv, hd⟩ := Option.bind_eq_some_iff.mp hc
          split_ifs at hd with hp
          cases hd
          exact .child hv hp
      · intro hd
        cases hd with
        | own hv => exact .inr (.inl (List.mem_map.mpr ⟨_, Option.mem_toList.mpr hv, rfl⟩))
        | root hk _ => exact .inl (by rw [if_pos hk]; exact List.mem_singleton.mpr rfl)
        | @child c v hc hp =>
          refine .inr (.inr (List.mem_filterMap.mpr ⟨c, (hnode c v hc).1, ?_⟩))
          rw [hc, bind_some, if_pos hp]
    obtain ⟨es, hes, hmem⟩ := exists_sortedBy DiskNode.key _ (by
      intro a ha b hb hkey
      refine HasRecord.eq_of_key h0 ?_ ((hall a).mp ha) ((hall b).mp hb) hkey
      intro x y v w hv hw hvw
      obtain ⟨hx, hxn⟩ := hnode x v hv
      obtain ⟨hy, hyn⟩ := hnode y w hw
      exact hname x hx y hy (by rw [← hxn, hvw, hyn]))
    exact ⟨es, hes, fun d => (hmem d).trans (hall d)⟩
  choose db hsorted hmem using hdb
  refine ⟨⟨db, ids⟩, rfl, ⟨hsorted, hmem, h0⟩, ?_, hinc, hrange, ?_, ?_⟩
  · intro x
    rw [hids]
    simp [nodesOf]
  · rw [nodesOf_parent]
    exact hroot
  · intro x v hv
    obtain ⟨p, -, rfl⟩ := nodesOf_eq_some.mp hv
    rw [nodesOf_parent]

end

end BackMdb
end ReOpenLDAP
