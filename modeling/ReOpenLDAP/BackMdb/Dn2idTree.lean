import ReOpenLDAP.BackMdb.Dn2id
import ReOpenLDAP.Lib.Forest

/-!
# BackMdb.Dn2idTree

The tree that a dn2id database stands for. `Node` is what the two records of an entry say about it, and
`Represents db nodes` says that `db` holds the two records of each node, and nothing else.
-/

namespace ReOpenLDAP
namespace BackMdb

open Function

structure Node where
  parent : Nat
  nrdn : List Byte
  rdn : List Byte
  nsubs : Nat
deriving DecidableEq

namespace Node

def own (v : Node) : DiskNode := ⟨false, v.nrdn, v.rdn, v.parent, 0⟩

def child (v : Node) (id : Nat) : DiskNode := ⟨true, v.nrdn, v.rdn, id, v.nsubs⟩

end Node

abbrev Nodes := Nat → Option Node

def Nodes.parent (nodes : Nodes) (id : Nat) : Option Nat := (nodes id).map Node.parent

/-- The records a tree has under one key. `started` tells whether the dummy of ID 0 was stored. -/
inductive HasRecord (nodes : Nodes) (started : Bool) (k : Nat) : DiskNode → Prop where
  | own {v : Node} : nodes k = some v → HasRecord nodes started k v.own
  | root : k = 0 → started = true → HasRecord nodes started k dummyRoot
  | child {c : Nat} {v : Node} : nodes c = some v → v.parent = k → HasRecord nodes started k (v.child c)

structure Represents (db : Dn2id) (started : Bool) (nodes : Nodes) : Prop where
  sorted : ∀ k, DupSort.SortedBy DiskNode.key (db k)
  mem : ∀ k d, d ∈ db k ↔ HasRecord nodes started k d
  root : nodes 0 = none

theorem mkKey_inj {c c' : Bool} {n n' : List Byte} (h : DiskNode.mkKey c n = DiskNode.mkKey c' n') :
    c = c' ∧ n = n' := by
  have h₁ := congrArg (fun k : DiskNode.Key => ((ofLex k).1, (ofLex (ofLex k).2).2)) h
  exact ⟨congrArg Prod.fst h₁, congrArg Prod.snd h₁⟩

theorem mkKey_own_lt_child (n m : List Byte) : DiskNode.mkKey false n < DiskNode.mkKey true m :=
  Prod.Lex.toLex_lt_toLex.mpr (.inl Bool.false_lt_true)

@[simp] theorem own_key (v : Node) : v.own.key = DiskNode.mkKey false v.nrdn := rfl

@[simp] theorem child_key (v : Node) (c : Nat) : (v.child c).key = DiskNode.mkKey true v.nrdn := rfl

@[simp] theorem dummyRoot_key : dummyRoot.key = DiskNode.mkKey false [] := rfl

@[simp] theorem own_lastID (v : Node) : v.own.lastID = v.parent := rfl

@[simp] theorem child_lastID (v : Node) (c : Nat) : (v.child c).lastID = v.nsubs := rfl

theorem Node.child_inj {v w : Node} {a b : Nat} (h : v.child a = w.child b) :
    a = b ∧ v.nrdn = w.nrdn ∧ v.rdn = w.rdn ∧ v.nsubs = w.nsubs := by
  simp only [Node.child, DiskNode.mk.injEq] at h
  tauto

theorem Node.own_ne_child {v w : Node} {c : Nat} : v.own ≠ w.child c := by
  intro h
  have := congrArg DiskNode.child h
  cases this

section

variable {db : Dn2id} {started : Bool} {nodes : Nodes}
variable {d : DiskNode} {v : Node} {k c p : Nat}

theorem HasRecord.eq_own (hv : nodes k = some v) (h0 : nodes 0 = none)
    (h : HasRecord nodes started k d) (hd : d.child = false) : d = v.own := by
  cases h with
  | own hv' =>
    rw [hv] at hv'
    cases hv'
    rfl
  | root hk _ =>
    rw [hk, h0] at hv
    cases hv
  | child _ _ => cases hd

theorem HasRecord.exists_child (h : HasRecord nodes started k d) (hd : d.child = true) :
    ∃ c v, nodes c = some v ∧ v.parent = k ∧ d = v.child c := by
  cases h with
  | own _ => cases hd
  | root _ _ => cases hd
  | @child c v hc hk => exact ⟨c, v, hc, hk, rfl⟩

namespace Represents

variable {v : Node}

theorem name_unique (h : Represents db started nodes) {a b : Nat} {w : Node} (ha : nodes a = some v)
    (hb : nodes b = some w) (hp : v.parent = w.parent) (hn : v.nrdn = w.nrdn) : a = b := by
  have hva := (h.mem v.parent _).mpr (.child ha rfl)
  have hwb := (h.mem v.parent _).mpr (.child hb hp.symm)
  have heq := (h.sorted v.parent).eq_of_key hva hwb (by simp [hn])
  exact (Node.child_inj heq).1

theorem unique {db' : Dn2id} (h : Represents db started nodes) (h' : Represents db' started nodes) : db = db' := by
  funext k
  refine (h.sorted k).eq_of_mem_iff (h'.sorted k) ?_
  intro d
  rw [h.mem, h'.mem]

theorem ne_zero (h : Represents db started nodes) {k : Nat} (hv : nodes k = some v) : k ≠ 0 := by
  intro hk
  rw [hk, h.root] at hv
  cases hv

theorem set_own (h : Represents db started nodes) {k : Nat} (hv : nodes k = some v) : db.set k = .ok v.own := by
  have hmem : v.own ∈ db k := (h.mem k _).mpr (.own hv)
  have hsorted := h.sorted k
  unfold Dn2id.set
  cases hdb : db k with
  | nil =>
    rw [hdb] at hmem
    cases hmem
  | cons d ds =>
    rw [hdb] at hmem hsorted
    have hd : HasRecord nodes started k d := (h.mem k d).mp (hdb ▸ List.mem_cons_self)
    cases hmem with
    | head => rfl
    | tail _ hmem =>
      -- nothing is smaller than the own record
      have hlt : d.key < v.own.key := (DupSort.sortedBy_cons.mp hsorted).1 _ hmem
      have hchild : d.child = false := by
        cases hc : d.child with
        | false => rfl
        | true =>
          exfalso
          obtain ⟨c, w, -, -, hdw⟩ := hd.exists_child hc
          rw [hdw, own_key, child_key] at hlt
          exact absurd (mkKey_own_lt_child v.nrdn w.nrdn) hlt.not_gt
      rw [hd.eq_own hv h.root hchild] at hlt
      exact absurd hlt (lt_irrefl _)

theorem getBoth_child (h : Represents db started nodes) {c : Nat} (hc : nodes c = some v) :
    db.getBoth v.parent (DiskNode.mkKey true v.nrdn) = .ok (v.child c) := by
  have hfind : DupSort.find DiskNode.key (DiskNode.mkKey true v.nrdn) (db v.parent) = some (v.child c) :=
    (DupSort.find_eq_some (h.sorted _)).mpr ⟨(h.mem _ _).mpr (.child hc rfl), rfl⟩
  unfold Dn2id.getBoth
  rw [hfind]

theorem getBoth_cases (h : Represents db started nodes) (p : Nat) (n : List Byte) :
    (∃ c v, nodes c = some v ∧ v.parent = p ∧ v.nrdn = n ∧
      db.getBoth p (DiskNode.mkKey true n) = .ok (v.child c)) ∨
    ((∀ c v, nodes c = some v → v.parent = p → v.nrdn ≠ n) ∧
      db.getBoth p (DiskNode.mkKey true n) = .error .notfound) := by
  unfold Dn2id.getBoth
  cases hf : DupSort.find DiskNode.key (DiskNode.mkKey true n) (db p) with
  | none =>
    refine .inr ⟨?_, rfl⟩
    intro c v hc hp hn
    refine DupSort.find_eq_none.mp hf (v.child c) ((h.mem _ _).mpr (.child hc hp)) ?_
    rw [child_key, hn]
  | some d =>
    obtain ⟨hd, hk⟩ := (DupSort.find_eq_some (h.sorted _)).mp hf
    obtain ⟨hchild, hn⟩ := mkKey_inj hk
    obtain ⟨c, v, hc, hp, rfl⟩ := ((h.mem _ _).mp hd).exists_child hchild
    exact .inl ⟨c, v, hc, hp, hn, rfl⟩

end Represents

theorem hasRecord_update : HasRecord (Function.update nodes c (some v)) started k d ↔
      (k = c ∧ d = v.own) ∨ (k = v.parent ∧ d = v.child c) ∨
      HasRecord (Function.update nodes c none) started k d := by
  constructor
  · intro h
    cases h with
    | @own w hw =>
      if hk : k = c then
        rw [hk, update_self] at hw
        cases hw
        exact .inl ⟨hk, rfl⟩
      else
        rw [update_of_ne hk] at hw
        exact .inr (.inr (.own (by rw [update_of_ne hk, hw])))
    | root hk hs => exact .inr (.inr (.root hk hs))
    | @child a w hw hp =>
      if ha : a = c then
        rw [ha, update_self] at hw
        cases hw
        exact .inr (.inl ⟨hp.symm, by rw [ha]⟩)
      else
        rw [update_of_ne ha] at hw
        exact .inr (.inr (.child (by rw [update_of_ne ha, hw]) hp))
  · intro h
    obtain ⟨rfl, rfl⟩ | ⟨rfl, rfl⟩ | h := h
    · exact .own (by rw [update_self])
    · exact .child (by rw [update_self]) rfl
    · cases h with
      | @own w hw =>
        have hk : k ≠ c := by
          intro hk
          rw [hk, update_self] at hw
          cases hw
        rw [update_of_ne hk] at hw
        exact .own (by rw [update_of_ne hk, hw])
      | root hk hs => exact .root hk hs
      | @child a w hw hp =>
        have ha : a ≠ c := by
          intro ha
          rw [ha, update_self] at hw
          cases hw
        rw [update_of_ne ha] at hw
        exact .child (by rw [update_of_ne ha, hw]) hp

theorem hasRecord_split (hc : nodes c = some v) (k : Nat) (d : DiskNode) :
    HasRecord nodes started k d ↔ (k = c ∧ d = v.own) ∨ (k = v.parent ∧ d = v.child c) ∨
      HasRecord (Function.update nodes c none) started k d := by
  have hold : nodes = Function.update nodes c (some v) := by rw [← hc, update_eq_self]
  conv_lhs => rw [hold]
  exact hasRecord_update

theorem HasRecord.ne_of_update_none {w : Node} (h : HasRecord (Function.update nodes c none) started k d) : d ≠ w.child c := by
  intro hd
  obtain ⟨a, v, ha, -, rfl⟩ := h.exists_child (by rw [hd]; rfl)
  have hac := (Node.child_inj hd).1
  rw [hac, update_self] at ha
  cases ha

namespace Represents

variable {c : Nat}

theorem setCount (h : Represents db started nodes) {v : Node} (hc : nodes c = some v) (m : Nat) :
    Represents (db.putCurrent v.parent ({ v with nsubs := m }.child c)) started
      (Function.update nodes c (some { v with nsubs := m })) := by
  have hrest : ∀ k d, HasRecord nodes started k d ↔ _ := hasRecord_split hc
  refine ⟨?_, ?_, ?_⟩
  · intro k
    if hk : k = v.parent then
      subst hk
      rw [Dn2id.putCurrent, update_self]
      exact DupSort.insert_sortedBy (h.sorted _)
    else
      rw [Dn2id.putCurrent, update_of_ne hk]
      exact h.sorted k
  · intro k d
    rw [hasRecord_update]
    if hk : k = v.parent then
      subst hk
      rw [Dn2id.putCurrent, update_self, DupSort.mem_insert (h.sorted _), h.mem]
      constructor
      · intro hd
        obtain rfl | ⟨hd, hne⟩ := hd
        · exact .inr (.inl ⟨rfl, rfl⟩)
        · obtain hd | ⟨-, hd⟩ | hd := (hrest _ _).mp hd
          · exact .inl hd
          · exact absurd (by rw [hd]; rfl) hne
          · exact .inr (.inr hd)
      · intro hd
        obtain ⟨hk, hd⟩ | ⟨-, hd⟩ | hd := hd
        · refine .inr ⟨(hrest _ _).mpr (.inl ⟨hk, hd⟩), ?_⟩
          rw [hd]
          intro hkey
          cases (mkKey_inj hkey).1
        · exact .inl hd
        · refine .inr ⟨(hrest _ _).mpr (.inr (.inr hd)), ?_⟩
          intro hkey
          have hmem : d ∈ db v.parent := (h.mem _ _).mpr ((hrest _ _).mpr (.inr (.inr hd)))
          have hv : v.child c ∈ db v.parent := (h.mem _ _).mpr (.child hc rfl)
          exact hd.ne_of_update_none ((h.sorted _).eq_of_key hmem hv hkey)
    else
      rw [Dn2id.putCurrent, update_of_ne hk, h.mem, hrest]
      constructor
      · intro hd
        obtain hd | ⟨hk', -⟩ | hd := hd
        · exact .inl hd
        · exact absurd hk' hk
        · exact .inr (.inr hd)
      · intro hd
        obtain hd | ⟨hk', -⟩ | hd := hd
        · exact .inl hd
        · exact absurd hk' hk
        · exact .inr (.inr hd)
  · rw [update_of_ne (h.ne_zero hc).symm]
    exact h.root

theorem remove (h : Represents db started nodes) {v : Node} (hc : nodes c = some v) (hp : v.parent ≠ c) :
    Represents ((db.del v.parent (DiskNode.mkKey true v.nrdn)).del c (DiskNode.mkKey false v.nrdn)) started
      (Function.update nodes c none) := by
  have hrest : ∀ k d, HasRecord nodes started k d ↔ _ := hasRecord_split hc
  have hown : v.own ∈ db c := (h.mem _ _).mpr (.own hc)
  have hchild : v.child c ∈ db v.parent := (h.mem _ _).mpr (.child hc rfl)
  have hdel : ∀ k, ((db.del v.parent (DiskNode.mkKey true v.nrdn)).del c (DiskNode.mkKey false v.nrdn)) k =
      if k = c then DupSort.erase DiskNode.key (DiskNode.mkKey false v.nrdn) (db c)
      else if k = v.parent then DupSort.erase DiskNode.key (DiskNode.mkKey true v.nrdn) (db v.parent)
      else db k := by
    intro k
    unfold Dn2id.del
    rw [update_of_ne hp.symm]
    split_ifs with h1 h2
    · rw [h1, update_self]
    · rw [h2, update_of_ne hp, update_self]
    · rw [update_of_ne h1, update_of_ne h2]
  refine ⟨?_, ?_, ?_⟩
  · intro k
    rw [hdel]
    split_ifs
    · exact DupSort.erase_sortedBy (h.sorted _)
    · exact DupSort.erase_sortedBy (h.sorted _)
    · exact h.sorted k
  · intro k d
    rw [hdel]
    split_ifs with h1 h2
    · rw [DupSort.mem_erase, h.mem, hrest, h1]
      constructor
      · intro hd
        obtain ⟨⟨-, hd⟩ | ⟨hk, -⟩ | hd, hne⟩ := hd
        · exact absurd (by rw [hd]; rfl) hne
        · exact absurd hk.symm hp
        · exact hd
      · intro hd
        refine ⟨.inr (.inr hd), ?_⟩
        intro hkey
        have hmem : d ∈ db c := (h.mem _ _).mpr ((hrest _ _).mpr (.inr (.inr hd)))
        have heq : d = v.own := (h.sorted c).eq_of_key hmem hown hkey
        cases hd with
        | own hw =>
          rw [update_self] at hw
          cases hw
        | root hk _ => exact h.ne_zero hc hk
        | child _ _ => exact Node.own_ne_child heq.symm
    · rw [DupSort.mem_erase, h.mem, hrest, h2]
      constructor
      · intro hd
        obtain ⟨⟨hk, -⟩ | ⟨-, hd⟩ | hd, hne⟩ := hd
        · exact absurd hk hp
        · exact absurd (by rw [hd]; rfl) hne
        · exact hd
      · intro hd
        refine ⟨.inr (.inr hd), ?_⟩
        intro hkey
        have hmem : d ∈ db v.parent := (h.mem _ _).mpr ((hrest _ _).mpr (.inr (.inr hd)))
        exact hd.ne_of_update_none ((h.sorted _).eq_of_key hmem hchild hkey)
    · rw [h.mem, hrest]
      simp [h1, h2]
  · rw [update_of_ne (h.ne_zero hc).symm]
    exact h.root

theorem insert (h : Represents db started nodes) {c : Nat} {v : Node} (hc : nodes c = none) (h0 : c ≠ 0)
    (hp : v.parent ≠ c) (hname : ∀ a w, nodes a = some w → w.parent = v.parent → w.nrdn ≠ v.nrdn) :
    ∃ db₁ db₂, db.putNodup v.parent (v.child c) = .ok db₁ ∧ db₁.putNodup c v.own = .ok db₂ ∧
      Represents db₂ started (Function.update nodes c (some v)) := by
  have hnone : Function.update nodes c none = nodes := by rw [← hc, update_eq_self]
  have hfind₁ : DupSort.find DiskNode.key (v.child c).key (db v.parent) = none := by
    refine DupSort.find_eq_none.mpr ?_
    intro d hd hkey
    obtain ⟨hchild, hn⟩ := mkKey_inj hkey
    obtain ⟨a, w, ha, hpa, rfl⟩ := ((h.mem _ _).mp hd).exists_child hchild
    exact hname a w ha hpa hn
  have hkey₂ : ∀ d ∈ db c, d.key ≠ v.own.key := by
    intro d hd hkey
    have hchild := (mkKey_inj hkey).1
    cases (h.mem _ _).mp hd with
    | own hw =>
      rw [hc] at hw
      cases hw
    | root hk _ => exact h0 hk
    | child _ _ => cases hchild
  have hfind₂ : DupSort.find DiskNode.key v.own.key (db c) = none := DupSort.find_eq_none.mpr hkey₂
  have hput₁ : db.putNodup v.parent (v.child c) =
      .ok (Function.update db v.parent (DupSort.insert DiskNode.key (v.child c) (db v.parent))) := by
    unfold Dn2id.putNodup
    rw [hfind₁]
  refine ⟨_, Function.update (Function.update db v.parent (DupSort.insert DiskNode.key (v.child c) (db v.parent))) c
    (DupSort.insert DiskNode.key v.own (db c)), hput₁, ?_, ?_⟩
  · unfold Dn2id.putNodup
    rw [update_of_ne hp.symm, hfind₂]
  · have hput : ∀ k, Function.update (Function.update db v.parent
          (DupSort.insert DiskNode.key (v.child c) (db v.parent))) c (DupSort.insert DiskNode.key v.own (db c)) k =
        if k = c then DupSort.insert DiskNode.key v.own (db c)
        else if k = v.parent then DupSort.insert DiskNode.key (v.child c) (db v.parent)
        else db k := by
      intro k
      split_ifs with h1 h2
      · rw [h1, update_self]
      · rw [update_of_ne h1, h2, update_self]
      · rw [update_of_ne h1, update_of_ne h2]
    refine ⟨?_, ?_, ?_⟩
    · intro k
      rw [hput]
      split_ifs
      · exact DupSort.insert_sortedBy (h.sorted _)
      · exact DupSort.insert_sortedBy (h.sorted _)
      · exact h.sorted k
    · intro k d
      rw [hput, hasRecord_update, hnone, ← h.mem]
      split_ifs with h1 h2
      · rw [DupSort.mem_insert (h.sorted _), h1]
        constructor
        · intro hd
          obtain hd | ⟨hd, -⟩ := hd
          · exact .inl ⟨rfl, hd⟩
          · exact .inr (.inr hd)
        · intro hd
          obtain ⟨-, hd⟩ | ⟨hk, -⟩ | hd := hd
          · exact .inl hd
          · exact absurd hk.symm hp
          · exact .inr ⟨hd, hkey₂ d hd⟩
      · rw [DupSort.mem_insert (h.sorted _), h2]
        constructor
        · intro hd
          obtain hd | ⟨hd, -⟩ := hd
          · exact .inr (.inl ⟨rfl, hd⟩)
          · exact .inr (.inr hd)
        · intro hd
          obtain ⟨hk, -⟩ | ⟨-, hd⟩ | hd := hd
          · exact absurd hk hp
          · exact .inl hd
          · exact .inr ⟨hd, DupSort.find_eq_none.mp hfind₁ d hd⟩
      · simp [h1, h2]
    · rw [update_of_ne h0.symm]
      exact h.root

theorem putNodup_child_eq_error (h : Represents db started nodes) {a p : Nat} {w : Node} {rdn : List Byte} {m : Nat}
    (ha : nodes a = some w) (hp : w.parent = p) :
    db.putNodup p ⟨true, w.nrdn, rdn, c, m⟩ = .error .keyexist := by
  have hfind : DupSort.find DiskNode.key (DiskNode.key ⟨true, w.nrdn, rdn, c, m⟩) (db p) = some (w.child a) :=
    (DupSort.find_eq_some (h.sorted _)).mpr ⟨(h.mem _ _).mpr (.child ha hp), rfl⟩
  unfold Dn2id.putNodup
  rw [hfind]

theorem makeDummyRoot_zero (h : Represents db started nodes) : Represents (makeDummyRoot db 0) true nodes := by
  have hrec : ∀ k d, HasRecord nodes true k d ↔ HasRecord nodes started k d ∨ (k = 0 ∧ d = dummyRoot) := by
    intro k d
    constructor
    · intro hd
      cases hd with
      | own hv => exact .inl (.own hv)
      | root hk _ => exact .inr ⟨hk, rfl⟩
      | child hc hp => exact .inl (.child hc hp)
    · intro hd
      obtain hd | ⟨hk, rfl⟩ := hd
      · cases hd with
        | own hv => exact .own hv
        | root hk _ => exact .root hk rfl
        | child hc hp => exact .child hc hp
      · exact .root hk rfl
  unfold makeDummyRoot Dn2id.putNodup
  rw [if_pos rfl]
  cases hf : DupSort.find DiskNode.key dummyRoot.key (db 0) with
  | some d =>
    refine ⟨h.sorted, ?_, h.root⟩
    obtain ⟨hd, hkey⟩ := (DupSort.find_eq_some (h.sorted 0)).mp hf
    have hdummy : d = dummyRoot := by
      cases (h.mem 0 d).mp hd with
      | own hv => exact absurd rfl (h.ne_zero hv)
      | root _ _ => rfl
      | child _ _ => cases (mkKey_inj hkey).1
    intro k d'
    rw [h.mem, hrec]
    constructor
    · exact .inl
    · intro hd'
      obtain hd' | ⟨hk, hd'⟩ := hd'
      · exact hd'
      · rw [hk, hd', ← hdummy]
        exact (h.mem 0 d).mp hd
  | none =>
    refine ⟨?_, ?_, h.root⟩
    · intro k
      if hk : k = 0 then
        rw [hk]
        simp only [update_self]
        exact DupSort.insert_sortedBy (h.sorted 0)
      else
        simp only [update_of_ne hk]
        exact h.sorted k
    · intro k d
      rw [hrec]
      if hk : k = 0 then
        rw [hk]
        simp only [update_self]
        rw [DupSort.mem_insert (h.sorted 0), h.mem]
        constructor
        · intro hd
          obtain hd | ⟨hd, -⟩ := hd
          · exact .inr ⟨trivial, hd⟩
          · exact .inl hd
        · intro hd
          obtain hd | ⟨-, hd⟩ := hd
          · exact .inr ⟨hd, DupSort.find_eq_none.mp hf d ((h.mem 0 d).mpr hd)⟩
          · exact .inl hd
      else
        simp only [update_of_ne hk]
        rw [h.mem]
        simp [hk]

theorem makeDummyRoot (h : Represents db started nodes) (pid : Nat) :
    Represents (makeDummyRoot db pid) (started || decide (pid = 0)) nodes := by
  if hpid : pid = 0 then
    simpa [hpid] using h.makeDummyRoot_zero
  else
    simpa [BackMdb.makeDummyRoot, hpid] using h

end Represents

/-! ## The counts of the superiors -/

/-- The counts of the nodes of `l` changed by `g`. -/
def Nodes.bump (nodes : Nodes) (l : List Nat) (g : Nat → Nat) : Nodes := fun x =>
  (nodes x).map fun v => if x ∈ l then { v with nsubs := g v.nsubs } else v

@[simp] theorem Nodes.parent_bump (l : List Nat) (g : Nat → Nat) : (nodes.bump l g).parent = nodes.parent := by
  funext x
  unfold Nodes.parent Nodes.bump
  cases nodes x with
  | none => rfl
  | some v =>
    simp only [Option.map_some]
    split_ifs <;> rfl

@[simp] theorem Nodes.bump_nil (g : Nat → Nat) : nodes.bump [] g = nodes := by
  funext x
  simp [Nodes.bump]

theorem Nodes.parent_eq_some {x : Nat} : nodes.parent x = some p ↔ ∃ v, nodes x = some v ∧ v.parent = p := by
  simp [Nodes.parent]

theorem adjustSuperiors_pass {adjust : Nat → Except Rc Nat} {fuel m : Nat}
    (h : Represents db started nodes) (hv : nodes p = some v) (hadj : adjust v.nsubs = .ok m) :
    adjustSuperiors adjust (fuel + 1) db p =
      if v.parent = 0 then .ok (db.putCurrent v.parent ({ v with nsubs := m }.child p))
      else adjustSuperiors adjust fuel (db.putCurrent v.parent ({ v with nsubs := m }.child p)) v.parent := by
  have hget : db.getBoth v.own.lastID (DiskNode.mkKey (!v.own.child) v.own.nrdn) = .ok (v.child p) :=
    h.getBoth_child hv
  have hadj' : adjust (v.child p).lastID = .ok m := hadj
  conv_lhs => unfold adjustSuperiors
  rw [h.set_own hv]
  simp only [hget, hadj']
  rfl

theorem adjustSuperiors_spec {adjust : Nat → Except Rc Nat} {g : Nat → Nat} {fuel : Nat} {l : List Nat}
    (h : Represents db started nodes) (hl : Forest.Chain nodes.parent 0 p l) (hp : p ≠ 0) (hfuel : l.length ≤ fuel)
    (hg : ∀ x ∈ l, ∀ v, nodes x = some v → adjust v.nsubs = .ok (g v.nsubs)) :
    ∃ db', adjustSuperiors adjust fuel db p = .ok db' ∧ Represents db' started (nodes.bump l g) := by
  -- on the way up; each pass corrects one count and leaves the parents as they are
  generalize hparents : nodes.parent = parent at hl
  induction hl generalizing db nodes fuel with
  | nil => exact absurd rfl hp
  | @cons p q l hne hpar hchain ih =>
    subst hparents
    obtain ⟨v, hv, rfl⟩ := Nodes.parent_eq_some.mp hpar
    cases fuel with
    | zero => simp at hfuel
    | succ fuel =>
      have hnd : p ∉ l := (List.nodup_cons.mp (Forest.Chain.cons hne hpar hchain).nodup).1
      have hadj := hg p List.mem_cons_self v hv
      have hset := h.setCount hv (g v.nsubs)
      have hparent : Nodes.parent (Function.update nodes p (some { v with nsubs := g v.nsubs })) = nodes.parent := by
        funext x
        unfold Nodes.parent
        if hx : x = p then
          rw [hx, update_self, hv]
          rfl
        else rw [update_of_ne hx]
      have hbump : Nodes.bump (Function.update nodes p (some { v with nsubs := g v.nsubs })) l g =
          nodes.bump (p :: l) g := by
        funext x
        unfold Nodes.bump
        if hx : x = p then
          rw [hx, update_self, hv]
          simp [hnd]
        else
          rw [update_of_ne hx]
          simp [hx]
      rw [adjustSuperiors_pass h hv hadj]
      if hq : v.parent = 0 then
        rw [if_pos hq]
        refine ⟨_, rfl, ?_⟩
        rw [hq] at hchain
        rw [← hbump, hchain.det .nil, Nodes.bump_nil]
        exact hset
      else
        rw [if_neg hq]
        rw [← hbump]
        refine ih hset hq (by simpa using hfuel) ?_ hparent
        intro x hx w hw
        have hxp : x ≠ p := fun e => hnd (e ▸ hx)
        rw [update_of_ne hxp] at hw
        exact hg x (List.mem_cons_of_mem _ hx) w hw

theorem dn2idAdd_spec {suffix : List Byte} {e : DnEntry} {pid nsubs : Nat} {upsub : Bool} {l : List Nat}
    (h : Represents db started nodes) (hid : nodes e.id = none) (h0 : e.id ≠ 0) (hp : pid ≠ e.id)
    (hname : ∀ a w, nodes a = some w → w.parent = pid → w.nrdn ≠ e.nrdn suffix)
    (hl : Forest.Chain nodes.parent 0 pid l) (hfuel : l.length ≤ NOID) :
    ∃ db', mdbDn2idAdd suffix db pid nsubs upsub e = .ok db' ∧
      Represents db' (started || decide (pid = 0))
        (Nodes.bump (Function.update nodes e.id (some ⟨pid, e.nrdn suffix, e.rdn suffix, nsubs⟩))
          (if upsub then l else []) fun subs => (subs + nsubs) % 2 ^ 64) := by
  have h₀ := h.makeDummyRoot pid
  obtain ⟨db₁, db₂, hput₁, hput₂, h₂⟩ :=
    @Represents.insert _ _ _ h₀ e.id ⟨pid, e.nrdn suffix, e.rdn suffix, nsubs⟩ hid h0 hp hname
  have hout : ∀ x ∈ l, x ≠ e.id := by
    intro x hx he
    obtain ⟨b, hb⟩ := hl.exists_parent hx
    rw [he, Nodes.parent, hid] at hb
    cases hb
  have hput₁' : (makeDummyRoot db pid).putNodup pid ⟨true, e.nrdn suffix, e.rdn suffix, e.id, nsubs⟩ = .ok db₁ := hput₁
  have hput₂' : db₁.putNodup e.id ⟨false, e.nrdn suffix, e.rdn suffix, pid, 0⟩ = .ok db₂ := hput₂
  unfold mdbDn2idAdd
  simp only [hput₁', hput₂']
  if hup : upsub = true ∧ pid ≠ 0 then
    rw [if_pos hup, if_pos hup.1]
    refine adjustSuperiors_spec h₂ (hl.congr ?_) hup.2 hfuel (fun _ _ _ _ => rfl)
    intro x hx
    unfold Nodes.parent
    rw [update_of_ne (hout x hx)]
  else
    rw [if_neg hup]
    refine ⟨db₂, rfl, ?_⟩
    have hnil : (if upsub = true then l else []) = [] := by
      if hu : upsub = true then
        have hpid : pid = 0 := by
          by_contra hne
          exact hup ⟨hu, hne⟩
        rw [hpid] at hl
        rw [if_pos hu, hl.det .nil]
      else rw [if_neg hu]
    rw [hnil, Nodes.bump_nil]
    exact h₂

theorem dn2idAdd_eq_error {suffix : List Byte} {e : DnEntry} {pid nsubs a : Nat} {upsub : Bool} {w : Node}
    (h : Represents db started nodes) (ha : nodes a = some w) (hp : w.parent = pid) (hn : w.nrdn = e.nrdn suffix) :
    mdbDn2idAdd suffix db pid nsubs upsub e = .error .keyexist := by
  have herr : (makeDummyRoot db pid).putNodup pid ⟨true, e.nrdn suffix, e.rdn suffix, e.id, nsubs⟩ = .error .keyexist := by
    rw [← hn]
    exact (h.makeDummyRoot pid).putNodup_child_eq_error ha hp
  unfold mdbDn2idAdd
  simp only [herr]

theorem dn2idDelete_spec {sub : Nat → Nat → Except Rc Nat} {g : Nat → Nat} {id nsubs : Nat} {v : Node} {l : List Nat}
    (h : Represents db started nodes) (hv : nodes id = some v) (hl : Forest.Chain nodes.parent 0 v.parent l)
    (hfuel : l.length ≤ NOID)
    (hg : nsubs ≠ 0 → ∀ x ∈ l, ∀ w, nodes x = some w → sub nsubs w.nsubs = .ok (g w.nsubs)) :
    ∃ db', mdbDn2idDelete sub db (v.parent, v.child id) id nsubs = .ok db' ∧
      Represents db' started
        (Nodes.bump (Function.update nodes id none) (if nsubs ≠ 0 then l else []) g) := by
  have hroot : nodes.parent 0 = none := by rw [Nodes.parent, h.root]; rfl
  have hid0 : id ≠ 0 := h.ne_zero hv
  have hpar : nodes.parent id = some v.parent := by rw [Nodes.parent, hv]; rfl
  have hnot := hl.not_reaches_of_parent hroot hpar
  have hp : v.parent ≠ id := by
    intro e
    rw [e] at hnot
    exact hnot (.refl id)
  have hout : ∀ x ∈ l, x ≠ id := by
    intro x hx e
    exact hnot (e ▸ ((hl.mem_iff hroot).mp hx).1)
  have hset : Dn2id.set (db.del v.parent (DiskNode.mkKey true v.nrdn)) id = .ok v.own := by
    rw [← h.set_own hv]
    unfold Dn2id.set Dn2id.del
    rw [update_of_ne hp.symm]
  have hrem := h.remove hv hp
  unfold mdbDn2idDelete
  simp only [child_key, hset, own_key]
  if hns : nsubs ≠ 0 ∧ v.parent ≠ 0 then
    rw [if_pos hns, if_pos hns.1]
    refine adjustSuperiors_spec hrem (hl.congr ?_) hns.2 hfuel ?_
    · intro x hx
      unfold Nodes.parent
      rw [update_of_ne (hout x hx)]
    · intro x hx w hw
      rw [update_of_ne (hout x hx)] at hw
      exact hg hns.1 x hx w hw
  else
    rw [if_neg hns]
    refine ⟨_, rfl, ?_⟩
    have hnil : (if nsubs ≠ 0 then l else []) = [] := by
      if hn : nsubs ≠ 0 then
        have hp0 : v.parent = 0 := by
          by_contra hne
          exact hns ⟨hn, hne⟩
        rw [hp0] at hl
        rw [if_pos hn, hl.det .nil]
      else rw [if_neg hn]
    rw [hnil, Nodes.bump_nil]
    exact hrem

end
end BackMdb
end ReOpenLDAP
