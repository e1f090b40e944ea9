import ReOpenLDAP.BackMdb.Dn2idTree

/-!
# BackMdb.Dn2idLookup

What `mdb_dn2id` and `mdb_id2name` find in the tree that dn2id stands for.
-/

namespace ReOpenLDAP
namespace BackMdb

open List

inductive Named (nodes : Nodes) : Nat → List (List Byte) → Prop where
  | root : Named nodes 0 []
  | node {x : Nat} {v : Node} {ns : List (List Byte)} :
      nodes x = some v → Named nodes v.parent ns → Named nodes x (v.nrdn :: ns)

section

variable {db : Dn2id} {started : Bool} {nodes : Nodes}

namespace Named

variable {ns : List (List Byte)} {x y : Nat}

theorem cons_inv {n : List Byte} (h : Named nodes x (n :: ns)) :
    ∃ v, nodes x = some v ∧ v.nrdn = n ∧ Named nodes v.parent ns := by
  cases h with
  | node hv hp => exact ⟨_, hv, rfl, hp⟩

theorem nil_inv (h : Named nodes x []) : x = 0 := by
  cases h
  rfl

theorem zero_inv (h0 : nodes 0 = none) (h : Named nodes 0 ns) : ns = [] := by
  cases h with
  | root => rfl
  | node hv _ =>
    rw [h0] at hv
    cases hv

theorem det (h0 : nodes 0 = none) {ms : List (List Byte)} (h : Named nodes x ns) (h' : Named nodes x ms) : ns = ms := by
  induction h generalizing ms with
  | root => exact (h'.zero_inv h0).symm
  | node hv _ ih =>
    cases h' with
    | root =>
      rw [h0] at hv
      cases hv
    | node hv' hp' =>
      rw [hv] at hv'
      cases hv'
      rw [ih hp']

theorem inj (hr : Represents db started nodes) (hx : Named nodes x ns) (hy : Named nodes y ns) : x = y := by
  induction ns generalizing x y with
  | nil =>
    cases hx
    cases hy
    rfl
  | cons n ns ih =>
    obtain ⟨v, hv, hvn, hvp⟩ := hx.cons_inv
    obtain ⟨w, hw, hwn, hwp⟩ := hy.cons_inv
    exact hr.name_unique hv hw (ih hvp hwp) (hvn.trans hwn.symm)

theorem reaches (h : Named nodes x ns) : Forest.Reaches nodes.parent x 0 := by
  induction h with
  | root => exact .refl 0
  | node hv _ ih => exact ih.head (Nodes.parent_eq_some.mpr ⟨_, hv, rfl⟩)

theorem of_chain {l : List Nat} (h : Forest.Chain nodes.parent 0 x l) : ∃ ns, Named nodes x ns := by
  induction h with
  | nil => exact ⟨[], .root⟩
  | cons _ hp _ ih =>
    obtain ⟨v, hv, hvp⟩ := Nodes.parent_eq_some.mp hp
    obtain ⟨ns, hns⟩ := ih
    rw [← hvp] at hns
    exact ⟨v.nrdn :: ns, .node hv hns⟩

theorem suffix_of_reaches (h0 : nodes 0 = none) {ms : List (List Byte)} (hx : Named nodes x ns)
    (hy : Named nodes y ms) (hxy : Forest.Reaches nodes.parent x y) : ms <:+ ns := by
  induction hx with
  | root =>
    have hp0 : nodes.parent 0 = none := by rw [Nodes.parent, h0]; rfl
    have hy0 := (Forest.reaches_of_parent_none hp0).mp hxy
    rw [hy0] at hy
    rw [hy.zero_inv h0]
  | @node x v ns hv hvp ih =>
    have hp : nodes.parent x = some v.parent := Nodes.parent_eq_some.mpr ⟨v, hv, rfl⟩
    cases (Forest.reaches_of_parent hp).mp hxy with
    | inl he =>
      rw [he] at hy
      rw [hy.det h0 (.node hv hvp)]
    | inr hvy => exact (ih hvy).trans (suffix_cons _ _)

theorem of_reaches (hx : Named nodes x ns) (h0 : nodes 0 = none)
    (hxy : Forest.Reaches nodes.parent x y) : ∃ ms, Named nodes y ms := by
  induction hx with
  | root =>
    have hp0 : nodes.parent 0 = none := by rw [Nodes.parent, h0]; rfl
    rw [(Forest.reaches_of_parent_none hp0).mp hxy]
    exact ⟨[], .root⟩
  | @node x v ns hv hvp ih =>
    have hp : nodes.parent x = some v.parent := Nodes.parent_eq_some.mpr ⟨v, hv, rfl⟩
    cases (Forest.reaches_of_parent hp).mp hxy with
    | inl he =>
      rw [he]
      exact ⟨_, .node hv hvp⟩
    | inr hvy => exact ih hvy

theorem congr {nodes' : Nodes} (h : Named nodes x ns) (hsame : ∀ y, Forest.Reaches nodes.parent x y → ∀ v, nodes y = some v →
      ∃ v', nodes' y = some v' ∧ v'.parent = v.parent ∧ v'.nrdn = v.nrdn) : Named nodes' x ns := by
  induction h with
  | root => exact .root
  | @node x v ns hv _ ih =>
    obtain ⟨v', hv', hpar, hn⟩ := hsame x (.refl x) v hv
    rw [← hn]
    refine .node hv' ?_
    rw [hpar]
    refine ih ?_
    intro y hy w hw
    exact hsame y (hy.head (Nodes.parent_eq_some.mpr ⟨v, hv, rfl⟩)) w hw

end Named

/-- The lookup of `mdb_dn2id` on the names of a DN, the highest first. -/
def descend (db : Dn2id) : List (List Byte) → Dn2idResult → Dn2idResult
  | [], r => r
  | n :: ns, r =>
    match db.getBoth r.id (DiskNode.mkKey true n) with
    | .error rc => r.failed rc
    | .ok d => descend db ns (r.found d (if r.nmatched = [] then n else n ++ comma :: r.nmatched))

variable {r : Dn2idResult} {ns rs : List (List Byte)} {x : Nat}

theorem dn2idLoop_eq_descend {dn n post : List Byte} {fuel : Nat}
    (hdn : dn = lowerPart ns ++ n ++ post) (hpost : post = if r.nmatched = [] then [] else comma :: r.nmatched)
    (hn : n ≠ []) (hns : ∀ m ∈ ns, m ≠ [] ∧ comma ∉ m) (hfuel : ns.length < fuel) :
    dn2idLoop db dn fuel (lowerPart ns).length n.length r = descend db (n :: ns) r := by
  induction ns generalizing n post fuel r with
  | nil =>
    cases fuel with
    | zero => simp at hfuel
    | succ fuel =>
      have hdrop : dn.drop (lowerPart []).length = n ++ post := by simp [hdn, lowerPart]
      have hnm : n ++ post = if r.nmatched = [] then n else n ++ comma :: r.nmatched := by
        rw [hpost]
        split_ifs <;> simp
      unfold dn2idLoop descend
      rw [hdrop, take_left]
      cases db.getBoth r.id (DiskNode.mkKey true n) with
      | error rc => rfl
      | ok d => simp [lowerPart, descend, hnm]
  | cons m ns ih =>
    cases fuel with
    | zero => simp at hfuel
    | succ fuel =>
      obtain ⟨hm, hmsep⟩ := hns m mem_cons_self
      have hmlen : 0 < m.length := length_pos_of_ne_nil hm
      have hoff : (lowerPart (m :: ns)).length = (lowerPart ns).length + m.length + 1 := by
        simp only [lowerPart, length_append, length_singleton]
      have hdrop : dn.drop (lowerPart (m :: ns)).length = n ++ post := by
        rw [hdn, append_assoc, drop_left]
      have hnm : n ++ post = if r.nmatched = [] then n else n ++ comma :: r.nmatched := by
        rw [hpost]
        split_ifs <;> simp
      have hdn' : dn = lowerPart ns ++ m ++ (comma :: (n ++ post)) := by
        rw [hdn]
        simp [lowerPart]
      have hstart : rdnStart dn ((lowerPart ns).length + m.length) = (lowerPart ns).length := by
        rw [hdn']
        exact rdnStart_lowerPart ns _ hmsep
      unfold dn2idLoop descend
      rw [hdrop, take_left]
      cases db.getBoth r.id (DiskNode.mkKey true n) with
      | error rc => rfl
      | ok d =>
        simp only
        have hne1 : (lowerPart (m :: ns)).length ≠ 1 := by omega
        have hpos : 0 < (lowerPart (m :: ns)).length := by omega
        rw [if_pos hpos, if_neg hne1, ← hnm]
        have hsub : (lowerPart (m :: ns)).length - 1 = (lowerPart ns).length + m.length := by omega
        rw [hsub, hstart]
        have hlen : (lowerPart (m :: ns)).length - (lowerPart ns).length - 1 = m.length := by omega
        rw [hlen]
        refine ih hdn' ?_ hm (fun k hk => hns k (mem_cons_of_mem _ hk)) (by simpa using hfuel)
        simp [Dn2idResult.found, hn]

theorem length_le_lowerPart (ns : List (List Byte)) : ns.length ≤ (lowerPart ns).length := by
  induction ns with
  | nil => simp
  | cons n ns ih =>
    simp only [lowerPart, length_append, length_cons, length_nil]
    omega

theorem dn2idLoop_start {dn top : List Byte} {low : List Rdn}
    (hdn : dn = lowerPart (low.map Rdn.bytes).reverse ++ top) (htop : top ≠ []) :
    dn2idLoop db dn (dn.length + 1) (lowerPart (low.map Rdn.bytes).reverse).length
      (dn.length - (lowerPart (low.map Rdn.bytes).reverse).length) dn2idStart =
        descend db (top :: (low.map Rdn.bytes).reverse) dn2idStart := by
  have hlen : dn.length = (lowerPart (low.map Rdn.bytes).reverse).length + top.length := by
    rw [hdn, length_append]
  have hsep : ∀ m ∈ (low.map Rdn.bytes).reverse, m ≠ [] ∧ comma ∉ m := by
    intro m hm
    obtain ⟨r, -, rfl⟩ := List.mem_map.mp (List.mem_reverse.mp hm)
    exact ⟨r.nonempty, r.nosep⟩
  have hfuel := length_le_lowerPart (low.map Rdn.bytes).reverse
  have hdn' : dn = lowerPart (low.map Rdn.bytes).reverse ++ top ++ [] := by rw [hdn, List.append_nil]
  rw [hlen, Nat.add_sub_cancel_left]
  exact dn2idLoop_eq_descend hdn' rfl htop hsep (by omega)

theorem mdbDn2id_str (suffix : List Byte) (db : Dn2id) (dn : Dn) :
    mdbDn2id suffix db (dn.str suffix) = descend db (dn.parts suffix).reverse dn2idStart := by
  if hs : suffix = [] then
    subst hs
    cases dn using List.reverseRecOn with
    | nil => rfl
    | append_singleton low r _ =>
      have hparts : Dn.parts [] (low ++ [r]) = ((low.map Rdn.bytes).reverse).reverse ++ [r.bytes] := by
        simp [Dn.parts]
      have hstr : Dn.str [] (low ++ [r]) = lowerPart (low.map Rdn.bytes).reverse ++ r.bytes := by
        unfold Dn.str
        rw [hparts, joinRdns_reverse]
      have hne : Dn.str [] (low ++ [r]) ≠ [] := by
        rw [hstr]
        simp [r.nonempty]
      have hoff : rdnStart (Dn.str [] (low ++ [r])) (Dn.str [] (low ++ [r])).length =
          (lowerPart (low.map Rdn.bytes).reverse).length := by
        have hrs := rdnStart_lowerPart (low.map Rdn.bytes).reverse [] r.nosep
        rw [List.append_nil] at hrs
        rw [hstr, length_append, hrs]
      unfold mdbDn2id
      simp only [hne, ne_eq, not_true_eq_false, if_false, hoff]
      rw [dn2idLoop_start hstr r.nonempty, hparts, reverse_append, reverse_reverse]
      rfl
  else
    have hparts : Dn.parts suffix dn = ((dn.map Rdn.bytes).reverse).reverse ++ [suffix] := by
      simp [Dn.parts, hs]
    have hstr : Dn.str suffix dn = lowerPart (dn.map Rdn.bytes).reverse ++ suffix := by
      unfold Dn.str
      rw [hparts, joinRdns_reverse]
    have hne : Dn.str suffix dn ≠ [] := by
      rw [hstr]
      simp [hs]
    have hoff : (Dn.str suffix dn).length - suffix.length = (lowerPart (dn.map Rdn.bytes).reverse).length := by
      rw [hstr, length_append]
      omega
    unfold mdbDn2id
    simp only [hne, ne_eq, hs, not_false_eq_true, if_false, if_true, hoff]
    rw [dn2idLoop_start hstr hs, hparts, reverse_append, reverse_reverse]
    rfl

/-- `r` is the node with the names `ns`. -/
structure Dn2idResult.Hit (r : Dn2idResult) (nodes : Nodes) (ns : List (List Byte)) : Prop where
  rc : r.rc = none
  named : Named nodes r.id ns
  record : ns ≠ [] → ∃ v, nodes r.id = some v ∧ r.nsubs = v.nsubs ∧ r.mc = some (v.parent, v.child r.id)

/-- No node has the names `ns`, and `r` is the lowest superior there is. -/
structure Dn2idResult.Miss (r : Dn2idResult) (nodes : Nodes) (ns : List (List Byte)) : Prop where
  rc : r.rc = some .notfound
  superior : ∃ low n up, ns = low ++ n :: up ∧ Named nodes r.id up ∧
    (∀ c v, nodes c = some v → v.parent = r.id → v.nrdn ≠ n) ∧ r.nmatched = joinRdns up

theorem descend_cases (h : Represents db started nodes) {ys : List (List Byte)}
    (hr : r.Hit nodes ys) (hnm : r.nmatched = joinRdns ys) (hys : ∀ n ∈ ys, n ≠ []) (hns : ∀ n ∈ ns, n ≠ []) :
    (descend db ns r).Hit nodes (ns.reverse ++ ys) ∨ (descend db ns r).Miss nodes (ns.reverse ++ ys) := by
  induction ns generalizing r ys with
  | nil => exact .inl hr
  | cons n ns ih =>
    obtain ⟨c, v, hc, hp, hn, hget⟩ | ⟨hnone, hget⟩ := h.getBoth_cases r.id n
    · have hdesc : descend db (n :: ns) r =
          descend db ns (r.found (v.child c) (if r.nmatched = [] then n else n ++ comma :: r.nmatched)) := by
        conv_lhs => unfold descend
        rw [hget]
      have hempty : joinRdns ys = [] ↔ ys = [] := by
        cases ys with
        | nil => simp [joinRdns]
        | cons y ys =>
          have hy : y ≠ [] := hys y mem_cons_self
          rw [joinRdns_cons]
          split_ifs <;> simp [hy]
      have hnamed : Named nodes c (n :: ys) := by
        rw [← hn]
        refine .node hc ?_
        rw [hp]
        exact hr.named
      have happ : (n :: ns).reverse ++ ys = ns.reverse ++ n :: ys := by simp
      rw [hdesc, happ]
      refine ih ⟨rfl, hnamed, fun _ => ⟨v, hc, rfl, ?_⟩⟩ ?_ ?_ (fun m hm => hns m (mem_cons_of_mem _ hm))
      · rw [hp]
        rfl
      · simp only [Dn2idResult.found, joinRdns_cons, hnm, hempty]
      · intro m hm
        cases hm with
        | head => exact hns n mem_cons_self
        | tail _ hm => exact hys m hm
    · have hdesc : descend db (n :: ns) r = r.failed .notfound := by
        conv_lhs => unfold descend
        rw [hget]
      rw [hdesc]
      exact .inr ⟨rfl, ns.reverse, n, ys, by simp, hr.named, hnone, hnm⟩

theorem mdbDn2id_cases (h : Represents db started nodes) (suffix : List Byte) (dn : Dn) :
    (mdbDn2id suffix db (dn.str suffix)).Hit nodes (dn.parts suffix) ∨
    (mdbDn2id suffix db (dn.str suffix)).Miss nodes (dn.parts suffix) := by
  have hne : ∀ n ∈ (dn.parts suffix).reverse, n ≠ [] := fun n hn =>
    Dn.ne_nil_of_mem_parts (List.mem_reverse.mp hn)
  have hstart : dn2idStart.Hit nodes [] := ⟨rfl, .root, fun hn => absurd rfl hn⟩
  have hcases := descend_cases h hstart rfl (by simp) hne
  rw [List.append_nil, reverse_reverse] at hcases
  rw [mdbDn2id_str]
  exact hcases

theorem Dn2idResult.Miss.not_named (h : Represents db started nodes) (hr : r.Miss nodes ns) (x : Nat) : ¬ Named nodes x ns := by
  obtain ⟨low, n, up, rfl, hup, hnone, -⟩ := hr.superior
  clear hr
  intro hx
  induction low generalizing x with
  | nil =>
    obtain ⟨v, hv, hn, hvp⟩ := hx.cons_inv
    exact hnone x v hv (hvp.inj h hup) hn
  | cons m low ih =>
    obtain ⟨v, -, -, hvp⟩ := hx.cons_inv
    exact ih v.parent hvp

theorem mdbDn2id_hit (h : Represents db started nodes) {suffix : List Byte} {dn : Dn}
    (hx : Named nodes x (dn.parts suffix)) : (mdbDn2id suffix db (dn.str suffix)).Hit nodes (dn.parts suffix) ∧
      (mdbDn2id suffix db (dn.str suffix)).id = x := by
  cases mdbDn2id_cases h suffix dn with
  | inl hhit => exact ⟨hhit, hhit.named.inj h hx⟩
  | inr hmiss => exact absurd hx (hmiss.not_named h x)

/-! ## Back to the name -/

inductive Pretty (nodes : Nodes) : Nat → List (List Byte) → Prop where
  | root : Pretty nodes 0 []
  | node {x : Nat} {v : Node} {rs : List (List Byte)} :
      nodes x = some v → Pretty nodes v.parent rs → Pretty nodes x (v.rdn :: rs)

def glue (acc : List Byte) (first : Bool) : List (List Byte) → List Byte
  | [] => acc
  | n :: ns => acc ++ (if first then [] else [comma]) ++ joinRdns (n :: ns)

theorem glue_cons (acc n : List Byte) (first : Bool) (ns : List (List Byte)) :
    glue acc first (n :: ns) = glue (acc ++ (if first then [] else [comma]) ++ n) false ns := by
  cases ns <;> simp [glue, joinRdns]

theorem length_le_glue (acc : List Byte) (first : Bool) (ns : List (List Byte)) :
    acc.length ≤ (glue acc first ns).length := by
  cases ns <;> simp [glue]

theorem id2nameLoop_spec (h : Represents db started nodes) {x fuel : Nat} {ns rs : List (List Byte)}
    {name nname : List Byte} (hx : Named nodes x ns) (hp : Pretty nodes x rs) (hfuel : ns.length < fuel)
    (hns : ∀ n ∈ ns, n ≠ [] ∧ n.length < 1024) (hrs : ∀ r ∈ rs, r.length < 1024)
    (hlen : (glue nname (decide (nname = [])) ns).length < SLAP_LDAPDN_MAXLEN)
    (hlen' : (glue name (decide (nname = [])) rs).length < SLAP_LDAPDN_MAXLEN) :
    id2nameLoop db fuel x name nname =
      .ok (glue name (decide (nname = [])) rs, glue nname (decide (nname = [])) ns) := by
  induction hx generalizing fuel rs name nname with
  | root =>
    cases fuel with
    | zero => simp at hfuel
    | succ fuel =>
      have hrs0 : rs = [] := by
        cases hp with
        | root => rfl
        | node hv _ => exact absurd rfl (h.ne_zero hv)
      simp [id2nameLoop, hrs0, glue]
  | @node x v ns hv _ ih =>
    cases hp with
    | root => exact absurd rfl (h.ne_zero hv)
    | @node _ w rs hw hpr =>
      have hwv : v = w := Option.some.inj (hv.symm.trans hw)
      subst hwv
      cases fuel with
      | zero => simp at hfuel
      | succ fuel =>
        obtain ⟨hne, hshort⟩ := hns v.nrdn mem_cons_self
        have hshort' : v.rdn.length < 1024 := hrs v.rdn mem_cons_self
        have hsep : (if nname = [] then [] else [comma]) = if decide (nname = []) = true then [] else [comma] := by
          simp
        have hnn : decide (nname ++ (if nname = [] then [] else [comma]) ++ v.nrdn = []) = false := by
          simp [hne]
        rw [glue_cons, ← hsep] at hlen hlen'
        rw [glue_cons, glue_cons, ← hsep]
        have hb := (length_le_glue _ _ _).trans_lt hlen
        have hb' := (length_le_glue _ _ _).trans_lt hlen'
        have hstep := @ih fuel rs (name ++ (if nname = [] then [] else [comma]) ++ v.rdn)
          (nname ++ (if nname = [] then [] else [comma]) ++ v.nrdn) hpr (by simpa using hfuel)
          (fun n hn => hns n (mem_cons_of_mem _ hn)) (fun r hr => hrs r (mem_cons_of_mem _ hr))
          (by rw [hnn]; exact hlen) (by rw [hnn]; exact hlen')
        rw [hnn] at hstep
        have h₁ : ¬ (1024 ≤ v.own.nrdn.length ∨ 1024 ≤ v.own.rdn.length) := by
          simp only [Node.own]
          omega
        have h₂ : ¬ (SLAP_LDAPDN_MAXLEN ≤ (name ++ (if nname = [] then [] else [comma]) ++ v.own.rdn).length ∨
            SLAP_LDAPDN_MAXLEN ≤ (nname ++ (if nname = [] then [] else [comma]) ++ v.own.nrdn).length) := by
          simp only [Node.own]
          omega
        rw [id2nameLoop, if_neg (h.ne_zero hv), h.set_own hv]
        dsimp only
        rw [if_neg h₁, if_neg h₂]
        exact hstep

theorem id2nameLoop_short (h : Represents db started nodes) {fuel : Nat}
    {name nname : List Byte} {out : List Byte × List Byte} (hx : Named nodes x ns) (hp : Pretty nodes x rs)
    (hns : ∀ n ∈ ns, n ≠ []) (hok : id2nameLoop db fuel x name nname = .ok out)
    (hlen : nname.length < SLAP_LDAPDN_MAXLEN) (hlen' : name.length < SLAP_LDAPDN_MAXLEN) :
    (∀ n ∈ ns, n.length < 1024) ∧ (∀ r ∈ rs, r.length < 1024) ∧
      (glue nname (decide (nname = [])) ns).length < SLAP_LDAPDN_MAXLEN ∧
      (glue name (decide (nname = [])) rs).length < SLAP_LDAPDN_MAXLEN := by
  induction hx generalizing fuel rs name nname with
  | root =>
    cases hp with
    | root => simp [glue, hlen, hlen']
    | node hv _ => exact absurd rfl (h.ne_zero hv)
  | @node x v ns hv _ ih =>
    cases hp with
    | root => exact absurd rfl (h.ne_zero hv)
    | @node _ w rs hw hpr =>
      have hwv : v = w := Option.some.inj (hv.symm.trans hw)
      subst hwv
      cases fuel with
      | zero => cases hok
      | succ fuel =>
        have hne : v.nrdn ≠ [] := hns v.nrdn mem_cons_self
        have hsep : (if nname = [] then [] else [comma]) = if decide (nname = []) = true then [] else [comma] := by
          simp
        rw [id2nameLoop, if_neg (h.ne_zero hv), h.set_own hv] at hok
        dsimp only at hok
        rw [glue_cons, glue_cons, ← hsep]
        generalize (if nname = [] then [] else [comma] : List Byte) = sep at hok
        have hnn : decide (nname ++ sep ++ v.nrdn = []) = false := by simp [hne]
        split_ifs at hok with h₁ h₂
        simp only [Node.own, not_or, not_le] at h₁ h₂
        obtain ⟨hn, hr, hg, hg'⟩ := ih hpr (fun n hn => hns n (mem_cons_of_mem _ hn)) hok h₂.2 h₂.1
        rw [Node.own] at hg hg'
        rw [hnn] at hg hg'
        exact ⟨List.forall_mem_cons.mpr ⟨h₁.1, hn⟩, List.forall_mem_cons.mpr ⟨h₁.2, hr⟩, hg, hg'⟩

/-- What `mdb_id2name` can copy. -/
def Short (ns : List (List Byte)) : Prop :=
  (∀ n ∈ ns, n.length < 1024) ∧ (joinRdns ns).length < SLAP_LDAPDN_MAXLEN

theorem glue_nil (ls : List (List Byte)) : glue [] true ls = joinRdns ls := by
  cases ls <;> simp [glue, joinRdns]

theorem mdbId2name_short (h : Represents db started nodes) {out : List Byte × List Byte}
    (hx : Named nodes x ns) (hp : Pretty nodes x rs) (hns : ∀ n ∈ ns, n ≠ []) (hok : mdbId2name db x = .ok out) :
    Short ns ∧ Short rs := by
  have hshort := id2nameLoop_short h hx hp hns hok (by decide) (by decide)
  rw [decide_eq_true rfl, glue_nil, glue_nil] at hshort
  exact ⟨⟨hshort.1, hshort.2.2.1⟩, ⟨hshort.2.1, hshort.2.2.2⟩⟩

theorem mdbId2name_iff (h : Represents db started nodes)
    (hx : Named nodes x ns) (hp : Pretty nodes x rs) (hfuel : ns.length ≤ NOID) (hns : ∀ n ∈ ns, n ≠ []) :
    mdbId2name db x = .ok (joinRdns rs, joinRdns ns) ↔ Short ns ∧ Short rs := by
  constructor
  · exact mdbId2name_short h hx hp hns
  · intro ⟨⟨hn, hlen⟩, ⟨hr, hlen'⟩⟩
    have hloop := @id2nameLoop_spec _ _ _ h x (NOID + 1) ns rs [] [] hx hp (by omega)
      (fun n hm => ⟨hns n hm, hn n hm⟩) hr (by simpa [glue_nil] using hlen) (by simpa [glue_nil] using hlen')
    simpa [glue_nil, mdbId2name] using hloop

end
end BackMdb
end ReOpenLDAP
