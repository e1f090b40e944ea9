import ReOpenLDAP.Lib.BalTree

/-!
# Lutil.Avl

The AVL trees of `avl.c`. A pointer into a tree is a zipper: the nodes above the place, the lowest first.
-/

namespace ReOpenLDAP
namespace Lutil

open BalTree List

abbrev Avlnode := BalTree

inductive Fault where
  | nullPointer
  | stackOverflow
deriving DecidableEq

section

variable {α : Type*} (cmp : α → α → Ordering)

/-- Where the loop of `avl_insert` stops: at equal data, or at a link that is `NULL`. The nodes above it are those from
`p` up to `s`, and those above `s`. -/
inductive Place (α : Type*) where
  | dup (data : α)
  | free (toS aboveS : List (Frame α))

/-- One round takes the link `q` of `p`; `q` becomes `s` if it is out of balance. -/
def findPlace (data : α) : (toS aboveS : List (Frame α)) → Avlnode α → Place α
  | toS, aboveS, .nil => .free toS aboveS
  | toS, aboveS, .node d bf left right =>
    match cmp data d with
    | .eq => .dup d
    | .lt =>
      let p : Frame α := ⟨d, bf, false, right⟩
      match left with
      | .nil => .free (p :: toS) aboveS
      | .node d' bf' l r =>
        if bf' ≠ 0 then findPlace data [] (p :: toS ++ aboveS) (.node d' bf' l r)
        else findPlace data (p :: toS) aboveS (.node d' bf' l r)
    | .gt =>
      let p : Frame α := ⟨d, bf, true, left⟩
      match right with
      | .nil => .free (p :: toS) aboveS
      | .node d' bf' l r =>
        if bf' ≠ 0 then findPlace data [] (p :: toS ++ aboveS) (.node d' bf' l r)
        else findPlace data (p :: toS) aboveS (.node d' bf' l r)

/-- The checks and balances at `s`, with the link `r` in which the new node is. -/
def balanceAt (s : Frame α) (r : Avlnode α) : Except Fault (Avlnode α) :=
  let a := sign s.side
  if s.bf = 0 then .ok ({ s with bf := a }.plug r)
  else if s.bf = -a then .ok ({ s with bf := 0 }.plug r)
  else if s.bf = a then
    match r.view s.side with
    | none => .error .nullPointer
    | some v =>
      if v.bf = a then .ok (single s.side s.data 0 s.other v.data 0 v.near v.far)
      else if v.bf = -a then
        match v.far.view s.side with
        | none => .error .nullPointer
        | some p =>
          let (sbf, rbf) := if p.bf = a then (-a, 0) else if p.bf = -a then (0, a) else (0, 0)
          .ok (double s.side s.data sbf s.other v.data rbf v.near p.data 0 p.near p.far)
      else .ok r
  else .ok (s.plug r)

/-- From the new node up: the balance factors below `s`, and then `s`. -/
def adjust : List (Frame α) → Avlnode α → Except Fault (Avlnode α)
  | [], q => .ok q
  | [s], r => balanceAt s r
  | p :: ps, q => adjust ps ({ p with bf := sign p.side }.plug q)

/-- `avl_insert`: its result, and the tree. `mem` tells whether there is memory for a node. -/
def avlInsert (fdup : α → α → Int) (mem : Bool) (root : Avlnode α) (data : α) : Except Fault (Int × Avlnode α) :=
  match root with
  | .nil => .ok (if mem then (0, leaf data) else (-1, .nil))
  | .node d bf left right =>
    match findPlace cmp data [] [] (.node d bf left right) with
    | .dup d => .ok (fdup d data, root)
    | .free toS aboveS =>
      if ¬ mem then .ok (-1, root)
      else
        match adjust toS (leaf data) with
        | .error f => .error f
        | .ok t => .ok (0, plugAll aboveS t)

section

variable (MAX_TREE_DEPTH : Nat)

/-- `pptr[depth++] = p` -/
def push (p : Frame α) (stack : List (Frame α)) : Except Fault (List (Frame α)) :=
  if stack.length < MAX_TREE_DEPTH then .ok (p :: stack) else .error .stackOverflow

structure Found (α : Type*) where
  stack : List (Frame α)
  data : α
  bf : Int
  left : Avlnode α
  right : Avlnode α

/-- The first loop of `avl_delete`. -/
def findNode (data : α) : List (Frame α) → Avlnode α → Except Fault (Option (Found α))
  | _, .nil => .ok none
  | stack, .node d bf left right =>
    match cmp data d with
    | .eq => .ok (some ⟨stack, d, bf, left, right⟩)
    | .lt =>
      match push MAX_TREE_DEPTH ⟨d, bf, false, right⟩ stack with
      | .error f => .error f
      | .ok stack => findNode data stack left
    | .gt =>
      match push MAX_TREE_DEPTH ⟨d, bf, true, left⟩ stack with
      | .error f => .error f
      | .ok stack => findNode data stack right

/-- The way to the predecessor `q`, below `depth` nodes: the nodes on it, the data of `q` and its left link. -/
def findPred (depth : Nat) : List (Frame α) → Avlnode α → Except Fault (List (Frame α) × α × Avlnode α)
  | _, .nil => .error .nullPointer
  | spine, .node d _ left .nil => .ok (spine, d, left)
  | spine, .node d bf left (.node d' bf' l r) =>
    if depth + spine.length < MAX_TREE_DEPTH then
      findPred depth (⟨d, bf, true, left⟩ :: spine) (.node d' bf' l r)
    else .error .stackOverflow

/-- The stack above the node to delete once it has at most one subtree, and that subtree. `q` takes the place of a node
with two, and its balance factor. -/
def swapPred (p : Found α) : Except Fault (List (Frame α) × Avlnode α) :=
  match p.left, p.right with
  | .nil, right => .ok (p.stack, right)
  | left, .nil => .ok (p.stack, left)
  | left, right =>
    if p.stack.length < MAX_TREE_DEPTH then
      match findPred MAX_TREE_DEPTH (p.stack.length + 1) [] left with
      | .error f => .error f
      | .ok (spine, qdata, qleft) => .ok (spine ++ ⟨qdata, p.bf, false, right⟩ :: p.stack, qleft)
    else .error .stackOverflow

/-- One round of the last loop: the subtree `child` of `p` is lower than it was. The result is the tree that takes the
place of `p`, and whether it is lower too. -/
def shrink (p : Frame α) (child : Avlnode α) : Except Fault (Avlnode α × Bool) :=
  let side_bf := sign p.side
  if p.bf = 0 then .ok ({ p with bf := -side_bf }.plug child, false)
  else if p.bf = side_bf then .ok ({ p with bf := 0 }.plug child, true)
  else
    let nside := !p.side
    match p.other.view nside with
    | none => .error .nullPointer
    | some q =>
      if q.bf = 0 then .ok (single nside p.data (-side_bf) child q.data side_bf q.near q.far, false)
      else if q.bf = p.bf then .ok (single nside p.data 0 child q.data 0 q.near q.far, true)
      else
        match q.far.view nside with
        | none => .error .nullPointer
        | some r =>
          let (qbf, pbf) := if r.bf = side_bf then (-side_bf, 0) else if r.bf = -side_bf then (0, side_bf) else (0, 0)
          .ok (double nside p.data pbf child q.data qbf q.near r.data 0 r.near r.far, true)

/-- The last loop, `while (shorter)`. -/
def retrace : List (Frame α) → Avlnode α → Except Fault (Avlnode α)
  | [], t => .ok t
  | p :: stack, child =>
    match shrink p child with
    | .error f => .error f
    | .ok (t, true) => retrace stack t
    | .ok (t, false) => .ok (plugAll stack t)

/-- `avl_delete`: the data of the node, and the tree. -/
def avlDelete (root : Avlnode α) (data : α) : Except Fault (Option α × Avlnode α) :=
  match findNode cmp MAX_TREE_DEPTH data [] root with
  | .error f => .error f
  | .ok none => .ok (none, root)
  | .ok (some p) =>
    match swapPred MAX_TREE_DEPTH p with
    | .error f => .error f
    | .ok (stack, q) =>
      match retrace stack q with
      | .error f => .error f
      | .ok t => .ok (some p.data, t)

end

def avlFind (data : α) : Avlnode α → Option α
  | .nil => none
  | .node d _ left right =>
    match cmp data d with
    | .eq => some d
    | .lt => avlFind data left
    | .gt => avlFind data right

/-! ## What `avl_insert` does -/

def Even : List (Frame α) → Prop
  | [] => True
  | [_] => True
  | p :: q :: ps => p.bf = 0 ∧ Even (q :: ps)

/-- `s` is the last node of `toS`, and it is out of balance unless it is the root. -/
def Chain (toS aboveS : List (Frame α)) : Prop := Even toS ∧ (aboveS ≠ [] → ∃ s ∈ toS.getLast?, s.bf ≠ 0)

section

variable {cmp} {x : α} {f g : Frame α} {fs toS aboveS : List (Frame α)}

theorem Chain.cons (h : Chain (f :: toS) aboveS) (hg : g.bf = 0) : Chain (g :: f :: toS) aboveS := by
  refine ⟨⟨hg, h.1⟩, fun hne => ?_⟩
  obtain ⟨s, hs, hbf⟩ := h.2 hne
  exact ⟨s, by rwa [List.getLast?_cons_cons], hbf⟩

theorem Chain.single (hg : g.bf ≠ 0) : Chain [g] aboveS := ⟨trivial, fun _ => ⟨g, rfl, hg⟩⟩

theorem Chain.root (f : Frame α) : Chain [f] [] := ⟨trivial, fun h => absurd rfl h⟩

variable [Std.TransCmp cmp]

theorem findPlace_plug_nil (h : Straddles cmp x [f]) : findPlace cmp x toS aboveS (f.plug .nil) = .free (f :: toS) aboveS := by
  obtain ⟨d, bf, side, other⟩ := f
  cases side
  · simp only [Frame.plug, build, Bool.false_eq_true, if_false, findPlace, h.cmp_left rfl]
  · simp only [Frame.plug, build, if_true, findPlace, h.cmp_right rfl]

theorem findPlace_plug (h : Straddles cmp x [f]) {t : Avlnode α} (ht : t ≠ .nil) : findPlace cmp x toS aboveS (f.plug t) =
    if t.tilt ≠ 0 then findPlace cmp x [] (f :: toS ++ aboveS) t else findPlace cmp x (f :: toS) aboveS t := by
  obtain ⟨d, bf, side, other⟩ := f
  cases t with
  | nil => exact absurd rfl ht
  | node d' bf' l r =>
    cases side
    · change findPlace cmp x toS aboveS (.node d bf (.node d' bf' l r) other) = _
      rw [findPlace, h.cmp_left rfl]
      rfl
    · change findPlace cmp x toS aboveS (.node d bf other (.node d' bf' l r)) = _
      rw [findPlace, h.cmp_right rfl]
      rfl

theorem findPlace_free (h : Straddles cmp x (fs ++ [f])) (hc : Chain (f :: toS) aboveS) : ∃ toS' aboveS',
    findPlace cmp x toS aboveS (plugAll (fs ++ [f]) .nil) = .free toS' aboveS' ∧
      toS' ++ aboveS' = fs ++ f :: (toS ++ aboveS) ∧ toS' ≠ [] ∧ Chain toS' aboveS' := by
  induction fs using List.reverseRecOn generalizing f toS aboveS with
  | nil => exact ⟨f :: toS, aboveS, findPlace_plug_nil h, rfl, cons_ne_nil _ _, hc⟩
  | append_singleton fs g ih =>
    obtain ⟨hfs, hf⟩ := h.of_append
    have htilt : (plugAll (fs ++ [g]) .nil).tilt = g.bf := by
      rw [plugAll_concat]
      exact tilt_build
    have hne : plugAll (fs ++ [g]) .nil ≠ .nil := by
      rw [plugAll_concat]
      exact build_ne_nil
    rw [plugAll_concat, findPlace_plug hf hne, htilt]
    by_cases hbf : g.bf = 0
    · rw [if_neg (not_not_intro hbf)]
      obtain ⟨toS', aboveS', heq, happ, hne, hc'⟩ := ih hfs (hc.cons hbf)
      exact ⟨toS', aboveS', heq, by rw [happ]; simp, hne, hc'⟩
    · rw [if_pos hbf]
      obtain ⟨toS', aboveS', heq, happ, hne, hc'⟩ := ih hfs (Chain.single hbf)
      exact ⟨toS', aboveS', heq, by rw [happ]; simp, hne, hc'⟩

theorem findPlace_dup (h : Straddles cmp x fs) {d : α} {bf : Int} {l r : Avlnode α} (hx : cmp x d = .eq)
    (toS aboveS : List (Frame α)) : findPlace cmp x toS aboveS (plugAll fs (.node d bf l r)) = .dup d := by
  induction fs using List.reverseRecOn generalizing toS aboveS with
  | nil => rw [plugAll, findPlace, hx]
  | append_singleton fs f ih =>
    obtain ⟨hfs, hf⟩ := h.of_append
    rw [plugAll_concat, findPlace_plug hf (plugAll_ne_nil (by simp))]
    split
    · exact ih hfs _ _
    · exact ih hfs _ _

end

/-- The tree `q` in the place of `told` is higher by one, and if there was a node in that place then one side of `q` is the
higher one. -/
structure Grew (told q : Avlnode α) : Prop where
  balanced : q.Balanced
  height : q.height = told.height + 1
  tilt : 0 < told.height → q.tilt ≠ 0

theorem double_factors {a pbf n f m : Int} (ha : a = 1 ∨ a = -1) (hp : pbf = a * (n - f)) (h1 : -1 ≤ pbf) (h2 : pbf ≤ 1)
    (hm : max n f = m) : ∃ sbf rbf : Int, (if pbf = a then (-a, 0) else if pbf = -a then (0, a) else (0, 0)) = (sbf, rbf) ∧
      sbf = a * (f - m) ∧ (-1 ≤ sbf ∧ sbf ≤ 1) ∧ rbf = a * (m - n) ∧ (-1 ≤ rbf ∧ rbf ≤ 1) := by
  split_ifs
  all_goals exact ⟨_, _, rfl, by rcases ha with rfl | rfl <;> omega⟩

theorem double_factors_swap {a pbf n f m : Int} (ha : a = 1 ∨ a = -1) (hp : pbf = -a * (n - f)) (h1 : -1 ≤ pbf)
    (h2 : pbf ≤ 1) (hm : max n f = m) :
    ∃ sbf rbf : Int, (if pbf = a then (-a, 0) else if pbf = -a then (0, a) else (0, 0)) = (rbf, sbf) ∧
      sbf = -a * (f - m) ∧ (-1 ≤ sbf ∧ sbf ≤ 1) ∧ rbf = -a * (m - n) ∧ (-1 ≤ rbf ∧ rbf ≤ 1) := by
  split_ifs
  all_goals exact ⟨_, _, rfl, by rcases ha with rfl | rfl <;> omega⟩

section

variable {data : α} {bf : Int} {side : Bool} {other told r : Avlnode α}

theorem balanceAt_higher (h : (build side data bf told other).Balanced) (hr : Grew told r) (hbf : bf = sign side) :
    ∃ t, balanceAt ⟨data, bf, side, other⟩ r = .ok t ∧ t.Balanced ∧ t.toList = (build side data bf r other).toList ∧
      t.height = (build side data bf told other).height := by
  obtain ⟨-, hother, hdiff, -, -⟩ := balanced_build.mp h
  obtain ⟨hb, hheight, htilt⟩ := hr
  have hsign := sign_cases side
  have htold : told.height = other.height + 1 := by
    rcases hsign with hs | hs <;> rw [hs] at hbf hdiff <;> omega
  obtain ⟨rdata, rbf, near, far, rfl⟩ := exists_build side (ne_nil_of_height (show 0 < r.height by omega))
  obtain ⟨hnear, hfar, hrdiff, hr1, hr2⟩ := balanced_build.mp hb
  have hrbf : rbf ≠ 0 := by simpa only [tilt_build] using htilt (by omega)
  rw [height_build] at hheight
  have hne : bf ≠ 0 := by omega
  have hne' : bf ≠ -sign side := by omega
  rw [height_build]
  by_cases hsame : rbf = sign side
  · refine ⟨single side data 0 other rdata 0 near far, ?_, ?_, ?_, ?_⟩
    · simp only [balanceAt, if_neg hne, if_neg hne', if_pos hbf, view_build, if_pos hsame]
    · have hfheight : near.height = far.height + 1 := by
        rcases hsign with hs | hs <;> rw [hs] at hsame hrdiff <;> omega
      refine balanced_build.mpr ⟨hnear, balanced_build.mpr ⟨hfar, hother, ?_, by omega⟩, ?_, by omega⟩
      · rw [show (far.height : Int) - other.height = 0 by omega, mul_zero]
      · rw [height_build, show (near.height : Int) - (max far.height other.height + 1 : Nat) = 0 by omega, mul_zero]
    · exact toList_single side data 0 bf other rdata 0 rbf near far
    · rcases hsign with hs | hs <;> rw [hs] at hsame hrdiff <;> simp only [single, height_build] <;> omega
  · have hopp : rbf = -sign side := by omega
    have hfheight : far.height = near.height + 1 := by
      rcases hsign with hs | hs <;> rw [hs] at hopp hrdiff <;> omega
    obtain ⟨pdata, pbf, pnear, pfar, rfl⟩ := exists_build side (ne_nil_of_height (show 0 < far.height by omega))
    obtain ⟨hpnear, hpfar, hpdiff, hp1, hp2⟩ := balanced_build.mp hfar
    rw [height_build] at hfheight hheight
    obtain ⟨sbf, rbf', hpair, hsbf, hsrange, hrbf', hrrange⟩ :=
      double_factors (m := other.height) hsign hpdiff hp1 hp2 (by omega)
    refine ⟨double side data sbf other rdata rbf' near pdata 0 pnear pfar, ?_, ?_, ?_, ?_⟩
    · simp only [balanceAt, if_neg hne, if_neg hne', if_pos hbf, view_build, if_neg hsame, if_pos hopp, hpair]
    · have hnheight : near.height = other.height := by omega
      refine balanced_build.mpr ⟨balanced_build.mpr ⟨hnear, hpnear, ?_, hrrange⟩,
        balanced_build.mpr ⟨hpfar, hother, hsbf, hsrange⟩, ?_, by omega⟩
      · rw [hrbf', hnheight]
      · rw [height_build, height_build]
        rw [show ((max near.height pnear.height + 1 : Nat) : Int) - (max pfar.height other.height + 1 : Nat) = 0 by omega,
          mul_zero]
    · exact toList_double side data sbf bf other rdata rbf' rbf near pdata 0 pbf pnear pfar
    · simp only [double, height_build]
      omega

theorem balanceAt_spec {s : Frame α} (h : (s.plug told).Balanced) (hr : Grew told r) :
    ∃ t, balanceAt s r = .ok t ∧ t.Balanced ∧ t.toList = (s.plug r).toList ∧
      (s.bf ≠ 0 → t.height = (s.plug told).height) := by
  obtain ⟨data, bf, side, other⟩ := s
  have h' : (build side data bf told other).Balanced := h
  obtain ⟨-, hother, hdiff, h1, h2⟩ := balanced_build.mp h'
  have hb := hr.balanced
  have hheight := hr.height
  have hsign := sign_cases side
  have hcases : bf = 0 ∨ bf = -sign side ∨ bf = sign side := by omega
  rcases hcases with hbf | hbf | hbf
  · refine ⟨build side data (sign side) r other, if_pos hbf, balanced_build.mpr ⟨hb, hother, ?_, by omega⟩, ?_,
      fun hne => absurd hbf hne⟩
    · rcases hsign with hs | hs <;> rw [hs] at hdiff ⊢ <;> omega
    · exact toList_build_bf _
  · have hne : bf ≠ 0 := by omega
    refine ⟨build side data 0 r other, ?_, balanced_build.mpr ⟨hb, hother, ?_, by omega⟩, ?_, fun _ => ?_⟩
    · simp only [balanceAt, if_neg hne, if_pos hbf]
      rfl
    · rcases hsign with hs | hs <;> rw [hs] at hdiff hbf ⊢ <;> omega
    · exact toList_build_bf _
    · change (build side data 0 r other).height = (build side data bf told other).height
      rw [height_build, height_build]
      rcases hsign with hs | hs <;> rw [hs] at hdiff hbf <;> omega
  · obtain ⟨t, heq, ht, hlist, hth⟩ := balanceAt_higher h' hr hbf
    exact ⟨t, heq, ht, hlist, fun _ => hth⟩

theorem Grew.build (h : (build side data 0 told other).Balanced) (hr : Grew told r) :
    Grew (build side data 0 told other) (build side data (sign side) r other) := by
  obtain ⟨-, hother, hdiff, -, -⟩ := balanced_build.mp h
  obtain ⟨hb, hheight, -⟩ := hr
  have hsign := sign_cases side
  have hsame : told.height = other.height := by rcases hsign with hs | hs <;> rw [hs] at hdiff <;> omega
  refine ⟨balanced_build.mpr ⟨hb, hother, ?_, by omega⟩, ?_, fun _ => ?_⟩
  · rw [show (r.height : Int) - other.height = 1 by omega, mul_one]
  · rw [height_build, height_build]
    omega
  · rw [tilt_build]
    omega

theorem adjust_spec {toS : List (Frame α)} (hne : toS ≠ []) (heven : Even toS) (h : (plugAll toS told).Balanced)
    (hr : Grew told r) : ∃ t, adjust toS r = .ok t ∧ t.Balanced ∧ t.toList = (plugAll toS r).toList ∧
      ((∃ s ∈ toS.getLast?, s.bf ≠ 0) → t.height = (plugAll toS told).height) := by
  induction toS generalizing told r with
  | nil => exact absurd rfl hne
  | cons p ps ih =>
    cases ps with
    | nil =>
      obtain ⟨t, heq, ht, hlist, hth⟩ := balanceAt_spec h hr
      refine ⟨t, heq, ht, hlist, ?_⟩
      rintro ⟨s, hs, hbf⟩
      obtain rfl : p = s := Option.some.inj hs
      exact hth hbf
    | cons q ps =>
      obtain ⟨data, bf, side, other⟩ := p
      obtain rfl : bf = 0 := heven.1
      obtain ⟨t, heq, ht, hlist, hth⟩ := ih (cons_ne_nil _ _) heven.2 h (hr.build (Balanced.of_plugAll h))
      refine ⟨t, heq, ht, hlist.trans ?_, ?_⟩
      · exact toList_plugAll_congr (toList_build_bf _)
      · rwa [List.getLast?_cons_cons]

end

section

variable {cmp} [Std.TransCmp cmp] {x : α} {t : Avlnode α} {fs : List (Frame α)}

theorem grew_leaf (x : α) : Grew .nil (leaf x) := ⟨balanced_leaf x, rfl, fun h => absurd h (lt_irrefl 0)⟩

omit [Std.TransCmp cmp] in
theorem avlInsert_node (fdup : α → α → Int) (mem : Bool) (ht : t ≠ .nil) : avlInsert cmp fdup mem t x =
    match findPlace cmp x [] [] t with
    | .dup d => .ok (fdup d x, t)
    | .free toS aboveS =>
      if ¬ mem then .ok (-1, t)
      else
        match adjust toS (leaf x) with
        | .error f => .error f
        | .ok t => .ok (0, plugAll aboveS t) := by
  cases t with
  | nil => exact absurd rfl ht
  | node d bf l r => rfl

theorem toList_hole (fs : List (Frame α)) (x : α) : (plugAll fs (leaf x)).toList = before fs ++ x :: behind fs := by
  rw [toList_plugAll]
  simp

theorem avlInsert_cut (hfs : Straddles cmp x fs) (hne : fs ≠ []) (fdup : α → α → Int) (mem : Bool) :
    ∃ toS aboveS, fs = toS ++ aboveS ∧ toS ≠ [] ∧ Chain toS aboveS ∧ avlInsert cmp fdup mem (plugAll fs .nil) x =
      if ¬ mem then .ok (-1, plugAll fs .nil)
      else
        match adjust toS (leaf x) with
        | .error f => .error f
        | .ok t => .ok (0, plugAll aboveS t) := by
  obtain ⟨gs, f, rfl⟩ := (eq_nil_or_concat fs).resolve_left hne
  rw [concat_eq_append] at *
  obtain ⟨toS, aboveS, hplace, happ, hne, hchain⟩ := findPlace_free hfs (Chain.root f)
  have hnil : plugAll (gs ++ [f]) .nil ≠ .nil := by
    rw [plugAll_concat]
    exact build_ne_nil
  refine ⟨toS, aboveS, by rw [happ, List.append_nil], hne, hchain, ?_⟩
  rw [avlInsert_node fdup mem hnil, hplace]

theorem avlInsert_free (h : (plugAll fs .nil).Balanced) (hfs : Straddles cmp x fs) (fdup : α → α → Int) :
    ∃ t, avlInsert cmp fdup true (plugAll fs .nil) x = .ok (0, t) ∧ t.Balanced ∧ t.toList = before fs ++ x :: behind fs := by
  by_cases hnil : fs = []
  · subst hnil
    exact ⟨leaf x, rfl, balanced_leaf x, rfl⟩
  obtain ⟨toS, aboveS, rfl, hne, ⟨heven, habove⟩, hins⟩ := avlInsert_cut hfs hnil fdup true
  rw [plugAll_append] at h
  obtain ⟨t, heq, ht, hlist, hheight⟩ := adjust_spec hne heven h.of_plugAll (grew_leaf x)
  refine ⟨plugAll aboveS t, by simp only [hins, heq]; rfl, ?_, ?_⟩
  · cases aboveS with
    | nil => exact ht
    | cons p ps => exact h.replace ht (hheight (habove (cons_ne_nil _ _)))
  · rw [← toList_hole, plugAll_append]
    exact toList_plugAll_congr hlist

theorem avlInsert_noMem (hfs : Straddles cmp x fs) (fdup : α → α → Int) :
    avlInsert cmp fdup false (plugAll fs .nil) x = .ok (-1, plugAll fs .nil) := by
  by_cases hnil : fs = []
  · subst hnil
    rfl
  obtain ⟨toS, aboveS, -, -, -, hins⟩ := avlInsert_cut hfs hnil fdup false
  rw [hins]
  rfl

theorem avlInsert_dup (hfs : Straddles cmp x fs) {d : α} {bf : Int} {l r : Avlnode α} (hx : cmp x d = .eq)
    (fdup : α → α → Int) (mem : Bool) : avlInsert cmp fdup mem (plugAll fs (.node d bf l r)) x =
      .ok (fdup d x, plugAll fs (.node d bf l r)) := by
  rw [avlInsert_node fdup mem (plugAll_ne_nil (by simp)), findPlace_dup hfs hx]

end

section

variable {data : α} {bf : Int} {side : Bool} {other child old : Avlnode α}

theorem shrink_lower (h : (build side data bf old other).Balanced) (hc : child.Balanced)
    (hheight : child.height + 1 = old.height) (hbf : bf = -sign side) :
    ∃ t lower, shrink ⟨data, bf, side, other⟩ child = .ok (t, lower) ∧ t.Balanced ∧
      t.toList = (build side data bf child other).toList ∧
      t.height + (if lower then 1 else 0) = (build side data bf old other).height := by
  obtain ⟨-, hother, hdiff, -, -⟩ := balanced_build.mp h
  have hsign := sign_cases side
  have hoheight : other.height = old.height + 1 := by
    rcases hsign with hs | hs <;> rw [hs] at hbf hdiff <;> omega
  obtain ⟨qdata, qbf, near, far, rfl⟩ := exists_build (!side) (ne_nil_of_height (show 0 < other.height by omega))
  obtain ⟨hnear, hfar, hqdiff, hq1, hq2⟩ := balanced_build.mp hother
  rw [height_build] at hoheight
  rw [sign_not] at hqdiff
  have hne : bf ≠ 0 := by omega
  have hne' : bf ≠ sign side := by omega
  have hflip : ∀ u : Avlnode α, (build side data bf child u).toList = (build (!side) data bf u child).toList := by
    intro u
    cases side <;> rfl
  rw [hflip, height_build, height_build]
  by_cases hq : qbf = 0
  · have hsame : near.height = far.height := by
      rcases hsign with hs | hs <;> rw [hs] at hqdiff <;> omega
    refine ⟨single (!side) data (-sign side) child qdata (sign side) near far, false, ?_, ?_, ?_, ?_⟩
    · simp only [shrink, if_neg hne, if_neg hne', view_build, if_pos hq]
    · refine balanced_build.mpr ⟨hnear, balanced_build.mpr ⟨hfar, hc, ?_, by omega⟩, ?_, by omega⟩
      · rw [sign_not, show (far.height : Int) - child.height = 1 by omega, mul_one]
      · rw [height_build, sign_not, show (near.height : Int) - (max far.height child.height + 1 : Nat) = -1 by omega]
        omega
    · exact toList_single (!side) data _ bf child qdata _ qbf near far
    · simp only [single, height_build, Bool.false_eq_true, if_false]
      omega
  · by_cases hqbf : qbf = bf
    · have hnfar : near.height = far.height + 1 := by
        rcases hsign with hs | hs <;> rw [hs] at hqdiff hbf <;> omega
      refine ⟨single (!side) data 0 child qdata 0 near far, true, ?_, ?_, ?_, ?_⟩
      · simp only [shrink, if_neg hne, if_neg hne', view_build, if_neg hq, if_pos hqbf]
      · refine balanced_build.mpr ⟨hnear, balanced_build.mpr ⟨hfar, hc, ?_, by omega⟩, ?_, by omega⟩
        · rw [show (far.height : Int) - child.height = 0 by omega, mul_zero]
        · rw [height_build, show (near.height : Int) - (max far.height child.height + 1 : Nat) = 0 by omega, mul_zero]
      · exact toList_single (!side) data _ bf child qdata _ qbf near far
      · simp only [single, height_build, if_true]
        omega
    · have hffar : far.height = near.height + 1 := by
        rcases hsign with hs | hs <;> rw [hs] at hqdiff hbf <;> omega
      obtain ⟨rdata, rbf, rnear, rfar, rfl⟩ := exists_build (!side) (ne_nil_of_height (show 0 < far.height by omega))
      obtain ⟨hrnear, hrfar, hrdiff, hr1, hr2⟩ := balanced_build.mp hfar
      rw [height_build] at hoheight hffar
      rw [sign_not] at hrdiff
      obtain ⟨pbf, qbf', hpair, hpbf, hprange, hqbf', hqrange⟩ :=
        double_factors_swap (m := child.height) hsign hrdiff hr1 hr2 (by omega)
      refine ⟨double (!side) data pbf child qdata qbf' near rdata 0 rnear rfar, true, ?_, ?_, ?_, ?_⟩
      · simp only [shrink, if_neg hne, if_neg hne', view_build, if_neg hq, if_neg hqbf, hpair]
      · have hnheight : near.height = child.height := by omega
        refine balanced_build.mpr ⟨balanced_build.mpr ⟨hnear, hrnear, ?_, hqrange⟩,
          balanced_build.mpr ⟨hrfar, hc, ?_, hprange⟩, ?_, by omega⟩
        · rw [sign_not, hqbf', hnheight]
        · rw [sign_not, hpbf]
        · rw [height_build, height_build,
            show ((max near.height rnear.height + 1 : Nat) : Int) - (max rfar.height child.height + 1 : Nat) = 0 by omega,
            mul_zero]
      · exact toList_double (!side) data pbf bf child qdata qbf' qbf near rdata 0 rbf rnear rfar
      · simp only [double, height_build, if_true]
        omega

theorem shrink_spec {p : Frame α} (h : (p.plug old).Balanced) (hc : child.Balanced) (hheight : child.height + 1 = old.height) :
    ∃ t lower, shrink p child = .ok (t, lower) ∧ t.Balanced ∧ t.toList = (p.plug child).toList ∧
      t.height + (if lower then 1 else 0) = (p.plug old).height := by
  obtain ⟨data, bf, side, other⟩ := p
  have h' : (build side data bf old other).Balanced := h
  obtain ⟨-, hother, hdiff, h1, h2⟩ := balanced_build.mp h'
  have hsign := sign_cases side
  have hcases : bf = 0 ∨ bf = sign side ∨ bf = -sign side := by omega
  rcases hcases with hbf | hbf | hbf
  · refine ⟨build side data (-sign side) child other, false, if_pos hbf, balanced_build.mpr ⟨hc, hother, ?_, by omega⟩,
      toList_build_bf _, ?_⟩
    · rcases hsign with hs | hs <;> rw [hs] at hdiff ⊢ <;> omega
    · change (build side data (-sign side) child other).height + 0 = (build side data bf old other).height
      rw [height_build, height_build]
      rcases hsign with hs | hs <;> rw [hs] at hdiff <;> omega
  · have hne : bf ≠ 0 := by omega
    refine ⟨build side data 0 child other, true, ?_, balanced_build.mpr ⟨hc, hother, ?_, by omega⟩, toList_build_bf _, ?_⟩
    · simp only [shrink, if_neg hne, if_pos hbf]
      rfl
    · rcases hsign with hs | hs <;> rw [hs] at hdiff hbf ⊢ <;> omega
    · change (build side data 0 child other).height + 1 = (build side data bf old other).height
      rw [height_build, height_build]
      rcases hsign with hs | hs <;> rw [hs] at hdiff hbf <;> omega
  · exact shrink_lower h' hc hheight hbf

theorem retrace_spec {stack : List (Frame α)} (h : (plugAll stack old).Balanced) (hc : child.Balanced)
    (hheight : child.height + 1 = old.height) : ∃ t, retrace stack child = .ok t ∧ t.Balanced ∧
      t.toList = (plugAll stack child).toList := by
  induction stack generalizing old child with
  | nil => exact ⟨child, rfl, hc, rfl⟩
  | cons p stack ih =>
    have hplug : (plugAll stack (p.plug old)).Balanced := h
    obtain ⟨t, lower, hshrink, ht, hlist, hth⟩ := shrink_spec hplug.of_plugAll hc hheight
    cases lower with
    | false =>
      refine ⟨plugAll stack t, ?_, hplug.replace ht hth, toList_plugAll_congr hlist⟩
      rw [retrace, hshrink]
    | true =>
      obtain ⟨u, hu, hub, hulist⟩ := ih hplug ht hth
      refine ⟨u, ?_, hub, hulist.trans (toList_plugAll_congr hlist)⟩
      rw [retrace, hshrink]
      exact hu

end

def spineDepth : Avlnode α → Nat
  | .nil => 0
  | .node _ _ _ .nil => 0
  | .node _ _ _ (.node d bf l r) => spineDepth (.node d bf l r) + 1

def predDepth : Avlnode α → Avlnode α → Nat
  | .nil, _ => 0
  | .node _ _ _ _, .nil => 0
  | .node d bf l r, .node _ _ _ _ => spineDepth (.node d bf l r) + 1

/-- How many nodes `avl_delete` has on its stack. -/
def stackDepth (data : α) : Avlnode α → Nat
  | .nil => 0
  | .node d _ left right =>
    match cmp data d with
    | .eq => predDepth left right
    | .lt => stackDepth data left + 1
    | .gt => stackDepth data right + 1

theorem spineDepth_lt_height {t : Avlnode α} (ht : t ≠ .nil) : spineDepth t < t.height := by
  induction t with
  | nil => exact absurd rfl ht
  | node d bf l r _ ihr =>
    cases r with
    | nil => exact Nat.succ_pos _
    | node d' bf' l' r' =>
      have := ihr (by simp)
      rw [spineDepth, height]
      omega

theorem predDepth_le_height (l r : Avlnode α) : predDepth l r ≤ l.height := by
  cases l with
  | nil => exact Nat.zero_le _
  | node d bf l' r' =>
    cases r with
    | nil => exact Nat.zero_le _
    | node d' bf' l'' r'' => exact spineDepth_lt_height (by simp)

theorem stackDepth_le_height (data : α) (t : Avlnode α) : stackDepth cmp data t ≤ t.height := by
  induction t with
  | nil => exact le_refl 0
  | node d bf l r ihl ihr =>
    have hpred := predDepth_le_height l r
    rw [stackDepth, height]
    split <;> omega

section

variable {cmp} [Std.TransCmp cmp] {MAX_TREE_DEPTH : Nat} {x : α} {f : Frame α} {fs stack : List (Frame α)}

theorem stackDepth_plugAll (h : Straddles cmp x fs) (u : Avlnode α) :
    stackDepth cmp x (plugAll fs u) = fs.length + stackDepth cmp x u := by
  induction fs using List.reverseRecOn with
  | nil => exact (Nat.zero_add _).symm
  | append_singleton fs f ih =>
    obtain ⟨hfs, hf⟩ := h.of_append
    have hplug : stackDepth cmp x (f.plug (plugAll fs u)) = stackDepth cmp x (plugAll fs u) + 1 := by
      obtain ⟨d, bf, side, other⟩ := f
      cases side
      · simp only [Frame.plug, build, Bool.false_eq_true, if_false, stackDepth, hf.cmp_left rfl]
      · simp only [Frame.plug, build, if_true, stackDepth, hf.cmp_right rfl]
    rw [plugAll_concat, hplug, ih hfs, length_append, length_singleton]
    omega

theorem findNode_plug (h : Straddles cmp x [f]) (t : Avlnode α) : findNode cmp MAX_TREE_DEPTH x stack (f.plug t) =
    if stack.length < MAX_TREE_DEPTH then findNode cmp MAX_TREE_DEPTH x (f :: stack) t else .error .stackOverflow := by
  obtain ⟨d, bf, side, other⟩ := f
  by_cases hlt : stack.length < MAX_TREE_DEPTH
  · cases side
    · simp only [Frame.plug, build, Bool.false_eq_true, if_false, findNode, h.cmp_left rfl, push, if_pos hlt]
    · simp only [Frame.plug, build, if_true, findNode, h.cmp_right rfl, push, if_pos hlt]
  · cases side
    · simp only [Frame.plug, build, Bool.false_eq_true, if_false, findNode, h.cmp_left rfl, push, if_neg hlt]
    · simp only [Frame.plug, build, if_true, findNode, h.cmp_right rfl, push, if_neg hlt]

theorem findNode_plugAll (h : Straddles cmp x fs) (hstack : stack.length ≤ MAX_TREE_DEPTH) (u : Avlnode α) :
    findNode cmp MAX_TREE_DEPTH x stack (plugAll fs u) =
      if fs.length + stack.length ≤ MAX_TREE_DEPTH then findNode cmp MAX_TREE_DEPTH x (fs ++ stack) u
      else .error .stackOverflow := by
  induction fs using List.reverseRecOn generalizing stack with
  | nil => rw [length_nil, Nat.zero_add, if_pos hstack, List.nil_append, plugAll]
  | append_singleton fs f ih =>
    obtain ⟨hfs, hf⟩ := h.of_append
    rw [plugAll_concat, findNode_plug hf, length_append, length_singleton, append_assoc,
      singleton_append]
    by_cases hlt : stack.length < MAX_TREE_DEPTH
    · rw [if_pos hlt, ih hfs (length_cons ▸ hlt), length_cons, show fs.length + (stack.length + 1) = fs.length + 1 + stack.length by omega]
    · rw [if_neg hlt, if_neg (by omega)]

end

section

variable {MAX_TREE_DEPTH : Nat}

theorem findPred_spec {l : Avlnode α} (hl : l ≠ .nil) {depth : Nat} {spine : List (Frame α)}
    (hdepth : depth + spine.length + spineDepth l ≤ MAX_TREE_DEPTH) : ∃ sp q bf ql, l = plugAll sp (.node q bf ql .nil) ∧
      behind sp = [] ∧ findPred MAX_TREE_DEPTH depth spine l = .ok (sp ++ spine, q, ql) := by
  induction l generalizing spine with
  | nil => exact absurd rfl hl
  | node d bf left right _ ih =>
    cases right with
    | nil => exact ⟨[], d, bf, left, rfl, rfl, rfl⟩
    | node d' bf' l r =>
      rw [spineDepth] at hdepth
      have hroom : depth + ((⟨d, bf, true, left⟩ : Frame α) :: spine).length + spineDepth (.node d' bf' l r) ≤
          MAX_TREE_DEPTH := by
        rw [length_cons]
        omega
      obtain ⟨sp, q, qbf, ql, heq, hbehind, hpred⟩ := ih (by simp) hroom
      refine ⟨sp ++ [⟨d, bf, true, left⟩], q, qbf, ql, ?_, ?_, ?_⟩
      · rw [plugAll_concat, ← heq]
        rfl
      · rw [behind_append, hbehind]
        rfl
      · rw [findPred, if_pos (by omega), hpred, append_assoc, singleton_append]

theorem findPred_overflow {l : Avlnode α} (hl : l ≠ .nil) {depth : Nat} {spine : List (Frame α)}
    (hspine : depth + spine.length ≤ MAX_TREE_DEPTH) (hdepth : MAX_TREE_DEPTH < depth + spine.length + spineDepth l) :
    findPred MAX_TREE_DEPTH depth spine l = .error .stackOverflow := by
  induction l generalizing spine with
  | nil => exact absurd rfl hl
  | node d bf left right _ ih =>
    cases right with
    | nil => exact absurd hspine (Nat.not_le.mpr hdepth)
    | node d' bf' l r =>
      rw [spineDepth] at hdepth
      rw [findPred]
      split
      · exact ih (by simp) (by rwa [length_cons]) (by
          rw [length_cons]
          omega)
      · rfl

theorem balanced_node_data {d d' : α} {bf : Int} {l r : Avlnode α} (h : (BalTree.node d bf l r).Balanced) :
    (BalTree.node d' bf l r).Balanced := h

variable {stack : List (Frame α)} {data : α} {bf : Int} {left right : Avlnode α}

theorem swapPred_spec (h : (plugAll stack (.node data bf left right)).Balanced)
    (hdepth : stack.length + predDepth left right ≤ MAX_TREE_DEPTH) : ∃ stack' child old,
      swapPred MAX_TREE_DEPTH ⟨stack, data, bf, left, right⟩ = .ok (stack', child) ∧ (plugAll stack' old).Balanced ∧
        child.Balanced ∧ child.height + 1 = old.height ∧
        (plugAll stack' child).toList = before stack ++ (left.toList ++ right.toList) ++ behind stack := by
  have hnode := h.of_plugAll
  cases left with
  | nil => exact ⟨stack, right, _, by cases right <;> rfl, h, hnode.2.1, by simp [height], toList_plugAll ..⟩
  | node d1 b1 l1 r1 =>
    cases right with
    | nil => exact ⟨stack, .node d1 b1 l1 r1, _, rfl, h, hnode.1, by simp [height], by simp [toList_plugAll]⟩
    | node d2 b2 l2 r2 =>
      rw [predDepth] at hdepth
      have hroom : stack.length + 1 + ([] : List (Frame α)).length + spineDepth (.node d1 b1 l1 r1) ≤ MAX_TREE_DEPTH := by
        rw [length_nil]
        omega
      obtain ⟨spine, q, qbf, ql, hleft, hbehind, hpred⟩ := findPred_spec (by simp) hroom
      rw [List.append_nil] at hpred
      refine ⟨spine ++ ⟨q, bf, false, .node d2 b2 l2 r2⟩ :: stack, ql, .node q qbf ql .nil, ?_, ?_, ?_, by simp [height], ?_⟩
      · simp only [swapPred, if_pos (show stack.length < MAX_TREE_DEPTH by omega), hpred]
      · rw [plugAll_append, ← hleft]
        -- the predecessor's data above the same subtrees
        exact h.replace (balanced_node_data hnode) rfl
      · have hleftb := hnode.1
        rw [hleft] at hleftb
        exact hleftb.of_plugAll.1
      · have hlist : (BalTree.node d1 b1 l1 r1).toList = (plugAll spine ql).toList ++ [q] := by
          rw [hleft, toList_plugAll, toList_plugAll, hbehind]
          simp [toList]
        rw [hlist, plugAll_append, plugAll, toList_plugAll, Frame.toList_plug]
        simp [Frame.before, Frame.behind]

theorem swapPred_overflow (hstack : stack.length ≤ MAX_TREE_DEPTH)
    (hdepth : MAX_TREE_DEPTH < stack.length + predDepth left right) :
    swapPred MAX_TREE_DEPTH ⟨stack, data, bf, left, right⟩ = .error .stackOverflow := by
  cases left with
  | nil => exact absurd hstack (Nat.not_le.mpr hdepth)
  | node d1 b1 l1 r1 =>
    cases right with
    | nil => exact absurd hstack (Nat.not_le.mpr hdepth)
    | node d2 b2 l2 r2 =>
      rw [predDepth] at hdepth
      simp only [swapPred]
      by_cases hlt : stack.length < MAX_TREE_DEPTH
      · have hover : MAX_TREE_DEPTH < stack.length + 1 + ([] : List (Frame α)).length + spineDepth (.node d1 b1 l1 r1) := by
          rw [length_nil]
          omega
        rw [if_pos hlt, findPred_overflow (by simp) hlt hover]
      · rw [if_neg hlt]

end

section

variable {cmp} [Std.TransCmp cmp] {MAX_TREE_DEPTH : Nat} {x d : α} {bf : Int} {l r t : Avlnode α} {fs : List (Frame α)}

theorem avlDelete_found (h : (plugAll fs (.node d bf l r)).Balanced) (hfs : Straddles cmp x fs) (hx : cmp x d = .eq)
    (hdepth : stackDepth cmp x (plugAll fs (.node d bf l r)) ≤ MAX_TREE_DEPTH) :
    ∃ t, avlDelete cmp MAX_TREE_DEPTH (plugAll fs (.node d bf l r)) x = .ok (some d, t) ∧ t.Balanced ∧
      t.toList = before fs ++ (l.toList ++ r.toList) ++ behind fs := by
  rw [stackDepth_plugAll hfs, stackDepth, hx] at hdepth
  obtain ⟨stack, child, old, hswap, hold, hchild, hheight, hlist⟩ :=
    swapPred_spec h hdepth
  obtain ⟨t, hretrace, ht, htlist⟩ := retrace_spec hold hchild hheight
  refine ⟨t, ?_, ht, htlist.trans hlist⟩
  rw [avlDelete, findNode_plugAll hfs (Nat.zero_le _), length_nil, if_pos (by omega), List.append_nil, findNode, hx]
  simp only [hswap, hretrace]

theorem avlDelete_absent (hfs : Straddles cmp x fs) (hdepth : stackDepth cmp x (plugAll fs .nil) ≤ MAX_TREE_DEPTH) :
    avlDelete cmp MAX_TREE_DEPTH (plugAll fs .nil) x = .ok (none, plugAll fs .nil) := by
  rw [stackDepth_plugAll hfs, stackDepth] at hdepth
  rw [avlDelete, findNode_plugAll hfs (Nat.zero_le _), length_nil, if_pos hdepth]
  rfl

theorem avlDelete_overflow (h : Sorted cmp t) (hdepth : MAX_TREE_DEPTH < stackDepth cmp x t) :
    avlDelete cmp MAX_TREE_DEPTH t x = .error .stackOverflow := by
  obtain ⟨fs, u, rfl, hfs, hu⟩ := h.place x
  rw [avlDelete, findNode_plugAll hfs (Nat.zero_le _), length_nil, List.append_nil]
  rw [stackDepth_plugAll hfs] at hdepth
  by_cases hle : fs.length + 0 ≤ MAX_TREE_DEPTH
  · rw [if_pos hle]
    rcases hu with rfl | ⟨d, bf, l, r, rfl, hx⟩
    · exact absurd hle (Nat.not_le.mpr hdepth)
    · rw [stackDepth, hx] at hdepth
      simp only [findNode, hx, swapPred_overflow hle hdepth]
  · rw [if_neg hle]

theorem avlFind_plugAll (hfs : Straddles cmp x fs) (u : Avlnode α) : avlFind cmp x (plugAll fs u) = avlFind cmp x u := by
  induction fs using List.reverseRecOn with
  | nil => rfl
  | append_singleton fs f ih =>
    obtain ⟨hfs, hf⟩ := hfs.of_append
    rw [plugAll_concat, ← ih hfs]
    obtain ⟨d, bf, side, other⟩ := f
    cases side
    · simp only [Frame.plug, build, Bool.false_eq_true, if_false, avlFind, hf.cmp_left rfl]
    · simp only [Frame.plug, build, if_true, avlFind, hf.cmp_right rfl]

end

end

end Lutil
end ReOpenLDAP
