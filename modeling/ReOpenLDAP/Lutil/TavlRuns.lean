import ReOpenLDAP.Lutil.TavlSim

/-!
# Lutil.TavlRuns

Runs of the operations of `tavl.c` from the empty tree.

* `tavl_runs_iff` — the runs that keep to the set and to exact threads are those whose deletes fit.
-/

namespace ReOpenLDAP
namespace Lutil

open ThreadTree
open Tavl

section

variable {α : Type*} [DecidableEq α] (cmp : α → α → Ordering) (MAX_TREE_DEPTH : Nat) (fdup : α → α → Int)

def tstep (root : TAvlnode α) : Op α → Except TFault (Out α × TAvlnode α)
  | .insert x mem => (tavlInsert cmp fdup mem root x).map fun r => (.inserted r.1, r.2)
  | .delete x => (tavlDelete cmp MAX_TREE_DEPTH root x).map fun r => (.deleted r.1, r.2)
  | .find x => .ok (.found (tavlFind cmp x root), root)

def trun : TAvlnode α → List (Op α) → Except TFault (List (Out α) × TAvlnode α)
  | root, [] => .ok ([], root)
  | root, op :: ops =>
    match tstep cmp MAX_TREE_DEPTH fdup root op with
    | .error f => .error f
    | .ok (out, root) => (trun root ops).map fun r => (out :: r.1, r.2)

omit [DecidableEq α] in
/-- What `tavl_find3` returns: the node of the key, or the next one behind it or in front of it, and how the key compares to it. -/
inductive Find3 (S : Set α) (x : α) : Option α × Ordering → Prop where
  | found {y : α} : y ∈ S → cmp x y = .eq → Find3 S x (some y, .eq)
  | behind {y : α} : y ∈ S → cmp x y = .lt → (∀ z ∈ S, cmp x z = .gt ∨ z = y ∨ cmp y z = .lt) → Find3 S x (some y, .lt)
  | before {y : α} : y ∈ S → cmp x y = .gt → (∀ z ∈ S, cmp x z = .lt ∨ z = y ∨ cmp z y = .lt) → Find3 S x (some y, .gt)
  | empty : S = ∅ → Find3 S x (none, .lt)

structure Threaded (root : TAvlnode α) : Prop where
  exact : Exact root
  /-- From the end on the side `d`, along the links on the other side. -/
  walk : ∀ (d : Bool) (i : Nat), (tavlNext root · !d)^[i] (tavlEnd root d) = (inOrder (!d) root.erase)[i]?
  find3 : ∀ x, Find3 cmp (stored root.erase) x (tavlFind3 cmp root x)

/-- The stack of `tavl_delete` has room. -/
def TFits (root : TAvlnode α) (op : Op α) : Prop := Fits cmp MAX_TREE_DEPTH root.erase op

def TDeletesFit : TAvlnode α → List (Op α) → Prop
  | _, [] => True
  | root, op :: ops => TFits cmp MAX_TREE_DEPTH root op ∧
      ∀ out root', tstep cmp MAX_TREE_DEPTH fdup root op = .ok (out, root') → TDeletesFit root' ops

section

variable {cmp} [Std.TransCmp cmp] {sd : Bool} {t : Avlnode α}

theorem tstep_weave (h : Avl cmp t) (op : Op α) : tstep cmp MAX_TREE_DEPTH fdup (weave sd (none, none) t) op =
    lift (fun r => (r.1, weave sd (none, none) r.2)) (step cmp MAX_TREE_DEPTH fdup t op) := by
  cases op with
  | insert x mem =>
    rw [tstep, step, tavlInsert_weave h]
    cases avlInsert cmp fdup mem t x <;> rfl
  | delete x =>
    rw [tstep, step, tavlDelete_weave h.balanced]
    cases avlDelete cmp MAX_TREE_DEPTH t x <;> rfl
  | find x =>
    rw [tstep, step, tavlFind_weave]
    rfl

omit [DecidableEq α] in
theorem avl_step (h : Avl cmp t) {op : Op α} {out : Out α} {t' : Avlnode α}
    (hs : step cmp MAX_TREE_DEPTH fdup t op = .ok (out, t')) : Avl cmp t' := by
  obtain ⟨out1, t1, hs1, h1, -⟩ := step_spec MAX_TREE_DEPTH fdup h (step_fits MAX_TREE_DEPTH fdup h hs)
  obtain ⟨-, rfl⟩ := Prod.mk.inj (Except.ok.inj (hs1.symm.trans hs))
  exact h1

theorem trun_weave (h : Avl cmp t) (ops : List (Op α)) : trun cmp MAX_TREE_DEPTH fdup (weave sd (none, none) t) ops =
    lift (fun r => (r.1, weave sd (none, none) r.2)) (run cmp MAX_TREE_DEPTH fdup t ops) := by
  induction ops generalizing t with
  | nil => rfl
  | cons op ops ih =>
    rw [trun, run, tstep_weave MAX_TREE_DEPTH fdup h]
    cases hs : step cmp MAX_TREE_DEPTH fdup t op with
    | error f => rfl
    | ok r =>
      obtain ⟨out, t1⟩ := r
      simp only [lift, ih (avl_step MAX_TREE_DEPTH fdup h hs)]
      cases run cmp MAX_TREE_DEPTH fdup t1 ops <;> rfl

theorem deletesFit_weave (h : Avl cmp t) (ops : List (Op α)) :
    TDeletesFit cmp MAX_TREE_DEPTH fdup (weave sd (none, none) t) ops ↔ DeletesFit cmp MAX_TREE_DEPTH fdup t ops := by
  induction ops generalizing t with
  | nil => exact Iff.rfl
  | cons op ops ih =>
    rw [TDeletesFit, DeletesFit, TFits, erase_weave, tstep_weave MAX_TREE_DEPTH fdup h]
    refine and_congr_right fun _ => ?_
    cases hs : step cmp MAX_TREE_DEPTH fdup t op with
    | error f => simp [lift]
    | ok r =>
      obtain ⟨out, t1⟩ := r
      have hrest := ih (avl_step MAX_TREE_DEPTH fdup h hs)
      simp only [lift, Except.ok.injEq, Prod.mk.injEq, and_imp]
      constructor
      · rintro hall out' t' rfl rfl
        exact hrest.mp (hall _ _ rfl rfl)
      · rintro hall out' root' rfl rfl
        exact hrest.mpr (hall _ _ rfl rfl)

omit [DecidableEq α] in
theorem find3_hole {f : BalTree.Frame α} {fs : List (BalTree.Frame α)} {x : α} (h : BalTree.Sorted cmp (BalTree.plugAll (f :: fs) .nil))
    (hx : BalTree.Straddles cmp x (f :: fs)) :
    Find3 cmp (stored (BalTree.plugAll (f :: fs) .nil)) x (some f.data, if f.side then .gt else .lt) := by
  rw [BalTree.Sorted, BalTree.toList_plugAll, BalTree.toList_nil, List.append_nil] at h
  obtain ⟨hbefore, hbehind, -⟩ := List.pairwise_append.mp h
  cases hs : f.side with
  | true =>
    have hlist : BalTree.before (f :: fs) = (BalTree.before fs ++ f.other.toList) ++ [f.data] := by
      simp [BalTree.before, BalTree.Frame.before, hs]
    have hf : f.data ∈ BalTree.before (f :: fs) := by simp [hlist]
    rw [hlist] at hbefore
    refine .before (mem_stored_plugAll.mpr (.inl hf)) (Std.OrientedCmp.gt_of_lt (hx.1 _ hf)) fun z hz => ?_
    rcases mem_stored_plugAll.mp hz with hz | hz | hz
    · rw [hlist, List.mem_append, List.mem_singleton] at hz
      rcases hz with hz | rfl
      · exact .inr (.inr ((List.pairwise_append.mp hbefore).2.2 z hz _ (List.mem_singleton_self _)))
      · exact .inr (.inl rfl)
    · cases hz
    · exact .inl (hx.2 z hz)
  | false =>
    have hlist : BalTree.behind (f :: fs) = f.data :: (f.other.toList ++ BalTree.behind fs) := by
      simp [BalTree.behind, BalTree.Frame.behind, hs]
    have hf : f.data ∈ BalTree.behind (f :: fs) := by simp [hlist]
    rw [hlist] at hbehind
    refine .behind (mem_stored_plugAll.mpr (.inr (.inr hf))) (hx.2 _ hf) fun z hz => ?_
    rcases mem_stored_plugAll.mp hz with hz | hz | hz
    · exact .inl (Std.OrientedCmp.gt_of_lt (hx.1 z hz))
    · cases hz
    · rw [hlist] at hz
      rcases List.mem_cons.mp hz with rfl | hz
      · exact .inr (.inl rfl)
      · exact .inr (.inr ((List.pairwise_cons.mp hbehind).1 z hz))

omit [DecidableEq α] in
theorem find3_weave (h : Avl cmp t) (x : α) : Find3 cmp (stored t) x (tavlFind3 cmp (weave sd (none, none) t) x) := by
  obtain ⟨fs, u, rfl, hfs, hu⟩ := h.sorted.place x
  have hend : tavlFind3 cmp (weave sd (none, none) (BalTree.plugAll fs u)) x =
      find3Loop cmp x (fs.head?.map BalTree.Frame.data) (if holeSide false fs then .gt else .lt)
        (weave (holeSide sd fs) (holeGap (none, none) fs) u) := by
    cases fs with
    | nil => rfl
    | cons f fs => exact find3Loop_plugAll hfs u
  rw [hend]
  rcases hu with rfl | ⟨d, bf, l, r, rfl, hx⟩
  · rw [weave, find3Loop]
    cases fs with
    | nil => exact .empty (by simp [stored, BalTree.plugAll])
    | cons f fs => exact find3_hole h.sorted hfs
  · rw [weave, find3Loop, hx]
    exact .found (mem_stored_plugAll.mpr (.inr (.inl (by simp [BalTree.toList])))) hx

theorem threaded_weave (h : Avl cmp t) : Threaded cmp (weave sd (none, none) t) := by
  have hnodup := sorted_nodup h.sorted
  refine ⟨exact_weave sd t, fun d i => ?_, fun x => ?_⟩
  · rw [erase_weave, ← walk_weave hnodup sd, Bool.not_not]
    rfl
  · rw [erase_weave]
    exact find3_weave h x

/-- A run from the empty tree keeps to the set, to AVL trees and to exact threads exactly if each of its deletes has room for
the nodes above the place. -/
theorem tavl_runs_iff (ops : List (Op α)) :
    (∃ r, trun cmp MAX_TREE_DEPTH fdup (.thread none) ops = .ok r ∧ Agrees cmp fdup ops (r.1, r.2.erase) ∧ Threaded cmp r.2) ↔
      TDeletesFit cmp MAX_TREE_DEPTH fdup (.thread none) ops := by
  have hnil : weave false (none, none) (.nil : Avlnode α) = .thread none := rfl
  rw [← hnil, deletesFit_weave MAX_TREE_DEPTH fdup avl_nil, ← avl_runs_iff, trun_weave MAX_TREE_DEPTH fdup avl_nil]
  constructor
  · rintro ⟨r, hrun, hagrees, -⟩
    cases hrun' : run cmp MAX_TREE_DEPTH fdup .nil ops with
    | error f =>
      rw [hrun'] at hrun
      cases hrun
    | ok r' =>
      rw [hrun'] at hrun
      obtain rfl := Except.ok.inj hrun
      simp only [erase_weave] at hagrees
      exact ⟨r', rfl, hagrees⟩
  · rintro ⟨r, hrun, hagrees⟩
    rw [hrun]
    refine ⟨_, rfl, ?_, threaded_weave hagrees.2.1⟩
    rw [erase_weave]
    exact hagrees

theorem tavl_runs_three : ∃ r, trun (compare : Nat → Nat → Ordering) 64 (fun _ _ => -1) (.thread none)
    [.insert 2 true, .insert 1 true, .insert 3 true, .delete 2] = .ok r ∧
      Agrees compare (fun _ _ => -1) [.insert 2 true, .insert 1 true, .insert 3 true, .delete 2] (r.1, r.2.erase) ∧
        Threaded compare r.2 :=
  (tavl_runs_iff 64 (fun _ _ => -1) _).mpr <| by
    refine ⟨trivial, fun _ t1 h1 => ⟨trivial, fun _ t2 h2 => ⟨trivial, fun _ t3 h3 => ⟨?_, fun _ _ _ => trivial⟩⟩⟩⟩
    cases h1
    cases h2
    cases h3
    exact show stackDepth compare 2 (BalTree.node 2 0 (BalTree.leaf 1) (BalTree.leaf 3)) ≤ 64 by decide

end

/-- As `sizeofAvlnode`: the threads are bits of characters that are there. -/
def sizeofTAvlnode (sizeof_ptr : Nat) : Nat := 4 * sizeof_ptr

end

/-- A tree that fits in the memory of the host, and is too high for the stack. -/
def TOverflowFits (sizeof_ptr : Nat) : Prop :=
  ∃ keys : List Nat, keys.length * sizeofTAvlnode sizeof_ptr < 2 ^ (sizeof_ptr * CHAR_BIT) ∧ ∀ fdup,
    trun compare (sizeof_ptr * CHAR_BIT) fdup (.thread none) (keys.map (Op.insert · true) ++ [.delete 0]) =
      .error .stackOverflow

theorem tOverflowFits_of_mem {sizeof_ptr : Nat} (hp : sizeof_ptr ∈ [4, 8]) : TOverflowFits sizeof_ptr := by
  obtain ⟨keys, hlen, hrun⟩ := exists_overflow (sizeof_ptr * CHAR_BIT)
  refine ⟨keys, nodes_fit hp hlen, fun fdup => ?_⟩
  have hnil : weave false (none, none) (.nil : Avlnode Nat) = .thread none := rfl
  rw [← hnil, trun_weave _ _ avl_nil, hrun]
  rfl

/-- There is one on a 32-bit and on a 64-bit host. -/
theorem tavl_delete_overflow_fits_memory : TOverflowFits 4 ∧ TOverflowFits 8 :=
  ⟨tOverflowFits_of_mem (by decide), tOverflowFits_of_mem (by decide)⟩

end Lutil
end ReOpenLDAP
