import ReOpenLDAP.Lib.Run
import ReOpenLDAP.Lutil.Avl
import Mathlib.Data.Set.Card
import Mathlib.Tactic.NormNum.NatFib

/-!
# Lutil.AvlRuns

Runs of AVL operations from the empty tree, against a set of data.
-/

namespace ReOpenLDAP
namespace Lutil

open BalTree List

inductive Op (α : Type*) where
  | insert (data : α) (mem : Bool)
  | delete (data : α)
  | find (data : α)

inductive Out (α : Type*) where
  | inserted (rc : Int)
  | deleted (data : Option α)
  | found (data : Option α)

section

variable {α : Type*} (cmp : α → α → Ordering) (MAX_TREE_DEPTH : Nat) (fdup : α → α → Int)

def step (t : Avlnode α) : Op α → Except Fault (Out α × Avlnode α)
  | .insert x mem => (avlInsert cmp fdup mem t x).map fun r => (.inserted r.1, r.2)
  | .delete x => (avlDelete cmp MAX_TREE_DEPTH t x).map fun r => (.deleted r.1, r.2)
  | .find x => .ok (.found (avlFind cmp x t), t)

def run : Avlnode α → List (Op α) → Except Fault (List (Out α) × Avlnode α)
  | t, [] => .ok ([], t)
  | t, op :: ops =>
    match step cmp MAX_TREE_DEPTH fdup t op with
    | .error f => .error f
    | .ok (out, t) => (run t ops).map fun r => (out :: r.1, r.2)

/-- The stored data as a set: the first data of a key stays, and other data of the key goes to `fdup`. -/
inductive SpecStep (S : Set α) : Op α × Out α → Set α → Prop where
  | insertDup {x y : α} {mem : Bool} : y ∈ S → cmp x y = .eq → SpecStep S (.insert x mem, .inserted (fdup y x)) S
  | insert {x : α} : (∀ y ∈ S, cmp x y ≠ .eq) → SpecStep S (.insert x true, .inserted 0) (Insert.insert x S)
  | insertNoMem {x : α} : (∀ y ∈ S, cmp x y ≠ .eq) → SpecStep S (.insert x false, .inserted (-1)) S
  | delete {x y : α} : y ∈ S → cmp x y = .eq → SpecStep S (.delete x, .deleted (some y)) (S \ {y})
  | deleteAbsent {x : α} : (∀ y ∈ S, cmp x y ≠ .eq) → SpecStep S (.delete x, .deleted none) S
  | find {x y : α} : y ∈ S → cmp x y = .eq → SpecStep S (.find x, .found (some y)) S
  | findAbsent {x : α} : (∀ y ∈ S, cmp x y ≠ .eq) → SpecStep S (.find x, .found none) S

/-- The stack of `avl_delete` has room. -/
def Fits (t : Avlnode α) : Op α → Prop
  | .delete x => stackDepth cmp x t ≤ MAX_TREE_DEPTH
  | _ => True

def DeletesFit : Avlnode α → List (Op α) → Prop
  | _, [] => True
  | t, op :: ops => Fits cmp MAX_TREE_DEPTH t op ∧
      ∀ out t', step cmp MAX_TREE_DEPTH fdup t op = .ok (out, t') → DeletesFit t' ops

def stored (t : Avlnode α) : Set α := {y | y ∈ t.toList}

structure Avl (t : Avlnode α) : Prop where
  balanced : t.Balanced
  sorted : Sorted cmp t

def Agrees (ops : List (Op α)) (r : List (Out α) × Avlnode α) : Prop :=
  r.1.length = ops.length ∧ Avl cmp r.2 ∧ Steps (SpecStep cmp fdup) ∅ (ops.zip r.1) (stored r.2)

section

variable {cmp} {x d : α} {bf : Int} {l r t : Avlnode α} {fs : List (Frame α)}

theorem avl_nil : Avl cmp .nil := ⟨trivial, .nil⟩

theorem mem_stored_plugAll {u : Avlnode α} {y : α} :
    y ∈ stored (plugAll fs u) ↔ y ∈ before fs ∨ y ∈ u.toList ∨ y ∈ behind fs := by
  simp [stored, toList_plugAll]

theorem sorted_insert (h : Sorted cmp (plugAll fs .nil)) (hfs : Straddles cmp x fs)
    (ht : t.toList = before fs ++ x :: behind fs) : Sorted cmp t := by
  rw [Sorted, toList_plugAll, toList_nil, List.append_nil] at h
  obtain ⟨hb, hbe, hbb⟩ := List.pairwise_append.mp h
  rw [Sorted, ht]
  refine List.pairwise_append.mpr ⟨hb, List.pairwise_cons.mpr ⟨hfs.2, hbe⟩, fun a ha b hbm => ?_⟩
  rcases List.mem_cons.mp hbm with rfl | hbm
  · exact hfs.1 a ha
  · exact hbb a ha b hbm

variable [Std.TransCmp cmp]

theorem absent_plugAll (hfs : Straddles cmp x fs) : ∀ y ∈ stored (plugAll fs .nil), cmp x y ≠ .eq := by
  intro y hy
  rcases mem_stored_plugAll.mp hy with h | h | h
  · exact hfs.not_mem_eq (.inl h)
  · cases h
  · exact hfs.not_mem_eq (.inr h)

theorem step_insert (h : Avl cmp t) (x : α) (mem : Bool) : ∃ out t', step cmp MAX_TREE_DEPTH fdup t (.insert x mem) = .ok (out, t') ∧
    Avl cmp t' ∧ SpecStep cmp fdup (stored t) (.insert x mem, out) (stored t') := by
  obtain ⟨fs, u, rfl, hfs, rfl | ⟨d, bf, l, r, rfl, hx⟩⟩ := h.sorted.place x
  · cases mem with
    | true =>
      obtain ⟨t', heq, hb, hlist⟩ := avlInsert_free h.balanced hfs fdup
      refine ⟨.inserted 0, t', by rw [step, heq]; rfl, ⟨hb, sorted_insert h.sorted hfs hlist⟩, ?_⟩
      have hset : stored t' = Insert.insert x (stored (plugAll fs .nil)) := by
        ext y
        rw [Set.mem_insert_iff, mem_stored_plugAll]
        simp [stored, hlist, or_left_comm]
      rw [hset]
      exact .insert (absent_plugAll hfs)
    | false => exact ⟨.inserted (-1), _, by rw [step, avlInsert_noMem hfs]; rfl, h, .insertNoMem (absent_plugAll hfs)⟩
  · refine ⟨.inserted (fdup d x), _, by rw [step, avlInsert_dup hfs hx]; rfl, h, .insertDup ?_ hx⟩
    exact mem_stored_plugAll.mpr (.inr (.inl (by simp [toList])))

theorem sorted_nodup (h : Sorted cmp t) : t.toList.Nodup := by
  refine h.imp ?_
  rintro a b hab rfl
  have heq : cmp a a = .eq := Std.ReflCmp.compare_self
  rw [hab] at heq
  cases heq

theorem stored_delete (h : Sorted cmp (plugAll fs (.node d bf l r)))
    (ht : t.toList = before fs ++ (l.toList ++ r.toList) ++ behind fs) :
    stored t = stored (plugAll fs (.node d bf l r)) \ {d} := by
  have hnodup := sorted_nodup h
  rw [toList_plugAll, toList] at hnodup
  have hperm : (before fs ++ (l.toList ++ d :: r.toList) ++ behind fs).Perm (d :: t.toList) := by
    rw [ht]
    have hmiddle : (before fs ++ l.toList ++ d :: (r.toList ++ behind fs)).Perm
        (d :: (before fs ++ l.toList ++ (r.toList ++ behind fs))) := perm_middle
    simpa using hmiddle
  have hd : d ∉ t.toList := (List.nodup_cons.mp (hperm.nodup_iff.mp hnodup)).1
  ext y
  have hmem : y ∈ before fs ++ (l.toList ++ d :: r.toList) ++ behind fs ↔ y = d ∨ y ∈ t.toList :=
    hperm.mem_iff.trans mem_cons
  simp only [stored, Set.mem_sdiff, Set.mem_ofPred_eq, Set.mem_singleton_iff, toList_plugAll, toList, hmem]
  constructor
  · intro hy
    refine ⟨.inr hy, ?_⟩
    rintro rfl
    exact hd hy
  · rintro ⟨rfl | hy, hne⟩
    · exact absurd rfl hne
    · exact hy

theorem step_delete (h : Avl cmp t) (x : α) (hfit : stackDepth cmp x t ≤ MAX_TREE_DEPTH) :
    ∃ out t', step cmp MAX_TREE_DEPTH fdup t (.delete x) = .ok (out, t') ∧
      Avl cmp t' ∧ SpecStep cmp fdup (stored t) (.delete x, out) (stored t') := by
  obtain ⟨fs, u, rfl, hfs, rfl | ⟨d, bf, l, r, rfl, hx⟩⟩ := h.sorted.place x
  · exact ⟨.deleted none, _, by rw [step, avlDelete_absent hfs hfit]; rfl, h, .deleteAbsent (absent_plugAll hfs)⟩
  · obtain ⟨t', heq, hb, hlist⟩ := avlDelete_found h.balanced hfs hx hfit
    have hsorted := h.sorted
    rw [Sorted, toList_plugAll, toList] at hsorted
    have hsub : t'.toList.Sublist (before fs ++ (l.toList ++ d :: r.toList) ++ behind fs) := by
      rw [hlist]
      exact ((List.Sublist.refl _).append ((List.Sublist.refl _).append (sublist_cons_self ..))).append (.refl _)
    refine ⟨.deleted (some d), t', by rw [step, heq]; rfl, ⟨hb, hsorted.sublist hsub⟩, ?_⟩
    rw [stored_delete h.sorted hlist]
    exact .delete (mem_stored_plugAll.mpr (.inr (.inl (by simp [toList])))) hx

theorem step_find (h : Avl cmp t) (x : α) : SpecStep cmp fdup (stored t) (.find x, .found (avlFind cmp x t)) (stored t) := by
  obtain ⟨fs, u, rfl, hfs, rfl | ⟨d, bf, l, r, rfl, hx⟩⟩ := h.sorted.place x
  · rw [avlFind_plugAll hfs, avlFind]
    exact .findAbsent (absent_plugAll hfs)
  · rw [avlFind_plugAll hfs, avlFind, hx]
    exact .find (mem_stored_plugAll.mpr (.inr (.inl (by simp [toList])))) hx

theorem step_spec (h : Avl cmp t) {op : Op α} (hfit : Fits cmp MAX_TREE_DEPTH t op) :
    ∃ out t', step cmp MAX_TREE_DEPTH fdup t op = .ok (out, t') ∧ Avl cmp t' ∧
      SpecStep cmp fdup (stored t) (op, out) (stored t') := by
  cases op with
  | insert x mem => exact step_insert MAX_TREE_DEPTH fdup h x mem
  | delete x => exact step_delete MAX_TREE_DEPTH fdup h x hfit
  | find x => exact ⟨_, _, rfl, h, step_find fdup h x⟩

theorem step_fits (h : Avl cmp t) {op : Op α} {r : Out α × Avlnode α} (hs : step cmp MAX_TREE_DEPTH fdup t op = .ok r) :
    Fits cmp MAX_TREE_DEPTH t op := by
  cases op with
  | insert x mem => trivial
  | find x => trivial
  | delete x =>
    by_contra hover
    rw [step, avlDelete_overflow h.sorted (Nat.not_le.mp hover)] at hs
    cases hs

theorem run_fits (h : Avl cmp t) {ops : List (Op α)} {r : List (Out α) × Avlnode α}
    (hrun : run cmp MAX_TREE_DEPTH fdup t ops = .ok r) : DeletesFit cmp MAX_TREE_DEPTH fdup t ops := by
  induction ops generalizing t r with
  | nil => trivial
  | cons op ops ih =>
    cases hs : step cmp MAX_TREE_DEPTH fdup t op with
    | error f =>
      rw [run, hs] at hrun
      cases hrun
    | ok r1 =>
      have hfit := step_fits MAX_TREE_DEPTH fdup h hs
      obtain ⟨out, t1, hs1, h1, -⟩ := step_spec MAX_TREE_DEPTH fdup h hfit
      refine ⟨hfit, fun out' t' hs' => ?_⟩
      obtain ⟨rfl, rfl⟩ := Prod.mk.inj (Except.ok.inj (hs1.symm.trans hs'))
      rw [run, hs1] at hrun
      cases hrest : run cmp MAX_TREE_DEPTH fdup t1 ops with
      | error f =>
        simp only [hrest] at hrun
        cases hrun
      | ok r2 => exact ih h1 hrest

theorem run_spec (h : Avl cmp t) {ops : List (Op α)} (hfit : DeletesFit cmp MAX_TREE_DEPTH fdup t ops) :
    ∃ outs t', run cmp MAX_TREE_DEPTH fdup t ops = .ok (outs, t') ∧ outs.length = ops.length ∧ Avl cmp t' ∧
      Steps (SpecStep cmp fdup) (stored t) (ops.zip outs) (stored t') := by
  induction ops generalizing t with
  | nil => exact ⟨[], t, rfl, rfl, h, .refl⟩
  | cons op ops ih =>
    obtain ⟨hfit, hrest⟩ := hfit
    obtain ⟨out, t1, hs, h1, hspec⟩ := step_spec MAX_TREE_DEPTH fdup h hfit
    obtain ⟨outs, t', hrun, hlen, h', hsteps⟩ := ih h1 (hrest out t1 hs)
    refine ⟨out :: outs, t', ?_, ?_, h', .cons hspec hsteps⟩
    · rw [run, hs]
      simp only [hrun]
      rfl
    · rw [length_cons, length_cons, hlen]

/-- A run from the empty tree keeps to the set and to AVL trees exactly if each of its deletes has room for the nodes above
the place. -/
theorem avl_runs_iff (ops : List (Op α)) : (∃ r, run cmp MAX_TREE_DEPTH fdup .nil ops = .ok r ∧ Agrees cmp fdup ops r) ↔
    DeletesFit cmp MAX_TREE_DEPTH fdup .nil ops := by
  constructor
  · rintro ⟨r, hrun, -⟩
    exact run_fits MAX_TREE_DEPTH fdup avl_nil hrun
  · intro hfit
    obtain ⟨outs, t, hrun, hlen, ht, hsteps⟩ := run_spec MAX_TREE_DEPTH fdup avl_nil hfit
    have hempty : stored (.nil : Avlnode α) = ∅ := by simp [stored]
    exact ⟨(outs, t), hrun, hlen, ht, hempty ▸ hsteps⟩

theorem avl_runs_three : ∃ r, run (compare : Nat → Nat → Ordering) 64 (fun _ _ => -1) .nil
    [.insert 2 true, .insert 1 true, .delete 2] = .ok r ∧
      Agrees compare (fun _ _ => -1) [.insert 2 true, .insert 1 true, .delete 2] r :=
  (avl_runs_iff 64 (fun _ _ => -1) _).mpr <| by
    refine ⟨trivial, fun _ t1 h1 => ⟨trivial, fun _ t2 h2 => ⟨?_, fun _ _ _ => trivial⟩⟩⟩
    cases h1
    cases h2
    exact show stackDepth compare 2 (BalTree.node 2 (-1) (leaf 1) .nil) ≤ 64 by decide

omit [Std.TransCmp cmp] in
theorem fits_of_size (h : Avl cmp t) (hsize : t.size + 1 < Nat.fib (MAX_TREE_DEPTH + 3)) (op : Op α) :
    Fits cmp MAX_TREE_DEPTH t op := by
  cases op with
  | insert x mem => trivial
  | find x => trivial
  | delete x =>
    refine (stackDepth_le_height cmp x t).trans ?_
    by_contra hhigh
    have hmono : Nat.fib (MAX_TREE_DEPTH + 3) ≤ Nat.fib (t.height + 2) := Nat.fib_mono (by omega)
    exact absurd (hmono.trans h.balanced.fib_le) (Nat.not_le.mpr hsize)

omit [Std.TransCmp cmp] in
theorem SpecStep.ncard_le {S S' : Set α} {p : Op α × Out α} (h : SpecStep cmp fdup S p S') : S'.ncard ≤ S.ncard + 1 := by
  cases h with
  | insert _ => exact Set.ncard_insert_le _ _
  | delete _ _ => exact (Set.ncard_sdiff_singleton_le _ _).trans (Nat.le_succ _)
  | _ => exact Nat.le_succ _

theorem ncard_stored (h : Avl cmp t) : (stored t).ncard = t.size := by
  classical
  have hset : stored t = (t.toList.toFinset : Set α) := (List.coe_toFinset _).symm
  rw [hset, Set.ncard_coe_finset, toFinset_card_of_nodup (sorted_nodup h.sorted), length_toList]

theorem deletesFit_of_size (h : Avl cmp t) {ops : List (Op α)} (hsize : t.size + ops.length < Nat.fib (MAX_TREE_DEPTH + 3)) :
    DeletesFit cmp MAX_TREE_DEPTH fdup t ops := by
  induction ops generalizing t with
  | nil => trivial
  | cons op ops ih =>
    rw [length_cons] at hsize
    have hfit := fits_of_size MAX_TREE_DEPTH h (by omega) op
    refine ⟨hfit, fun out t' hs => ?_⟩
    obtain ⟨out1, t1, hs1, h1, hspec⟩ := step_spec MAX_TREE_DEPTH fdup h hfit
    obtain ⟨rfl, rfl⟩ := Prod.mk.inj (Except.ok.inj (hs1.symm.trans hs))
    have hgrow := hspec.ncard_le
    rw [ncard_stored h, ncard_stored h1] at hgrow
    exact ih h1 (by omega)

/-- No sequence of fewer operations can build a tree that is too high for the stack. -/
theorem avl_runs_of_length {ops : List (Op α)} (hops : ops.length < Nat.fib (MAX_TREE_DEPTH + 3)) :
    ∃ r, run cmp MAX_TREE_DEPTH fdup .nil ops = .ok r ∧ Agrees cmp fdup ops r := by
  have hfit : DeletesFit cmp MAX_TREE_DEPTH fdup .nil ops :=
    deletesFit_of_size MAX_TREE_DEPTH fdup avl_nil (by simpa [size] using hops)
  obtain ⟨outs, t, hrun, hlen, ht, hsteps⟩ := run_spec MAX_TREE_DEPTH fdup avl_nil hfit
  have hempty : stored (.nil : Avlnode α) = ∅ := by simp [stored]
  exact ⟨(outs, t), hrun, hlen, ht, hempty ▸ hsteps⟩

theorem avl_runs_of_length_two : ∃ r, run (compare : Nat → Nat → Ordering) 1 (fun _ _ => -1) .nil
    [.insert 2 true, .delete 2] = .ok r ∧ Agrees compare (fun _ _ => -1) [.insert 2 true, .delete 2] r :=
  avl_runs_of_length 1 (fun _ _ => -1) (by decide)

section

variable {data : α} {side : Bool} {other told u : Avlnode α}

theorem balanceAt_shape {s : Frame α} (h : (s.plug told).Balanced) (hr : r.height = told.height + 1) (hu : u.Balanced)
    (hshape : u.shape = (s.plug r).shape) (heq : balanceAt s r = .ok t) : t.shape = (s.plug r).shape := by
  obtain ⟨data, bf, side, other⟩ := s
  have h' : (build side data bf told other).Balanced := h
  obtain ⟨-, -, hdiff, h1, h2⟩ := balanced_build.mp h'
  obtain ⟨-, -, -, hheight⟩ := hu.near_far (show u.shape = (build side data bf r other).shape from hshape)
  have hsign := sign_cases side
  have hne : bf ≠ sign side := by
    intro hbf
    rcases hsign with hs | hs <;> rw [hs] at hbf hdiff <;> omega
  have hcases : bf = 0 ∨ bf = -sign side := by omega
  have hfar : ∀ bf', (build side data bf' r other).shape = (build side data bf r other).shape := by
    intro bf'
    rw [shape_build, shape_build]
  rcases hcases with hbf | hbf
  · rw [balanceAt, if_pos hbf] at heq
    exact Except.ok.inj heq ▸ hfar _
  · rw [balanceAt, if_neg (show bf ≠ 0 by omega), if_pos hbf] at heq
    exact Except.ok.inj heq ▸ hfar _

theorem adjust_shape {toS : List (Frame α)} (hne : toS ≠ []) (heven : Even toS) (h : (plugAll toS told).Balanced)
    (hr : Grew told r) (hu : u.Balanced) (hshape : u.shape = (plugAll toS r).shape) (heq : adjust toS r = .ok t) :
    t.shape = (plugAll toS r).shape := by
  induction toS generalizing told r with
  | nil => exact absurd rfl hne
  | cons p ps ih =>
    cases ps with
    | nil => exact balanceAt_shape h hr.height hu hshape heq
    | cons q ps =>
      obtain ⟨data, bf, side, other⟩ := p
      obtain rfl : bf = 0 := heven.1
      have hsame : (plugAll (q :: ps) (build side data (sign side) r other)).shape =
          (plugAll (q :: ps) (build side data 0 r other)).shape :=
        shape_plugAll (by rw [shape_build, shape_build])
      rw [plugAll] at hshape ⊢
      exact (ih (cons_ne_nil _ _) heven.2 h (hr.build (Balanced.of_plugAll h)) (hshape.trans hsame.symm) heq).trans hsame

end

theorem exists_insert (h : Avl cmp t) (hne : t ≠ .nil) : ∃ t' x, Avl cmp t' ∧ t'.size + 1 = t.size ∧
    ∀ fdup, avlInsert cmp fdup true t' x = .ok (0, t) := by
  obtain ⟨fs, x, hb, hshape, -, -⟩ := h.balanced.ungrow hne
  have hlist : t.toList = before fs ++ x :: behind fs := by
    rw [← toList_shape, hshape, toList_shape, toList_hole]
  have hsorted := h.sorted
  rw [Sorted, hlist] at hsorted
  obtain ⟨hbefore, hbehind, hcross⟩ := List.pairwise_append.mp hsorted
  obtain ⟨hx, hbehind⟩ := List.pairwise_cons.mp hbehind
  have hfs : Straddles cmp x fs := ⟨fun y hy => hcross y hy x (mem_cons_self ..), hx⟩
  refine ⟨plugAll fs .nil, x, ⟨hb, ?_⟩, ?_, ?_⟩
  · rw [Sorted, toList_plugAll, toList_nil, List.append_nil]
    exact List.pairwise_append.mpr ⟨hbefore, hbehind, fun a ha b hb => hcross a ha b (mem_cons_of_mem _ hb)⟩
  · rw [← length_toList, ← length_toList, hlist, toList_plugAll]
    simp
    omega
  · intro fdup
    by_cases hnil : fs = []
    · subst hnil
      exact congrArg (fun t => Except.ok (0, t)) (Balanced.of_shape (balanced_leaf x) h.balanced hshape.symm)
    obtain ⟨t', hins', ht', -⟩ := avlInsert_free hb hfs fdup
    obtain ⟨toS, aboveS, rfl, hne, ⟨heven, -⟩, hins⟩ := avlInsert_cut hfs hnil fdup true
    rw [plugAll_append] at hb hshape
    obtain ⟨t1, heq, -, -⟩ := adjust_spec hne heven hb.of_plugAll (grew_leaf x)
    obtain ⟨u, hu, hushape⟩ := h.balanced.sub_shape hshape
    have hshape1 := adjust_shape hne heven hb.of_plugAll (grew_leaf x) hu hushape heq
    have ht1 : t' = plugAll aboveS t1 := by
      simp only [hins, heq] at hins'
      exact (Prod.mk.inj (Except.ok.inj hins')).2.symm
    have hsame : t'.shape = t.shape := by rw [hshape, ht1, shape_plugAll hshape1]
    rw [hins', Balanced.of_shape ht' h.balanced hsame]

omit [Std.TransCmp cmp] in
theorem run_append {t t1 : Avlnode α} {ops : List (Op α)} {outs : List (Out α)}
    (h : run cmp MAX_TREE_DEPTH fdup t ops = .ok (outs, t1)) (ops' : List (Op α)) :
    run cmp MAX_TREE_DEPTH fdup t (ops ++ ops') =
      (run cmp MAX_TREE_DEPTH fdup t1 ops').map fun r => (outs ++ r.1, r.2) := by
  induction ops generalizing t outs with
  | nil =>
    obtain ⟨rfl, rfl⟩ := Prod.mk.inj (Except.ok.inj h)
    rw [List.nil_append]
    cases run cmp MAX_TREE_DEPTH fdup t ops' <;> rfl
  | cons op ops ih =>
    rw [run] at h
    rw [cons_append, run]
    cases hs : step cmp MAX_TREE_DEPTH fdup t op with
    | error f =>
      rw [hs] at h
      cases h
    | ok r =>
      simp only [hs] at h ⊢
      cases hrest : run cmp MAX_TREE_DEPTH fdup r.2 ops with
      | error f =>
        rw [hrest] at h
        cases h
      | ok r1 =>
        obtain ⟨outs1, t2⟩ := r1
        rw [hrest] at h
        obtain ⟨rfl, rfl⟩ := Prod.mk.inj (Except.ok.inj h)
        rw [ih hrest]
        cases run cmp MAX_TREE_DEPTH fdup t2 ops' <;> rfl

theorem reach (h : Avl cmp t) : ∃ keys : List α, keys.length = t.size ∧ ∀ MAX_TREE_DEPTH fdup,
    ∃ outs, run cmp MAX_TREE_DEPTH fdup .nil (keys.map (Op.insert · true)) = .ok (outs, t) := by
  induction hn : t.size generalizing t with
  | zero =>
    cases t with
    | nil => exact ⟨[], rfl, fun _ _ => ⟨[], rfl⟩⟩
    | node d bf l r => cases hn
  | succ n ih =>
    have hne : t ≠ .nil := by
      rintro rfl
      cases hn
    obtain ⟨t', x, ht', hsize, hins⟩ := exists_insert h hne
    obtain ⟨keys, hlen, hrun⟩ := ih ht' (by omega)
    refine ⟨keys ++ [x], by rw [length_append, hlen, length_singleton], fun MAX_TREE_DEPTH fdup => ?_⟩
    obtain ⟨outs, hrun⟩ := hrun MAX_TREE_DEPTH fdup
    refine ⟨outs ++ [.inserted 0], ?_⟩
    rw [map_append, run_append MAX_TREE_DEPTH fdup hrun]
    simp only [map_cons, map_nil, run, step, hins]
    rfl

end

end

/-! ## The stack overflows -/

/-- The tree of this height with the fewest nodes, for the keys from `lo` on; the left subtrees are the higher ones. -/
def fibTree : Nat → Nat → Avlnode Nat
  | 0, _ => .nil
  | 1, lo => leaf lo
  | h + 2, lo =>
    .node (lo + (fibTree (h + 1) lo).size) (-1) (fibTree (h + 1) lo) (fibTree h (lo + (fibTree (h + 1) lo).size + 1))

theorem fibTree_succ (h lo : Nat) : fibTree (h + 2) lo = .node (lo + (fibTree (h + 1) lo).size) (-1) (fibTree (h + 1) lo)
    (fibTree h (lo + (fibTree (h + 1) lo).size + 1)) := rfl

theorem height_fibTree (h lo : Nat) : (fibTree h lo).height = h := by
  induction h using Nat.twoStepInduction generalizing lo with
  | zero => rfl
  | one => rfl
  | more h ihr ihl =>
    rw [fibTree_succ, height, ihl, ihr]
    omega

theorem size_fibTree (h lo : Nat) : (fibTree h lo).size + 1 = Nat.fib (h + 2) := by
  induction h using Nat.twoStepInduction generalizing lo with
  | zero => rfl
  | one => rfl
  | more h ihr ihl =>
    have hfib : Nat.fib (h + 2 + 2) = Nat.fib (h + 2) + Nat.fib (h + 1 + 2) := Nat.fib_add_two
    rw [hfib, ← ihl lo, ← ihr (lo + (fibTree (h + 1) lo).size + 1), fibTree_succ, size]
    omega

theorem balanced_fibTree (h lo : Nat) : (fibTree h lo).Balanced := by
  induction h using Nat.twoStepInduction generalizing lo with
  | zero => trivial
  | one => exact balanced_leaf lo
  | more h ihr ihl =>
    refine ⟨ihl _, ihr _, ?_, by omega, by omega⟩
    rw [height_fibTree, height_fibTree]
    omega

theorem toList_fibTree (h lo : Nat) : (fibTree h lo).toList = List.range' lo (fibTree h lo).size := by
  induction h using Nat.twoStepInduction generalizing lo with
  | zero => rfl
  | one => rfl
  | more h ihr ihl =>
    rw [fibTree_succ, toList, size, ihl, ihr, Nat.add_assoc (size _), ← List.range'_append_1, List.range'_succ]

theorem avl_fibTree (h lo : Nat) : Avl compare (fibTree h lo) := by
  refine ⟨balanced_fibTree h lo, ?_⟩
  rw [Sorted, toList_fibTree]
  exact (pairwise_lt_range' ..).imp fun hab => Nat.compare_eq_lt.mpr hab

theorem stackDepth_fibTree (h lo : Nat) (hlo : 0 < lo) : stackDepth compare 0 (fibTree h lo) = h := by
  induction h using Nat.twoStepInduction generalizing lo with
  | zero => rfl
  | one =>
    have hlt : compare 0 lo = .lt := Nat.compare_eq_lt.mpr hlo
    rw [show fibTree 1 lo = leaf lo from rfl, leaf, stackDepth, hlt]
    rfl
  | more h ihr ihl =>
    have hlt : compare 0 (lo + (fibTree (h + 1) lo).size) = .lt := Nat.compare_eq_lt.mpr (by omega)
    rw [fibTree_succ, stackDepth, hlt]
    simp only [ihl lo hlo]

def CHAR_BIT : Nat := 8

def sizeofAvlnode (sizeof_ptr : Nat) : Nat := 4 * sizeof_ptr

theorem exists_overflow (depth : Nat) : ∃ keys : List Nat, keys.length + 1 = Nat.fib (depth + 3) ∧ ∀ fdup,
    run compare depth fdup .nil (keys.map (Op.insert · true) ++ [.delete 0]) = .error .stackOverflow := by
  have ht := avl_fibTree (depth + 1) 1
  obtain ⟨keys, hlen, hrun⟩ := reach ht
  refine ⟨keys, by rw [hlen, size_fibTree], fun fdup => ?_⟩
  obtain ⟨outs, hrun⟩ := hrun depth fdup
  have hdepth : depth < stackDepth compare 0 (fibTree (depth + 1) 1) := by
    rw [stackDepth_fibTree _ _ Nat.one_pos]
    exact Nat.lt_succ_self _
  rw [run_append depth fdup hrun]
  simp only [run, step, avlDelete_overflow ht.sorted hdepth]
  rfl

theorem nodes_fit {sizeof_ptr n : Nat} (hp : sizeof_ptr ∈ [4, 8]) (hn : n + 1 = Nat.fib (sizeof_ptr * CHAR_BIT + 3)) :
    n * (4 * sizeof_ptr) < 2 ^ (sizeof_ptr * CHAR_BIT) := by
  obtain rfl | rfl : sizeof_ptr = 4 ∨ sizeof_ptr = 8 := by simpa using hp
  · have hfib : Nat.fib (4 * CHAR_BIT + 3) = 9227465 := by norm_num [CHAR_BIT]
    rw [hfib] at hn
    rw [CHAR_BIT]
    omega
  · have hfib : Nat.fib (8 * CHAR_BIT + 3) = 44945570212853 := by norm_num [CHAR_BIT]
    rw [hfib] at hn
    rw [CHAR_BIT]
    omega

/-- A tree that fits in the memory of the host, and is too high for the stack. -/
def OverflowFits (sizeof_ptr : Nat) : Prop :=
  ∃ keys : List Nat, keys.length * sizeofAvlnode sizeof_ptr < 2 ^ (sizeof_ptr * CHAR_BIT) ∧ ∀ fdup,
    run compare (sizeof_ptr * CHAR_BIT) fdup .nil (keys.map (Op.insert · true) ++ [.delete 0]) = .error .stackOverflow

theorem overflowFits_of_mem {sizeof_ptr : Nat} (hp : sizeof_ptr ∈ [4, 8]) : OverflowFits sizeof_ptr := by
  obtain ⟨keys, hlen, hrun⟩ := exists_overflow (sizeof_ptr * CHAR_BIT)
  exact ⟨keys, nodes_fit hp hlen, hrun⟩

/-- There is one on a 32-bit and on a 64-bit host. -/
theorem avl_delete_overflow_fits_memory : OverflowFits 4 ∧ OverflowFits 8 :=
  ⟨overflowFits_of_mem (by decide), overflowFits_of_mem (by decide)⟩

end Lutil
end ReOpenLDAP
