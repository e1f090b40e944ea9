import ReOpenLDAP.Lutil.AvlRuns
import ReOpenLDAP.Lutil.Tavl

/-!
# Lutil.TavlSim

The operations of `tavl.c` on a woven tree do what those of `avl.c` do, and the result is woven.
-/

namespace ReOpenLDAP
namespace Lutil

open BalTree (sign)
open ThreadTree

def Fault.toT : Fault → TFault
  | .nullPointer => .nullPointer
  | .stackOverflow => .stackOverflow

/-- A result of `Lutil.Avl` with its trees woven. -/
def lift {β γ : Type*} (f : β → γ) : Except Fault β → Except TFault γ
  | .error e => .error e.toT
  | .ok b => .ok (f b)

namespace Tavl

variable {α : Type*}

section

variable [DecidableEq α] {side sd : Bool} {gap : Gap α} {top node : α}

theorem handOver_weave (hnode : gap.link side = some node) (htop : gap.link (!side) = some top) (t : BalTree α) :
    handOver top node (weave side gap t) = .ok (weave (!side) gap t) := by
  cases t with
  | nil => simp [weave, handOver, hnode, htop]
  | node data bf left right => rfl

variable (side sd gap)

theorem single_weave (s : α) (sbf : Int) (y : BalTree α) (v : BalTree.View α) (rbf : Int) :
    single side s sbf (weave (!side) (gap.at (!side) s) y) (weaveView side (gap.at side s) v) rbf =
      .ok (weave sd gap (BalTree.single side s sbf y v.data rbf v.near v.far)) := by
  have hfar : handOver v.data s (weave (!side) ((gap.at side s).at (!side) v.data) v.far) =
      .ok (weave side ((gap.at side s).at (!side) v.data) v.far) := by
    have h := @handOver_weave α _ (!side) ((gap.at side s).at (!side) v.data) v.data s (by simp) (by simp) v.far
    rwa [Bool.not_not] at h
  rw [single, weaveView, hfar, BalTree.single, weave_build, weave_build]
  simp [Except.map, Gap.at_comm]

theorem double_weave (s : α) (sbf : Int) (y : BalTree α) (v : BalTree.View α) (rbf : Int) (p : BalTree.View α) :
    double side s sbf (weave (!side) (gap.at (!side) s) y) (weaveView side (gap.at side s) v) rbf
      (weaveView side ((gap.at side s).at (!side) v.data) p) =
      .ok (weave sd gap (BalTree.double side s sbf y v.data rbf v.near p.data 0 p.near p.far)) := by
  have hgap : ((gap.at side s).at (!side) v.data).at side p.data = (gap.at side p.data).at (!side) v.data := by
    rw [← Gap.at_comm, Gap.at_at_same]
  have hnear : handOver p.data v.data (weave side ((gap.at side p.data).at (!side) v.data) p.near) =
      .ok (weave (!side) ((gap.at side p.data).at (!side) v.data) p.near) :=
    handOver_weave (by simp) (by simp) p.near
  have hfar : handOver p.data s (weave (!side) ((gap.at side s).at (!side) p.data) p.far) =
      .ok (weave side ((gap.at side s).at (!side) p.data) p.far) := by
    have h := @handOver_weave α _ (!side) ((gap.at side s).at (!side) p.data) p.data s (by simp) (by simp) p.far
    rwa [Bool.not_not] at h
  rw [double, weaveView, weaveView, hgap, hnear, Gap.at_at_same, hfar, BalTree.double, weave_build, weave_build, weave_build]
  simp [Except.map, Gap.at_comm]

end

section

variable [DecidableEq α] {sd : Bool} {gap : Gap α} {told r : BalTree α}

omit [DecidableEq α] in
theorem tilt_cases {s : BalTree.Frame α} (h : (s.plug told).Balanced) (hr : Grew told r) (hbf : s.bf = sign s.side)
    (v : BalTree.View α) (hv : r.view s.side = some v) : v.bf = sign s.side ∨ v.bf = -sign s.side := by
  obtain ⟨data, bf, side, other⟩ := s
  obtain ⟨-, -, hdiff, -, -⟩ := BalTree.balanced_build.mp (show (BalTree.build side data bf told other).Balanced from h)
  have hsign := BalTree.sign_cases side
  have htold : 0 < told.height := by
    rcases hsign with hs | hs <;> simp only [hs] at hbf hdiff <;> omega
  have htilt := hr.tilt htold
  cases r with
  | nil => cases hv
  | node d b left right =>
    obtain ⟨-, -, -, h1, h2⟩ := hr.balanced
    have hvbf : v.bf = b := by
      obtain rfl := Option.some.inj hv
      cases side <;> rfl
    have hne : b ≠ 0 := htilt
    simp only
    omega

theorem balanceAt_weave {s : BalTree.Frame α} (h : (s.plug told).Balanced) (hr : Grew told r) :
    balanceAt (weaveFrame gap s) (weave s.side (gap.at s.side s.data) r) = lift (weave sd gap) (Lutil.balanceAt s r) := by
  have hcases := tilt_cases h hr
  obtain ⟨data, bf, side, other⟩ := s
  have hplug : ∀ bf, (⟨data, bf, side, weave (!side) (gap.at (!side) data) other⟩ : Frame α).plug
      (weave side (gap.at side data) r) = weave sd gap ((⟨data, bf, side, other⟩ : BalTree.Frame α).plug r) :=
    fun bf => plug_weaveFrame ⟨data, bf, side, other⟩ r
  rw [balanceAt, Lutil.balanceAt]
  simp only [weaveFrame]
  by_cases h0 : bf = 0
  · simp only [if_pos h0, hplug, lift]
  by_cases hlow : bf = -sign side
  · simp only [if_neg h0, if_pos hlow, hplug, lift]
  by_cases hhigh : bf = sign side
  · simp only [if_neg h0, if_neg hlow, if_pos hhigh, view_weave]
    cases hv : r.view side with
    | none => rfl
    | some v =>
      simp only [Option.map_some, weaveView_bf]
      by_cases hsame : v.bf = sign side
      · simp only [hsame, if_true]
        exact single_weave side sd gap data 0 other v 0
      have hopp := (hcases hhigh v hv).resolve_left hsame
      simp only [if_neg hsame, if_pos hopp, weaveView_far, view_weave]
      cases hp : v.far.view side with
      | none => rfl
      | some p => exact double_weave side sd gap data _ other v _ p
  · simp only [if_neg h0, if_neg hlow, if_neg hhigh, hplug, lift]

theorem adjust_weave {toS : List (BalTree.Frame α)} (heven : Even toS) (h : (BalTree.plugAll toS told).Balanced)
    (hr : Grew told r) : adjust (weaveAll gap toS) (weave (holeSide sd toS) (holeGap gap toS) r) =
      lift (weave sd gap) (Lutil.adjust toS r) := by
  induction toS generalizing told r with
  | nil => rfl
  | cons p ps ih =>
    cases ps with
    | nil => exact balanceAt_weave h hr
    | cons q ps =>
      obtain ⟨data, bf, side, other⟩ := p
      obtain rfl : bf = 0 := heven.1
      refine Eq.trans ?_ (ih heven.2 h (hr.build (BalTree.Balanced.of_plugAll h)))
      exact congrArg (adjust (weaveAll gap (q :: ps))) (plug_weaveFrame ⟨data, sign side, side, other⟩ r)

end

section

variable {sd : Bool} {gap : Gap α}

theorem newNode_weave {toS : List (BalTree.Frame α)} (hne : toS ≠ []) (x : α) :
    newNode (weaveAll gap toS) ((holeGap gap toS).link (holeSide sd toS)) x =
      weave (holeSide sd toS) (holeGap gap toS) (BalTree.leaf x) := by
  cases toS with
  | nil => exact absurd rfl hne
  | cons p ps => cases hs : p.side <;> simp [weaveAll, newNode, weaveFrame, holeGap, holeSide, hs] <;> rfl

end

section

variable {cmp : α → α → Ordering} {x : α} {sd : Bool} {gap : Gap α}

def weavePlace (sd : Bool) (gap : Gap α) : Lutil.Place α → Place α
  | .dup d => .dup d
  | .free toS aboveS =>
    .free (weaveAll (holeGap gap aboveS) toS) (weaveAll gap aboveS) ((holeGap (holeGap gap aboveS) toS).link (holeSide sd toS))

theorem findPlace_weave (t : BalTree α) (toS aboveS : List (BalTree.Frame α)) :
    findPlace cmp x (weaveAll (holeGap gap aboveS) toS) (weaveAll gap aboveS)
      (weave (holeSide sd toS) (holeGap (holeGap gap aboveS) toS) t) = weavePlace sd gap (Lutil.findPlace cmp x toS aboveS t) := by
  induction t generalizing toS aboveS with
  | nil => rfl
  | node d bf left right ihl ihr =>
    -- `q` becomes `s`, or it is one more node below `s`
    have hround : ∀ (p : BalTree.Frame α) (d' : α) (bf' : Int) (l r : BalTree α),
        (∀ toS aboveS, findPlace cmp x (weaveAll (holeGap gap aboveS) toS) (weaveAll gap aboveS)
          (weave (holeSide sd toS) (holeGap (holeGap gap aboveS) toS) (.node d' bf' l r)) =
            weavePlace sd gap (Lutil.findPlace cmp x toS aboveS (.node d' bf' l r))) →
        findPlace cmp x [] (weaveAll (holeGap gap aboveS) (p :: toS) ++ weaveAll gap aboveS)
          (weave p.side (holeGap (holeGap gap aboveS) (p :: toS)) (.node d' bf' l r)) =
            weavePlace sd gap (Lutil.findPlace cmp x [] (p :: toS ++ aboveS) (.node d' bf' l r)) := by
      intro p d' bf' l r ih
      rw [← ih, ← weaveAll_append, ← holeGap_append]
      rfl
    rw [weave, findPlace, Lutil.findPlace]
    cases cmp x d with
    | eq => rfl
    | lt =>
      cases left with
      | nil => rfl
      | node d' bf' l r =>
        by_cases hbf : bf' ≠ 0
        · simp only [weave, if_pos hbf]
          exact hround ⟨d, bf, false, right⟩ d' bf' l r ihl
        · simp only [weave, if_neg hbf]
          exact ihl (⟨d, bf, false, right⟩ :: toS) aboveS
    | gt =>
      cases right with
      | nil => rfl
      | node d' bf' l r =>
        by_cases hbf : bf' ≠ 0
        · simp only [weave, if_pos hbf]
          exact hround ⟨d, bf, true, left⟩ d' bf' l r ihr
        · simp only [weave, if_neg hbf]
          exact ihr (⟨d, bf, true, left⟩ :: toS) aboveS

variable [DecidableEq α] [Std.TransCmp cmp] {t : BalTree α}

omit [Std.TransCmp cmp] in
theorem tavlInsert_node (fdup : α → α → Int) (mem : Bool) (x : α) (ht : t ≠ .nil) :
    tavlInsert cmp fdup mem (weave sd (none, none) t) x =
      match weavePlace sd (none, none) (Lutil.findPlace cmp x [] [] t) with
      | .dup d => .ok (fdup d x, weave sd (none, none) t)
      | .free toS aboveS link =>
        if ¬ mem then .ok (-1, weave sd (none, none) t)
        else
          match adjust toS (newNode toS link x) with
          | .error f => .error f
          | .ok t => .ok (0, plugAll aboveS t) := by
  rw [← @findPlace_weave α cmp x sd (none, none) t [] []]
  cases t with
  | nil => exact absurd rfl ht
  | node d bf left right => rfl

theorem tavlInsert_weave (h : Avl cmp t) (fdup : α → α → Int) (mem : Bool) (x : α) :
    tavlInsert cmp fdup mem (weave sd (none, none) t) x =
      lift (fun r => (r.1, weave sd (none, none) r.2)) (avlInsert cmp fdup mem t x) := by
  cases ht : t with
  | nil => cases mem <;> cases sd <;> rfl
  | node d bf left right =>
    rw [← ht]
    have hnil : t ≠ .nil := by simp [ht]
    rw [tavlInsert_node fdup mem x hnil, avlInsert_node fdup mem hnil]
    obtain ⟨fs, u, hfs, hx, rfl | ⟨d', bf', l, r, rfl, heq⟩⟩ := h.sorted.place x
    · have hne : fs ≠ [] := by
        rintro rfl
        cases hfs.symm.trans ht
      obtain ⟨gs, f, rfl⟩ := (List.eq_nil_or_concat fs).resolve_left hne
      rw [List.concat_eq_append] at *
      obtain ⟨toS, aboveS, hfree, happ, hne, heven, -⟩ := findPlace_free hx (Chain.root f)
      rw [List.append_nil] at happ
      have hb := h.balanced
      rw [hfs, ← happ, BalTree.plugAll_append] at hb
      have hadjust := @adjust_weave α _ (holeSide sd aboveS) (holeGap (none, none) aboveS) _ _ toS heven hb.of_plugAll (grew_leaf x)
      have hside : holeSide (holeSide sd aboveS) toS = holeSide sd toS := by
        cases toS with
        | nil => exact absurd rfl hne
        | cons p ps => rfl
      rw [hside] at hadjust
      rw [← hfs] at hfree
      cases mem with
      | false => simp only [hfree, weavePlace, Bool.false_eq_true, not_false_eq_true, if_true, lift]
      | true =>
        simp only [hfree, weavePlace, not_true_eq_false, if_false, newNode_weave hne, hadjust]
        cases Lutil.adjust toS (BalTree.leaf x) with
        | error f => rfl
        | ok u => simp only [lift, plugAll_weaveAll]
    · rw [hfs, findPlace_dup hx heq]
      rfl

end

/-! ## `tavl_delete` -/

section

variable {cmp : α → α → Ordering} {MAX_TREE_DEPTH : Nat} {x : α} {sd : Bool} {gap : Gap α}

def weaveFound (gap : Gap α) (p : Lutil.Found α) : Found α :=
  ⟨weaveAll gap p.stack, p.data, p.bf, weave false ((holeGap gap p.stack).at false p.data) p.left,
    weave true ((holeGap gap p.stack).at true p.data) p.right⟩

theorem findNode_weave (t : BalTree α) (stack : List (BalTree.Frame α)) :
    findNode cmp MAX_TREE_DEPTH x (weaveAll gap stack) (weave (holeSide sd stack) (holeGap gap stack) t) =
      lift (Option.map (weaveFound gap)) (Lutil.findNode cmp MAX_TREE_DEPTH x stack t) := by
  induction t generalizing stack with
  | nil => rfl
  | node d bf left right ihl ihr =>
    rw [weave, findNode, Lutil.findNode]
    cases cmp x d with
    | eq => rfl
    | lt =>
      simp only [push, Lutil.push, length_weaveAll]
      by_cases hroom : stack.length < MAX_TREE_DEPTH
      · simp only [if_pos hroom]
        exact ihl (⟨d, bf, false, right⟩ :: stack)
      · simp only [if_neg hroom]
        rfl
    | gt =>
      simp only [push, Lutil.push, length_weaveAll]
      by_cases hroom : stack.length < MAX_TREE_DEPTH
      · simp only [if_pos hroom]
        exact ihr (⟨d, bf, true, left⟩ :: stack)
      · simp only [if_neg hroom]
        rfl

theorem findPred_weave {depth : Nat} (t : BalTree α) (spine : List (BalTree.Frame α)) :
    findPred MAX_TREE_DEPTH depth (weaveAll gap spine) (weave (holeSide sd spine) (holeGap gap spine) t) =
      lift (fun r => (weaveAll gap r.1, r.2.1, weave false ((holeGap gap r.1).at false r.2.1) r.2.2))
        (Lutil.findPred MAX_TREE_DEPTH depth spine t) := by
  induction t generalizing spine with
  | nil => rfl
  | node d bf left right _ ihr =>
    cases right with
    | nil => rfl
    | node d' bf' l r =>
      simp only [weave, findPred, Lutil.findPred, length_weaveAll]
      split
      · exact ihr (⟨d, bf, true, left⟩ :: spine)
      · rfl

theorem setEnd_weave (link hi link' : Option α) {t : BalTree α} (ht : t ≠ .nil) :
    setEnd false link' (weave true (link, hi) t) = weave true (link', hi) t := by
  have hleft : ∀ (u : BalTree α) (hi : Option α), setEnd false link' (weave false (link, hi) u) = weave false (link', hi) u := by
    intro u
    induction u with
    | nil => exact fun _ => rfl
    | node d bf left right ihl _ =>
      intro hi
      have h := ihl (some d)
      simp only [weave, setEnd, Bool.false_eq_true, if_false, Gap.at] at h ⊢
      rw [h]
      rfl
  rw [weave_side ht, hleft, weave_side ht]

theorem weaveAll_right {spine : List (BalTree.Frame α)} (h : ∀ f ∈ spine, f.side = true) (lo hi hi' : Option α) :
    weaveAll (lo, hi) spine = weaveAll (lo, hi') spine ∧
      holeGap (lo, hi) spine = ((holeGap (lo, hi') spine).1, hi) := by
  induction spine with
  | nil => exact ⟨rfl, rfl⟩
  | cons f fs ih =>
    obtain ⟨hall, hgap⟩ := ih fun g hg => h g (List.mem_cons_of_mem _ hg)
    have hf := h f (List.mem_cons_self ..)
    refine ⟨?_, ?_⟩
    · rw [weaveAll, weaveAll, hall, weaveFrame, weaveFrame, hgap, hf]
      rfl
    · rw [holeGap, holeGap, hgap, hf]
      rfl

theorem findPred_right {depth : Nat} {t : BalTree α} {spine sp : List (BalTree.Frame α)} {q : α} {ql : BalTree α}
    (h : ∀ f ∈ spine, f.side = true) (hpred : Lutil.findPred MAX_TREE_DEPTH depth spine t = .ok (sp, q, ql)) :
    ∀ f ∈ sp, f.side = true := by
  induction t generalizing spine with
  | nil => cases hpred
  | node d bf left right _ ihr =>
    cases right with
    | nil =>
      cases hpred
      exact h
    | node d' bf' l r =>
      rw [Lutil.findPred] at hpred
      split at hpred
      · exact ihr (List.forall_mem_cons.mpr ⟨rfl, h⟩) hpred
      · cases hpred

theorem findPred_plugAll {depth : Nat} {t : BalTree α} {spine sp : List (BalTree.Frame α)} {q : α} {ql : BalTree α}
    (hpred : Lutil.findPred MAX_TREE_DEPTH depth spine t = .ok (sp, q, ql)) :
    ∃ bf, BalTree.plugAll sp (.node q bf ql .nil) = BalTree.plugAll spine t := by
  induction t generalizing spine with
  | nil => cases hpred
  | node d bf left right _ ihr =>
    cases right with
    | nil =>
      cases hpred
      exact ⟨bf, rfl⟩
    | node d' bf' l r =>
      rw [Lutil.findPred] at hpred
      split at hpred
      · exact ihr hpred
      · cases hpred

def Lone (t : BalTree α) : Prop := t = .nil ∨ ∃ d bf, t = .node d bf .nil .nil

theorem lone_of_height {t : BalTree α} (h : t.height ≤ 1) : Lone t := by
  cases t with
  | nil => exact .inl rfl
  | node d bf left right =>
    rw [BalTree.height] at h
    obtain rfl := BalTree.eq_nil_of_height (show left.height = 0 by omega)
    obtain rfl := BalTree.eq_nil_of_height (show right.height = 0 by omega)
    exact .inr ⟨d, bf, rfl⟩

theorem lone_left {d : α} {bf : Int} {t : BalTree α} (h : (BalTree.node d bf t .nil).Balanced) : Lone t := by
  obtain ⟨-, -, hbf, h1, -⟩ := h
  rw [BalTree.height_nil] at hbf
  exact lone_of_height (by omega)

theorem lone_right {d : α} {bf : Int} {t : BalTree α} (h : (BalTree.node d bf .nil t).Balanced) : Lone t := by
  obtain ⟨-, -, hbf, -, h2⟩ := h
  rw [BalTree.height_nil] at hbf
  exact lone_of_height (by omega)

section

variable (sd) (stack : List (BalTree.Frame α)) (d : α) {child : BalTree α}

theorem unlink_left (h : Lone child) : unlink (weaveAll (none, none) stack)
    (weave false ((holeGap (none, none) stack).at false d) child) (.thread (holeGap (none, none) stack).2) =
      weave (holeSide sd stack) (holeGap (none, none) stack) child := by
  rcases h with rfl | ⟨d', bf', rfl⟩
  · cases stack with
    | nil => cases sd <;> rfl
    | cons f fs => cases hf : f.side <;> simp [weave, unlink, weaveAll, weaveFrame, holeSide, hf, Gap.link, Gap.at]
  · simp [weave, unlink, lastNode, Gap.link, Gap.at]

theorem unlink_right (h : Lone child) : unlink (weaveAll (none, none) stack) (.thread (holeGap (none, none) stack).1)
    (weave true ((holeGap (none, none) stack).at true d) child) =
      weave (holeSide sd stack) (holeGap (none, none) stack) child := by
  rcases h with rfl | ⟨d', bf', rfl⟩
  · cases stack with
    | nil => cases sd <;> rfl
    | cons f fs => cases hf : f.side <;> simp [weave, unlink, weaveAll, weaveFrame, holeSide, hf, Gap.link, Gap.at]
  · simp [weave, unlink, lastNode, Gap.link, Gap.at]

end

theorem weaveAll_swap {spine stack : List (BalTree.Frame α)} (hspine : ∀ f ∈ spine, f.side = true) (d q : α) (bf : Int)
    {right : BalTree α} (hright : right ≠ .nil) :
    weaveAll gap (spine ++ ⟨q, bf, false, right⟩ :: stack) =
        weaveAll ((holeGap gap stack).at false d) spine ++
          ⟨q, bf, false, setEnd false (some q) (weave true ((holeGap gap stack).at true d) right)⟩ :: weaveAll gap stack ∧
      holeGap gap (spine ++ ⟨q, bf, false, right⟩ :: stack) =
        (holeGap ((holeGap gap stack).at false d) spine).at false q := by
  obtain ⟨hall, hgap⟩ := weaveAll_right hspine (holeGap gap stack).1 (some q) (some d)
  refine ⟨?_, ?_⟩
  · have hend : setEnd false (some q) (weave true ((holeGap gap stack).at true d) right) =
        weave true ((holeGap gap stack).at true q) right := setEnd_weave (some d) _ (some q) hright
    rw [weaveAll_append, hend]
    exact congrArg (· ++ _) hall
  · rw [holeGap_append]
    exact hgap

theorem swapPred_two (stack : List (BalTree.Frame α)) (d : α) (bf : Int) {left right : BalTree α} (hleft : left ≠ .nil)
    (hright : right ≠ .nil) : swapPred MAX_TREE_DEPTH (weaveFound (none, none) ⟨stack, d, bf, left, right⟩) =
      if stack.length < MAX_TREE_DEPTH then
        match findPred MAX_TREE_DEPTH (stack.length + 1) [] (weave false ((holeGap (none, none) stack).at false d) left) with
        | .error f => .error f
        | .ok (spine, q, qleft) =>
          .ok (spine ++ ⟨q, bf, false, setEnd false (some q) (weave true ((holeGap (none, none) stack).at true d) right)⟩ ::
            weaveAll (none, none) stack, qleft, .thread (some q))
      else .error .stackOverflow := by
  cases left with
  | nil => exact absurd rfl hleft
  | node d1 b1 l1 r1 =>
    cases right with
    | nil => exact absurd rfl hright
    | node d2 b2 l2 r2 =>
      rw [← @length_weaveAll _ (none, none) stack]
      rfl

theorem swapPred_weave {p : Lutil.Found α} (h : (BalTree.plugAll p.stack (.node p.data p.bf p.left p.right)).Balanced) :
    (swapPred MAX_TREE_DEPTH (weaveFound (none, none) p)).map (fun r => (r.1, unlink r.1 r.2.1 r.2.2)) =
      lift (fun r => (weaveAll (none, none) r.1, weave (holeSide sd r.1) (holeGap (none, none) r.1) r.2))
        (Lutil.swapPred MAX_TREE_DEPTH p) := by
  obtain ⟨stack, d, bf, left, right⟩ := p
  have hnode := h.of_plugAll
  cases left with
  | nil =>
    have hunlink := unlink_right sd stack d (lone_right hnode)
    cases right with
    | nil => exact congrArg (fun u => Except.ok (weaveAll (none, none) stack, u)) hunlink
    | node d2 b2 l2 r2 => exact congrArg (fun u => Except.ok (weaveAll (none, none) stack, u)) hunlink
  | node d1 b1 l1 r1 =>
    cases right with
    | nil => exact congrArg (fun u => Except.ok (weaveAll (none, none) stack, u)) (unlink_left sd stack d (lone_left hnode))
    | node d2 b2 l2 r2 =>
      have hpred := @findPred_weave α MAX_TREE_DEPTH false ((holeGap (none, none) stack).at false d) (stack.length + 1)
        (.node d1 b1 l1 r1) []
      rw [swapPred_two stack d bf (by simp) (by simp), Lutil.swapPred]
      · by_cases hroom : stack.length < MAX_TREE_DEPTH
        · rw [if_pos hroom]
          simp only [if_pos hroom]
          rw [show findPred MAX_TREE_DEPTH (stack.length + 1) []
            (weave false ((holeGap (none, none) stack).at false d) (.node d1 b1 l1 r1)) = _ from hpred]
          cases hq : Lutil.findPred MAX_TREE_DEPTH (stack.length + 1) [] (.node d1 b1 l1 r1) with
          | error f => rfl
          | ok r =>
            obtain ⟨spine, q, ql⟩ := r
            have hspine := findPred_right (by simp) hq
            obtain ⟨qbf, hleft⟩ := findPred_plugAll hq
            obtain ⟨hall, hgap⟩ := @weaveAll_swap _ (none, none) _ stack hspine d q bf (.node d2 b2 l2 r2) (by simp)
            have hql : Lone ql := by
              have hb := hnode.1
              rw [show BalTree.node d1 b1 l1 r1 = BalTree.plugAll spine (.node q qbf ql .nil) from hleft.symm] at hb
              exact lone_left hb.of_plugAll
            have hunlink := unlink_left sd (spine ++ ⟨q, bf, false, .node d2 b2 l2 r2⟩ :: stack) q hql
            rw [hgap, Gap.at_at_same, hall] at hunlink
            simp only [lift, hall, hgap]
            exact congrArg (fun u => Except.ok (_, u)) hunlink
        · rw [if_neg hroom]
          simp only [if_neg hroom]
          rfl

variable [DecidableEq α]

theorem shrink_weave (p : BalTree.Frame α) (child : BalTree α) :
    shrink (weaveFrame gap p) (weave p.side (gap.at p.side p.data) child) =
      lift (fun r => (weave sd gap r.1, r.2)) (Lutil.shrink p child) := by
  obtain ⟨data, bf, side, other⟩ := p
  have hplug : ∀ bf, (⟨data, bf, side, weave (!side) (gap.at (!side) data) other⟩ : Frame α).plug
      (weave side (gap.at side data) child) = weave sd gap ((⟨data, bf, side, other⟩ : BalTree.Frame α).plug child) :=
    fun bf => plug_weaveFrame ⟨data, bf, side, other⟩ child
  have hsingle := single_weave (!side) sd gap data
  have hdouble := double_weave (!side) sd gap data
  simp only [Bool.not_not] at hsingle hdouble
  rw [shrink, Lutil.shrink]
  simp only [weaveFrame]
  by_cases h0 : bf = 0
  · simp only [if_pos h0, hplug, lift]
  by_cases hlow : bf = sign side
  · simp only [if_neg h0, if_pos hlow, hplug, lift]
  simp only [if_neg h0, if_neg hlow, view_weave]
  cases hq : other.view (!side) with
  | none => rfl
  | some q =>
    simp only [Option.map_some, weaveView_bf]
    by_cases hq0 : q.bf = 0
    · simp only [hq0, if_true, hsingle]
      rfl
    by_cases hsame : q.bf = bf
    · simp only [if_neg h0, hsame, if_true, hsingle]
      rfl
    simp only [if_neg hq0, if_neg hsame, weaveView_far, view_weave]
    cases hr : q.far.view (!side) with
    | none => rfl
    | some r =>
      simp only [Option.map_some, weaveView_bf, Bool.not_not]
      exact congrArg (Except.map fun t => (t, true)) (hdouble _ child q _ r)

theorem retrace_cons (p : BalTree.Frame α) (stack : List (BalTree.Frame α)) (child : TAvlnode α) :
    retrace (weaveAll gap (p :: stack)) child =
      match shrink (weaveFrame (holeGap gap stack) p) child with
      | .error f => .error f
      | .ok (t, true) => retrace (weaveAll gap stack) t
      | .ok (t, false) => .ok (plugAll (weaveAll gap stack) t) := rfl

theorem retrace_weave (stack : List (BalTree.Frame α)) (child : BalTree α) :
    retrace (weaveAll gap stack) (weave (holeSide sd stack) (holeGap gap stack) child) =
      lift (weave sd gap) (Lutil.retrace stack child) := by
  induction stack generalizing child with
  | nil => rfl
  | cons p stack ih =>
    have hshrink : shrink (weaveFrame (holeGap gap stack) p)
        (weave (holeSide sd (p :: stack)) (holeGap gap (p :: stack)) child) = _ :=
      @shrink_weave α (holeSide sd stack) (holeGap gap stack) _ p child
    rw [retrace_cons, Lutil.retrace, hshrink]
    cases Lutil.shrink p child with
    | error f => rfl
    | ok r =>
      obtain ⟨t, lower⟩ := r
      cases lower with
      | true => exact ih t
      | false => exact congrArg Except.ok (plugAll_weaveAll stack t)

omit [DecidableEq α] in
theorem findNode_plugAll {t : BalTree α} {stack : List (BalTree.Frame α)} {p : Lutil.Found α}
    (h : Lutil.findNode cmp MAX_TREE_DEPTH x stack t = .ok (some p)) :
    BalTree.plugAll p.stack (.node p.data p.bf p.left p.right) = BalTree.plugAll stack t := by
  induction t generalizing stack with
  | nil => cases h
  | node d bf left right ihl ihr =>
    rw [Lutil.findNode] at h
    cases hx : cmp x d with
    | eq =>
      simp only [hx] at h
      obtain rfl := Option.some.inj (Except.ok.inj h)
      rfl
    | lt =>
      simp only [hx, Lutil.push] at h
      by_cases hroom : stack.length < MAX_TREE_DEPTH
      · rw [if_pos hroom] at h
        exact ihl h
      · rw [if_neg hroom] at h
        cases h
    | gt =>
      simp only [hx, Lutil.push] at h
      by_cases hroom : stack.length < MAX_TREE_DEPTH
      · rw [if_pos hroom] at h
        exact ihr h
      · rw [if_neg hroom] at h
        cases h

theorem tavlDelete_weave {t : BalTree α} (h : t.Balanced) (x : α) : tavlDelete cmp MAX_TREE_DEPTH (weave sd (none, none) t) x =
    lift (fun r => (r.1, weave sd (none, none) r.2)) (avlDelete cmp MAX_TREE_DEPTH t x) := by
  have hfind := @findNode_weave α cmp MAX_TREE_DEPTH x sd (none, none) t []
  rw [tavlDelete, avlDelete, show findNode cmp MAX_TREE_DEPTH x [] (weave sd (none, none) t) = _ from hfind]
  cases hnode : Lutil.findNode cmp MAX_TREE_DEPTH x [] t with
  | error f => rfl
  | ok found =>
    cases found with
    | none => rfl
    | some p =>
      have hp : (BalTree.plugAll p.stack (.node p.data p.bf p.left p.right)).Balanced := findNode_plugAll hnode ▸ h
      have hswap := @swapPred_weave α MAX_TREE_DEPTH sd p hp
      simp only [lift, Option.map_some]
      cases hpred : Lutil.swapPred MAX_TREE_DEPTH p with
      | error f =>
        rw [hpred] at hswap
        cases hwoven : swapPred MAX_TREE_DEPTH (weaveFound (none, none) p) with
        | ok r =>
          rw [hwoven] at hswap
          cases hswap
        | error f' =>
          rw [hwoven] at hswap
          exact congrArg _ (Except.error.inj hswap)
      | ok r =>
        obtain ⟨stack, child⟩ := r
        rw [hpred] at hswap
        cases hwoven : swapPred MAX_TREE_DEPTH (weaveFound (none, none) p) with
        | error f' =>
          rw [hwoven] at hswap
          cases hswap
        | ok r =>
          obtain ⟨wstack, left, right⟩ := r
          rw [hwoven] at hswap
          obtain ⟨hstack, hchild⟩ := Prod.mk.inj (Except.ok.inj hswap)
          simp only at hstack hchild
          subst hstack
          simp only [hchild, retrace_weave]
          cases Lutil.retrace stack child <;> rfl

end

section

variable {cmp : α → α → Ordering} {x : α} {sd : Bool} {gap : Gap α}

theorem tavlFind_weave (t : BalTree α) : tavlFind cmp x (weave sd gap t) = avlFind cmp x t := by
  induction t generalizing sd gap with
  | nil => rfl
  | node d bf left right ihl ihr =>
    cases hcmp : cmp x d <;> simp only [weave, tavlFind, avlFind, hcmp, ihl, ihr]

variable [Std.TransCmp cmp] {prev : Option α} {ret : Ordering} {f : BalTree.Frame α} {fs : List (BalTree.Frame α)}

theorem find3Loop_plug (h : BalTree.Straddles cmp x [f]) (t : BalTree α) : find3Loop cmp x prev ret (weave sd gap (f.plug t)) =
    find3Loop cmp x (some f.data) (if f.side then .gt else .lt) (weave f.side (gap.at f.side f.data) t) := by
  rw [← plug_weaveFrame]
  obtain ⟨d, bf, side, other⟩ := f
  cases side
  · simp [weaveFrame, Frame.plug, build, find3Loop, h.cmp_left rfl]
  · simp [weaveFrame, Frame.plug, build, find3Loop, h.cmp_right rfl]

theorem find3Loop_plugAll (h : BalTree.Straddles cmp x (f :: fs)) (t : BalTree α) :
    find3Loop cmp x prev ret (weave sd gap (BalTree.plugAll (f :: fs) t)) =
      find3Loop cmp x (some f.data) (if f.side then .gt else .lt) (weave f.side (holeGap gap (f :: fs)) t) := by
  induction fs using List.reverseRecOn generalizing sd gap prev ret with
  | nil =>
    rw [BalTree.plugAll, BalTree.plugAll, find3Loop_plug h]
    rfl
  | append_singleton fs g ih =>
    rw [← List.cons_append] at h ⊢
    obtain ⟨hfs, hg⟩ := h.of_append
    rw [BalTree.plugAll_concat, find3Loop_plug hg, ih hfs, holeGap_append]
    rfl

end

end Tavl
end Lutil
end ReOpenLDAP
