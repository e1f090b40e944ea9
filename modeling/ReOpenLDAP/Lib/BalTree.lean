import Mathlib.Algebra.Order.Ring.Int
import Mathlib.Data.Nat.Fib.Basic

/-!
# Lib.BalTree

Binary trees with a balance factor at each node, and zippers of them.
-/

namespace ReOpenLDAP

open List

inductive BalTree (α : Type*) where
  | nil
  | node (data : α) (bf : Int) (left right : BalTree α)
deriving DecidableEq

namespace BalTree

variable {α : Type*}

/-- The balance factor of a node whose subtree on this side is the higher one; `true` is the right side. -/
def sign (side : Bool) : Int := if side then 1 else -1

theorem sign_cases (side : Bool) : sign side = 1 ∨ sign side = -1 := by cases side <;> simp [sign]

@[simp] theorem sign_not (side : Bool) : sign (!side) = -sign side := by cases side <;> rfl

/-- The node with the subtree `near` on the side `side`, and `far` on the other one. -/
def build (side : Bool) (data : α) (bf : Int) (near far : BalTree α) : BalTree α :=
  if side then .node data bf far near else .node data bf near far

/-- The parts that `build` puts together. -/
structure View (α : Type*) where
  data : α
  bf : Int
  near : BalTree α
  far : BalTree α

def view (side : Bool) : BalTree α → Option (View α)
  | nil => none
  | node data bf left right => some (if side then ⟨data, bf, right, left⟩ else ⟨data, bf, left, right⟩)

def height : BalTree α → Nat
  | nil => 0
  | node _ _ left right => max left.height right.height + 1

def size : BalTree α → Nat
  | nil => 0
  | node _ _ left right => left.size + right.size + 1

def toList : BalTree α → List α
  | nil => []
  | node data _ left right => left.toList ++ data :: right.toList

def Balanced : BalTree α → Prop
  | nil => True
  | node _ bf left right =>
    left.Balanced ∧ right.Balanced ∧ bf = (right.height : Int) - left.height ∧ -1 ≤ bf ∧ bf ≤ 1

def tilt : BalTree α → Int
  | nil => 0
  | node _ bf _ _ => bf

def leaf (data : α) : BalTree α := .node data 0 .nil .nil

@[simp] theorem height_nil : (nil : BalTree α).height = 0 := rfl
@[simp] theorem toList_nil : (nil : BalTree α).toList = [] := rfl
@[simp] theorem toList_leaf (x : α) : (leaf x).toList = [x] := rfl
@[simp] theorem height_leaf (x : α) : (leaf x).height = 1 := rfl
@[simp] theorem balanced_nil : (nil : BalTree α).Balanced := trivial

section

variable (data : α) (bf : Int) (left right : BalTree α)

theorem toList_node : (node data bf left right).toList = left.toList ++ data :: right.toList := rfl

theorem size_node : (node data bf left right).size = left.size + right.size + 1 := rfl

theorem balanced_node : (node data bf left right).Balanced ↔
    left.Balanced ∧ right.Balanced ∧ bf = (right.height : Int) - left.height ∧ -1 ≤ bf ∧ bf ≤ 1 := Iff.rfl

end

theorem balanced_leaf (x : α) : (leaf x).Balanced := by simp [leaf, balanced_node]

theorem length_toList (t : BalTree α) : t.toList.length = t.size := by
  induction t with
  | nil => rfl
  | node data bf left right ihl ihr =>
    rw [toList_node, size_node, length_append, length_cons, ihl, ihr]
    omega

section

variable {side : Bool} {data : α} {bf : Int} {near far : BalTree α}

theorem height_build : (build side data bf near far).height = max near.height far.height + 1 := by
  cases side
  · rfl
  · exact congrArg (· + 1) (Nat.max_comm _ _)

theorem balanced_build : (build side data bf near far).Balanced ↔
    near.Balanced ∧ far.Balanced ∧ bf = sign side * ((near.height : Int) - far.height) ∧ -1 ≤ bf ∧ bf ≤ 1 := by
  cases side <;> simp only [build, balanced_node, sign, Bool.false_eq_true, if_false, if_true]
  · constructor <;> rintro ⟨h1, h2, h3, h4⟩ <;> exact ⟨h1, h2, by omega, h4⟩
  · constructor <;> rintro ⟨h1, h2, h3, h4⟩ <;> exact ⟨h2, h1, by omega, h4⟩

theorem tilt_build : (build side data bf near far).tilt = bf := by cases side <;> rfl

theorem toList_build_bf (bf' : Int) : (build side data bf' near far).toList = (build side data bf near far).toList := by
  cases side <;> rfl

theorem build_ne_nil : build side data bf near far ≠ .nil := by cases side <;> simp [build]

theorem view_build : (build side data bf near far).view side = some ⟨data, bf, near, far⟩ := by cases side <;> rfl

variable {t : BalTree α}

theorem exists_build (side : Bool) (h : t ≠ .nil) : ∃ data bf near far, t = build side data bf near far := by
  cases t with
  | nil => exact absurd rfl h
  | node data bf left right =>
    cases side
    · exact ⟨data, bf, left, right, rfl⟩
    · exact ⟨data, bf, right, left, rfl⟩

theorem eq_nil_of_height (h : t.height = 0) : t = .nil := by
  cases t with
  | nil => rfl
  | node data bf left right => exact absurd h (Nat.succ_ne_zero _)

theorem ne_nil_of_height (h : 0 < t.height) : t ≠ .nil := by
  rintro rfl
  exact absurd h (lt_irrefl 0)

end

/-- The node `r` above `s`, of which it was the subtree on the side `side`. -/
def single (side : Bool) (s : α) (sbf : Int) (y : BalTree α) (r : α) (rbf : Int) (rx ry : BalTree α) : BalTree α :=
  build side r rbf rx (build side s sbf ry y)

/-- The node `p` above `s` and `r`, of which it was the inner grandchild. -/
def double (side : Bool) (s : α) (sbf : Int) (y : BalTree α) (r : α) (rbf : Int) (rx : BalTree α) (p : α) (pbf : Int)
    (px py : BalTree α) : BalTree α :=
  build side p pbf (build side r rbf rx px) (build side s sbf py y)

theorem toList_single (side : Bool) (s : α) (sbf sbf' : Int) (y : BalTree α) (r : α) (rbf rbf' : Int)
    (rx ry : BalTree α) :
    (single side s sbf y r rbf rx ry).toList = (build side s sbf' (build side r rbf' rx ry) y).toList := by
  cases side <;> simp [single, build, toList_node]

theorem toList_double (side : Bool) (s : α) (sbf sbf' : Int) (y : BalTree α) (r : α) (rbf rbf' : Int) (rx : BalTree α)
    (p : α) (pbf pbf' : Int) (px py : BalTree α) :
    (double side s sbf y r rbf rx p pbf px py).toList =
      (build side s sbf' (build side r rbf' rx (build side p pbf' px py)) y).toList := by
  cases side <;> simp [double, build, toList_node]

/-- A node without its subtree on the side `side`. -/
structure Frame (α : Type*) where
  data : α
  bf : Int
  side : Bool
  other : BalTree α

namespace Frame

def plug (f : Frame α) (t : BalTree α) : BalTree α := build f.side f.data f.bf t f.other

def before (f : Frame α) : List α := if f.side then f.other.toList ++ [f.data] else []

def behind (f : Frame α) : List α := if f.side then [] else f.data :: f.other.toList

theorem toList_plug (f : Frame α) (t : BalTree α) : (f.plug t).toList = f.before ++ t.toList ++ f.behind := by
  cases hs : f.side <;> simp [plug, build, toList_node, before, behind, hs]

end Frame

def plugAll : List (Frame α) → BalTree α → BalTree α
  | [], t => t
  | f :: fs, t => plugAll fs (f.plug t)

def before : List (Frame α) → List α
  | [] => []
  | f :: fs => before fs ++ f.before

def behind : List (Frame α) → List α
  | [] => []
  | f :: fs => f.behind ++ behind fs

theorem toList_plugAll (fs : List (Frame α)) (t : BalTree α) : (plugAll fs t).toList = before fs ++ t.toList ++ behind fs := by
  induction fs generalizing t with
  | nil => simp [plugAll, before, behind]
  | cons f fs ih =>
    rw [plugAll, ih, f.toList_plug, before, behind]
    simp

variable {t u : BalTree α}

theorem toList_plugAll_congr {fs : List (Frame α)} (h : t.toList = u.toList) : (plugAll fs t).toList = (plugAll fs u).toList := by
  rw [toList_plugAll, toList_plugAll, h]

theorem plugAll_append (fs gs : List (Frame α)) (t : BalTree α) : plugAll (fs ++ gs) t = plugAll gs (plugAll fs t) := by
  induction fs generalizing t with
  | nil => rfl
  | cons f fs ih => exact ih (f.plug t)

theorem plugAll_concat (fs : List (Frame α)) (f : Frame α) (t : BalTree α) : plugAll (fs ++ [f]) t = f.plug (plugAll fs t) :=
  plugAll_append fs [f] t

theorem plugAll_ne_nil {fs : List (Frame α)} (h : t ≠ .nil) : plugAll fs t ≠ .nil := by
  refine ne_nil_of_height ?_
  induction fs generalizing t with
  | nil =>
    cases t with
    | nil => exact absurd rfl h
    | node data bf left right => exact Nat.succ_pos _
  | cons f fs ih =>
    refine ih (ne_nil_of_height ?_)
    rw [Frame.plug, height_build]
    exact Nat.succ_pos _

theorem before_append (fs gs : List (Frame α)) : before (fs ++ gs) = before gs ++ before fs := by
  induction fs with
  | nil => exact (List.append_nil _).symm
  | cons f fs ih => rw [cons_append, before, ih, before, append_assoc]

theorem behind_append (fs gs : List (Frame α)) : behind (fs ++ gs) = behind fs ++ behind gs := by
  induction fs with
  | nil => rfl
  | cons f fs ih => rw [cons_append, behind, ih, behind, append_assoc]

theorem Balanced.of_plugAll {fs : List (Frame α)} (h : (plugAll fs t).Balanced) : t.Balanced := by
  induction fs generalizing t with
  | nil => exact h
  | cons f fs ih => exact (balanced_build.mp (ih h)).1

theorem Balanced.replace {fs : List (Frame α)} {t t' : BalTree α} (h : (plugAll fs t).Balanced) (ht : t'.Balanced)
    (hh : t'.height = t.height) : (plugAll fs t').Balanced := by
  induction fs generalizing t t' with
  | nil => exact ht
  | cons f fs ih =>
    have hplug : (f.plug t).Balanced := Balanced.of_plugAll h
    obtain ⟨-, hother, hbf, hrange⟩ := balanced_build.mp hplug
    refine ih h (balanced_build.mpr ⟨ht, hother, ?_, hrange⟩) ?_
    · rw [hh]
      exact hbf
    · rw [Frame.plug, Frame.plug, height_build, height_build, hh]

/-! ## Sizes -/

theorem Balanced.fib_le (h : t.Balanced) : Nat.fib (t.height + 2) ≤ t.size + 1 := by
  induction t with
  | nil => exact le_refl 1
  | node data bf left right ihl ihr =>
    obtain ⟨hl, hr, hbf, h1, h2⟩ := h
    have hfl := ihl hl
    have hfr := ihr hr
    rw [height, size]
    -- the lower subtree has at least the height of the higher one, less one
    rcases Nat.le_total left.height right.height with hle | hle
    · have hmono : Nat.fib (right.height + 1) ≤ Nat.fib (left.height + 2) := Nat.fib_mono (by omega)
      have hfib : Nat.fib (right.height + 1 + 2) = Nat.fib (right.height + 1) + Nat.fib (right.height + 2) := Nat.fib_add_two
      rw [Nat.max_eq_right hle, hfib]
      omega
    · have hmono : Nat.fib (left.height + 1) ≤ Nat.fib (right.height + 2) := Nat.fib_mono (by omega)
      have hfib : Nat.fib (left.height + 1 + 2) = Nat.fib (left.height + 1) + Nat.fib (left.height + 2) := Nat.fib_add_two
      rw [Nat.max_eq_left hle, hfib]
      omega

def shape : BalTree α → BalTree α
  | nil => .nil
  | node data _ left right => .node data 0 left.shape right.shape

theorem height_shape (t : BalTree α) : t.shape.height = t.height := by
  induction t with
  | nil => rfl
  | node data bf left right ihl ihr => rw [shape, height, height, ihl, ihr]

theorem Balanced.of_shape (ht : t.Balanced) (hu : u.Balanced) (h : t.shape = u.shape) : t = u := by
  induction t generalizing u with
  | nil =>
    cases u with
    | nil => rfl
    | node _ _ _ _ => cases h
  | node data bf left right ihl ihr =>
    cases u with
    | nil => cases h
    | node data' bf' left' right' =>
      simp only [shape, node.injEq, true_and] at h
      obtain ⟨rfl, hl, hr⟩ := h
      obtain rfl := ihl ht.1 hu.1 hl
      obtain rfl := ihr ht.2.1 hu.2.1 hr
      rw [ht.2.2.1, hu.2.2.1]

theorem toList_shape (t : BalTree α) : t.shape.toList = t.toList := by
  induction t with
  | nil => rfl
  | node data bf left right ihl ihr => rw [shape, toList, toList, ihl, ihr]

theorem shape_build (side : Bool) (data : α) (bf : Int) (near far : BalTree α) :
    (build side data bf near far).shape = build side data 0 near.shape far.shape := by
  cases side <;> rfl

theorem shape_plugAll {fs : List (Frame α)} (h : t.shape = u.shape) : (plugAll fs t).shape = (plugAll fs u).shape := by
  induction fs generalizing t u with
  | nil => exact h
  | cons f fs ih => exact ih (by rw [Frame.plug, Frame.plug, shape_build, shape_build, h])

theorem Balanced.near_far (hu : u.Balanced) {side : Bool} {data : α} {bf : Int} {near far : BalTree α}
    (h : u.shape = (build side data bf near far).shape) :
    ∃ v : BalTree α, v.Balanced ∧ v.shape = near.shape ∧ near.height ≤ far.height + 1 := by
  cases u with
  | nil => cases side <;> cases h
  | node d b l r =>
    obtain ⟨hl, hr, hb, h1, h2⟩ := hu
    cases side
    · simp only [build, shape, Bool.false_eq_true, if_false, node.injEq, true_and] at h
      obtain ⟨-, hnear, hfar⟩ := h
      have h1 := congrArg height hnear
      have h2 := congrArg height hfar
      simp only [height_shape] at h1 h2
      exact ⟨l, hl, hnear, by omega⟩
    · simp only [build, shape, if_true, node.injEq, true_and] at h
      obtain ⟨-, hfar, hnear⟩ := h
      have h1 := congrArg height hnear
      have h2 := congrArg height hfar
      simp only [height_shape] at h1 h2
      exact ⟨r, hr, hnear, by omega⟩

theorem Balanced.sub_shape {fs : List (Frame α)} (hu : u.Balanced) (h : u.shape = (plugAll fs t).shape) :
    ∃ v : BalTree α, v.Balanced ∧ v.shape = t.shape := by
  induction fs generalizing t with
  | nil => exact ⟨u, hu, h⟩
  | cons f fs ih =>
    obtain ⟨v, hv, hshape⟩ := ih h
    rw [Frame.plug] at hshape
    obtain ⟨w, hw, hwshape, -⟩ := hv.near_far hshape
    exact ⟨w, hw, hwshape⟩

section

variable (cmp : α → α → Ordering)

def Sorted (t : BalTree α) : Prop := t.toList.Pairwise fun a b => cmp a b = .lt

/-- The key `x` belongs into the hole. -/
def Straddles (x : α) (fs : List (Frame α)) : Prop := (∀ y ∈ before fs, cmp y x = .lt) ∧ ∀ y ∈ behind fs, cmp x y = .lt

variable {cmp} {x : α} {fs gs : List (Frame α)} {f : Frame α}

theorem straddles_append : Straddles cmp x (fs ++ gs) ↔ Straddles cmp x fs ∧ Straddles cmp x gs := by
  simp only [Straddles, before_append, behind_append, mem_append]
  constructor
  · rintro ⟨h1, h2⟩
    exact ⟨⟨fun y hy => h1 y (.inr hy), fun y hy => h2 y (.inl hy)⟩, fun y hy => h1 y (.inl hy), fun y hy => h2 y (.inr hy)⟩
  · rintro ⟨⟨h1, h2⟩, h3, h4⟩
    exact ⟨fun y hy => hy.elim (h3 y) (h1 y), fun y hy => hy.elim (h2 y) (h4 y)⟩

theorem Straddles.of_append (h : Straddles cmp x (fs ++ [f])) : Straddles cmp x fs ∧ Straddles cmp x [f] :=
  straddles_append.mp h

variable {l r : BalTree α} {d : α}

theorem sorted_node {bf : Int} (h : Sorted cmp (.node d bf l r)) :
    Sorted cmp l ∧ Sorted cmp r ∧ (∀ y ∈ l.toList, cmp y d = .lt) ∧ ∀ y ∈ r.toList, cmp d y = .lt := by
  obtain ⟨hl, hr, hlr⟩ := List.pairwise_append.mp h
  obtain ⟨hd, hr⟩ := List.pairwise_cons.mp hr
  exact ⟨hl, hr, fun y hy => hlr y hy d (mem_cons_self ..), hd⟩

theorem Straddles.cmp_left (h : Straddles cmp x [f]) (hs : f.side = false) : cmp x f.data = .lt :=
  h.2 _ (by simp [behind, Frame.behind, hs])

variable [Std.TransCmp cmp]

theorem Straddles.cmp_right (h : Straddles cmp x [f]) (hs : f.side = true) : cmp x f.data = .gt :=
  Std.OrientedCmp.gt_of_lt (h.1 _ (by simp [before, Frame.before, hs]))

theorem straddles_left {bf : Int} (h : Sorted cmp (.node d bf l r)) (hx : cmp x d = .lt) :
    Straddles cmp x [⟨d, bf, false, r⟩] := by
  refine ⟨by simp [before, Frame.before], fun y hy => ?_⟩
  obtain rfl | hy : y = d ∨ y ∈ r.toList := by simpa [behind, Frame.behind] using hy
  · exact hx
  · exact Std.TransCmp.lt_trans hx ((sorted_node h).2.2.2 y hy)

theorem straddles_right {bf : Int} (h : Sorted cmp (.node d bf l r)) (hx : cmp x d = .gt) :
    Straddles cmp x [⟨d, bf, true, l⟩] := by
  have hd : cmp d x = .lt := Std.OrientedCmp.lt_of_gt hx
  refine ⟨fun y hy => ?_, by simp [behind, Frame.behind]⟩
  obtain hy | rfl : y ∈ l.toList ∨ y = d := by simpa [before, Frame.before] using hy
  · exact Std.TransCmp.lt_trans ((sorted_node h).2.2.1 y hy) hd
  · exact hd

theorem Sorted.place {t : BalTree α} (h : Sorted cmp t) (x : α) : ∃ fs u, t = plugAll fs u ∧ Straddles cmp x fs ∧
    (u = .nil ∨ ∃ d bf l r, u = .node d bf l r ∧ cmp x d = .eq) := by
  induction t with
  | nil => exact ⟨[], .nil, rfl, ⟨by simp [before], by simp [behind]⟩, .inl rfl⟩
  | node d bf l r ihl ihr =>
    obtain ⟨hl, hr, -, -⟩ := sorted_node h
    cases hx : cmp x d with
    | eq => exact ⟨[], _, rfl, ⟨by simp [before], by simp [behind]⟩, .inr ⟨d, bf, l, r, rfl, hx⟩⟩
    | lt =>
      obtain ⟨fs, u, rfl, hfs, hu⟩ := ihl hl
      exact ⟨fs ++ [⟨d, bf, false, r⟩], u, by rw [plugAll_concat]; rfl, straddles_append.mpr ⟨hfs, straddles_left h hx⟩, hu⟩
    | gt =>
      obtain ⟨fs, u, rfl, hfs, hu⟩ := ihr hr
      exact ⟨fs ++ [⟨d, bf, true, l⟩], u, by rw [plugAll_concat]; rfl, straddles_append.mpr ⟨hfs, straddles_right h hx⟩, hu⟩

theorem Straddles.not_mem_eq (h : Straddles cmp x fs) {y : α} (hy : y ∈ before fs ∨ y ∈ behind fs) : cmp x y ≠ .eq := by
  rcases hy with hy | hy
  · rw [Std.OrientedCmp.gt_of_lt (h.1 y hy)]
    simp
  · rw [h.2 y hy]
    simp

end

/-- `t` is the balanced tree with the hole, with the leaf `x` in it. -/
structure Grown (fs : List (Frame α)) (x : α) (t : BalTree α) : Prop where
  balanced : (plugAll fs .nil).Balanced
  shape_eq : t.shape = (plugAll fs (leaf x)).shape
  le : (plugAll fs .nil).height ≤ t.height
  ge : t.height ≤ (plugAll fs .nil).height + 1

theorem Grown.build {fs : List (Frame α)} {x : α} {near far : BalTree α} (h : Grown fs x near) (side : Bool) (data : α)
    (bf : Int) (hfar : far.Balanced) (h1 : far.height ≤ near.height) (h2 : near.height ≤ far.height + 1) :
    ∃ fs, Grown fs x (build side data bf near far) := by
  obtain ⟨hb, hshape, hle, hge⟩ := h
  obtain ⟨bf', hbf'⟩ : ∃ b, b = sign side * (((plugAll fs .nil).height : Int) - far.height) := ⟨_, rfl⟩
  have hplug : ∀ u, plugAll (fs ++ [⟨data, bf', side, far⟩]) u = BalTree.build side data bf' (plugAll fs u) far := by
    intro u
    rw [plugAll_concat]
    rfl
  refine ⟨fs ++ [⟨data, bf', side, far⟩], ?_, ?_, ?_, ?_⟩
  · rw [hplug]
    refine balanced_build.mpr ⟨hb, hfar, hbf', ?_⟩
    cases side <;> simp only [sign, Bool.false_eq_true, if_false, if_true] at hbf' <;> omega
  · rw [hplug, shape_build, shape_build, hshape]
  · rw [hplug, height_build, height_build]
    omega
  · rw [hplug, height_build, height_build]
    omega

theorem Balanced.ungrow (h : t.Balanced) (hne : t ≠ .nil) : ∃ fs x, Grown fs x t := by
  induction t with
  | nil => exact absurd rfl hne
  | node d bf l r ihl ihr =>
    obtain ⟨hl, hr, hbf, h1, h2⟩ := h
    by_cases hleaf : l = .nil ∧ r = .nil
    · obtain ⟨rfl, rfl⟩ := hleaf
      exact ⟨[], d, trivial, rfl, by simp [plugAll, height], by simp [plugAll, height]⟩
    -- the subtree that is not the lower one has a deepest leaf
    rcases Nat.le_total r.height l.height with hle | hle
    · have hne : l ≠ .nil := by
        rintro rfl
        exact hleaf ⟨rfl, eq_nil_of_height (Nat.le_zero.mp hle)⟩
      obtain ⟨fs, x, hg⟩ := ihl hl hne
      obtain ⟨fs, hg⟩ := hg.build false d bf hr hle (by omega)
      exact ⟨fs, x, hg⟩
    · have hne : r ≠ .nil := by
        rintro rfl
        exact hleaf ⟨eq_nil_of_height (Nat.le_zero.mp hle), rfl⟩
      obtain ⟨fs, x, hg⟩ := ihr hr hne
      obtain ⟨fs, hg⟩ := hg.build true d bf hl hle (by omega)
      exact ⟨fs, x, hg⟩

end BalTree
end ReOpenLDAP
