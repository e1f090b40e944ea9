import ReOpenLDAP.Lib.BalTree

/-!
# Lib.ThreadTree

Binary trees whose missing subtrees are threads: links to the neighbours in order.
-/

namespace ReOpenLDAP

open List

inductive ThreadTree (α : Type*) where
  | thread (link : Option α)
  | node (data : α) (bf : Int) (left right : ThreadTree α)
deriving DecidableEq

namespace ThreadTree

variable {α : Type*}

def build (side : Bool) (data : α) (bf : Int) (near far : ThreadTree α) : ThreadTree α :=
  if side then .node data bf far near else .node data bf near far

structure View (α : Type*) where
  data : α
  bf : Int
  near : ThreadTree α
  far : ThreadTree α

def view (side : Bool) : ThreadTree α → Option (View α)
  | thread _ => none
  | node data bf left right => some (if side then ⟨data, bf, right, left⟩ else ⟨data, bf, left, right⟩)

def toList : ThreadTree α → List α
  | thread _ => []
  | node data _ left right => left.toList ++ data :: right.toList

def erase : ThreadTree α → BalTree α
  | thread _ => .nil
  | node data bf left right => .node data bf left.erase right.erase

/-- A node without its link on the side `side`. -/
structure Frame (α : Type*) where
  data : α
  bf : Int
  side : Bool
  other : ThreadTree α

def Frame.plug (f : Frame α) (t : ThreadTree α) : ThreadTree α := build f.side f.data f.bf t f.other

def plugAll : List (Frame α) → ThreadTree α → ThreadTree α
  | [], t => t
  | f :: fs, t => plugAll fs (f.plug t)

abbrev Gap (α : Type*) := Option α × Option α

/-- The thread of a link on the side `side`. -/
def Gap.link (gap : Gap α) (side : Bool) : Option α := if side then gap.2 else gap.1

def Gap.at (gap : Gap α) (side : Bool) (data : α) : Gap α := if side then (some data, gap.2) else (gap.1, some data)

/-- A tree in a gap, at a link on the side `side`, with its threads. -/
def weave (side : Bool) (gap : Gap α) : BalTree α → ThreadTree α
  | .nil => thread (gap.link side)
  | .node data bf left right => node data bf (weave false (gap.at false data) left) (weave true (gap.at true data) right)

def weaveFrame (gap : Gap α) (f : BalTree.Frame α) : Frame α :=
  ⟨f.data, f.bf, f.side, weave (!f.side) (gap.at (!f.side) f.data) f.other⟩

def holeGap (gap : Gap α) : List (BalTree.Frame α) → Gap α
  | [] => gap
  | f :: fs => (holeGap gap fs).at f.side f.data

def holeSide (side : Bool) : List (BalTree.Frame α) → Bool
  | [] => side
  | f :: _ => f.side

def weaveAll (gap : Gap α) : List (BalTree.Frame α) → List (Frame α)
  | [] => []
  | f :: fs => weaveFrame (holeGap gap fs) f :: weaveAll gap fs

section

variable (gap : Gap α) (side : Bool) (x y : α)

@[simp] theorem Gap.link_at_same : (gap.at side x).link side = gap.link side := by cases side <;> rfl

@[simp] theorem Gap.link_at_not : (gap.at side x).link (!side) = some x := by cases side <;> rfl

@[simp] theorem Gap.link_not_at : (gap.at (!side) x).link side = some x := by cases side <;> rfl

@[simp] theorem Gap.at_at_same : (gap.at side x).at side y = gap.at side y := by cases side <;> rfl

theorem Gap.at_comm : (gap.at side x).at (!side) y = (gap.at (!side) y).at side x := by cases side <;> rfl

end

section

variable {side side' : Bool} {gap : Gap α} {data : α} {bf : Int} {near far : BalTree α}

theorem weave_side {t : BalTree α} (ht : t ≠ .nil) : weave side gap t = weave side' gap t := by
  cases t with
  | nil => exact absurd rfl ht
  | node data bf left right => rfl

theorem weave_build (s : Bool) : weave side gap (BalTree.build s data bf near far) =
    build s data bf (weave s (gap.at s data) near) (weave (!s) (gap.at (!s) data) far) := by
  cases s <;> rfl

def weaveView (side : Bool) (gap : Gap α) (v : BalTree.View α) : View α :=
  ⟨v.data, v.bf, weave side (gap.at side v.data) v.near, weave (!side) (gap.at (!side) v.data) v.far⟩

@[simp] theorem weaveView_data (v : BalTree.View α) : (weaveView side gap v).data = v.data := rfl

@[simp] theorem weaveView_bf (v : BalTree.View α) : (weaveView side gap v).bf = v.bf := rfl

@[simp] theorem weaveView_far (v : BalTree.View α) : (weaveView side gap v).far = weave (!side) (gap.at (!side) v.data) v.far := rfl

theorem view_weave (s : Bool) (t : BalTree α) : (weave side gap t).view s = (t.view s).map (weaveView s gap) := by
  cases t with
  | nil => rfl
  | node data bf left right => cases s <;> rfl

theorem plug_weaveFrame (f : BalTree.Frame α) (t : BalTree α) :
    (weaveFrame gap f).plug (weave f.side (gap.at f.side f.data) t) = weave side gap (f.plug t) := by
  rw [BalTree.Frame.plug, weave_build]
  rfl

theorem erase_weave (t : BalTree α) : (weave side gap t).erase = t := by
  induction t generalizing side gap with
  | nil => rfl
  | node data bf left right ihl ihr => rw [weave, erase, ihl, ihr]

theorem holeGap_append (fs gs : List (BalTree.Frame α)) : holeGap gap (fs ++ gs) = holeGap (holeGap gap gs) fs := by
  induction fs with
  | nil => rfl
  | cons f fs ih => rw [cons_append, holeGap, holeGap, ih]

theorem weaveAll_append (fs gs : List (BalTree.Frame α)) :
    weaveAll gap (fs ++ gs) = weaveAll (holeGap gap gs) fs ++ weaveAll gap gs := by
  induction fs with
  | nil => rfl
  | cons f fs ih => rw [cons_append, weaveAll, weaveAll, ih, holeGap_append, cons_append]

@[simp] theorem length_weaveAll (fs : List (BalTree.Frame α)) : (weaveAll gap fs).length = fs.length := by
  induction fs with
  | nil => rfl
  | cons f fs ih => rw [weaveAll, length_cons, length_cons, ih]

theorem plugAll_weaveAll (fs : List (BalTree.Frame α)) (t : BalTree α) :
    plugAll (weaveAll gap fs) (weave (holeSide side fs) (holeGap gap fs) t) = weave side gap (BalTree.plugAll fs t) := by
  induction fs generalizing t with
  | nil => rfl
  | cons f fs ih =>
    rw [weaveAll, plugAll, BalTree.plugAll, ← ih]
    congr 1
    exact plug_weaveFrame f t

theorem holeGap_before (fs : List (BalTree.Frame α)) :
    holeGap (none, none) fs = ((BalTree.before fs).getLast?, (BalTree.behind fs).head?) := by
  induction fs with
  | nil => rfl
  | cons f fs ih =>
    rw [holeGap, ih, BalTree.before, BalTree.behind]
    cases hs : f.side <;> simp [Gap.at, BalTree.Frame.before, BalTree.Frame.behind, hs]

end

/-! ## Exact threads -/

def Frame.erase (f : Frame α) : BalTree.Frame α := ⟨f.data, f.bf, f.side, f.other.erase⟩

def around (fs : List (Frame α)) : List α × List α := (BalTree.before (fs.map Frame.erase), BalTree.behind (fs.map Frame.erase))

/-- Each thread leads to the neighbour in order on its side, or nowhere at an end. -/
def Exact (root : ThreadTree α) : Prop :=
  ∀ (fs : List (Frame α)) (data : α) (bf : Int) (left right : ThreadTree α), root = plugAll fs (.node data bf left right) →
    (∀ link, left = thread link → link = (around fs).1.getLast?) ∧ ∀ link, right = thread link → link = (around fs).2.head?

theorem plugAll_concat (fs : List (Frame α)) (f : Frame α) (t : ThreadTree α) : plugAll (fs ++ [f]) t = f.plug (plugAll fs t) := by
  induction fs generalizing t with
  | nil => rfl
  | cons g fs ih => exact ih (g.plug t)

theorem weave_eq_build {side s : Bool} {gap : Gap α} {t : BalTree α} {data : α} {bf : Int} {near far : ThreadTree α}
    (h : weave side gap t = build s data bf near far) : ∃ t', near = weave s (gap.at s data) t' := by
  cases t with
  | nil => cases s <;> cases h
  | node d b l r =>
    cases s
    · obtain ⟨rfl, -, rfl, -⟩ := node.inj h
      exact ⟨l, rfl⟩
    · obtain ⟨rfl, -, -, rfl⟩ := node.inj h
      exact ⟨r, rfl⟩

theorem weave_eq_thread {side : Bool} {gap : Gap α} {t : BalTree α} {link : Option α} (h : weave side gap t = thread link) :
    link = gap.link side := by
  cases t with
  | nil => exact (thread.inj h).symm
  | node d b l r => cases h

theorem weave_eq_plugAll {side : Bool} {gap : Gap α} {t : BalTree α} {fs : List (Frame α)} {u : ThreadTree α}
    (h : weave side gap t = plugAll fs u) :
    ∃ t', u = weave (holeSide side (fs.map Frame.erase)) (holeGap gap (fs.map Frame.erase)) t' := by
  induction fs using List.reverseRecOn generalizing side gap t with
  | nil => exact ⟨t, h.symm⟩
  | append_singleton fs f ih =>
    rw [plugAll_concat] at h
    obtain ⟨t', ht'⟩ := weave_eq_build h
    obtain ⟨u', hu'⟩ := ih ht'.symm
    refine ⟨u', ?_⟩
    rw [hu', map_append, holeGap_append]
    cases fs <;> rfl

theorem exact_weave (side : Bool) (t : BalTree α) : Exact (weave side (none, none) t) := by
  intro fs data bf left right h
  obtain ⟨t', ht'⟩ := weave_eq_plugAll h
  rw [holeGap_before] at ht'
  cases t' with
  | nil => cases ht'
  | node d b l r =>
    obtain ⟨rfl, -, rfl, rfl⟩ := node.inj ht'
    exact ⟨fun link hl => weave_eq_thread hl, fun link hr => weave_eq_thread hr⟩

/-- The last node on the side `dir`. -/
def endOf (dir : Bool) : ThreadTree α → Option α
  | thread _ => none
  | node data _ left right =>
    match if dir then endOf dir right else endOf dir left with
    | none => some data
    | some y => some y

def follow (dir : Bool) : ThreadTree α → Option α
  | thread link => link
  | node data bf left right => endOf (!dir) (node data bf left right)

section

variable {side : Bool} {gap : Gap α} {t : BalTree α}

theorem endOf_weave (dir : Bool) (t : BalTree α) :
    endOf dir (weave side gap t) = if dir then t.toList.getLast? else t.toList.head? := by
  induction t generalizing side gap with
  | nil => cases dir <;> rfl
  | node data bf left right ihl ihr =>
    cases dir
    · rw [weave, endOf, if_neg (by simp), ihl, if_neg (by simp), if_neg (by simp), BalTree.toList, List.head?_append]
      cases left.toList.head? <;> rfl
    · rw [weave, endOf, if_pos rfl, ihr, if_pos rfl, if_pos rfl, BalTree.toList, List.getLast?_append, List.getLast?_cons]
      cases right.toList.getLast? <;> rfl

theorem follow_weave (dir : Bool) (t : BalTree α) :
    follow dir (weave dir gap t) = if dir then t.toList.head?.or gap.2 else t.toList.getLast?.or gap.1 := by
  cases t with
  | nil => cases dir <;> rfl
  | node data bf left right =>
    have hend := @endOf_weave _ dir gap (!dir) (.node data bf left right)
    have hfollow : follow dir (weave dir gap (.node data bf left right)) = endOf (!dir) (weave dir gap (.node data bf left right)) := rfl
    rw [hfollow, hend]
    cases dir <;> simp [BalTree.toList, List.getLast?_append, List.getLast?_cons, List.head?_append]

end

theorem append_cons_cases {l r pre post : List α} {d x : α} (h : l ++ d :: r = pre ++ x :: post) :
    (d = x ∧ l = pre ∧ r = post) ∨ (∃ mid, l = pre ++ x :: mid ∧ post = mid ++ d :: r) ∨
      ∃ mid, r = mid ++ x :: post ∧ pre = l ++ d :: mid := by
  rcases List.append_eq_append_iff.mp h with ⟨mid, rfl, hmid⟩ | ⟨mid, rfl, hmid⟩
  · cases mid with
    | nil =>
      obtain ⟨rfl, rfl⟩ := List.cons.inj hmid
      exact .inl ⟨rfl, (List.append_nil l).symm, rfl⟩
    | cons y mid =>
      obtain ⟨rfl, rfl⟩ := List.cons.inj hmid
      exact .inr (.inr ⟨mid, rfl, rfl⟩)
  · cases mid with
    | nil =>
      obtain ⟨rfl, rfl⟩ := List.cons.inj hmid
      exact .inl ⟨rfl, List.append_nil pre, rfl⟩
    | cons y mid =>
      obtain ⟨rfl, rfl⟩ := List.cons.inj hmid
      exact .inr (.inl ⟨mid, rfl, rfl⟩)

variable [DecidableEq α]

def linksOf (x : α) : ThreadTree α → Option (ThreadTree α × ThreadTree α)
  | thread _ => none
  | node data _ left right => if data = x then some (left, right) else (linksOf x left).or (linksOf x right)

/-- The neighbour of a node on the side `dir`, as its link says. -/
def nextOf (dir : Bool) (root : ThreadTree α) (x : α) : Option α :=
  (linksOf x root).bind fun links => follow dir (if dir then links.2 else links.1)

section

variable {side : Bool} {gap : Gap α} {t : BalTree α}

theorem linksOf_absent {x : α} (h : x ∉ t.toList) : linksOf x (weave side gap t) = none := by
  induction t generalizing side gap with
  | nil => rfl
  | node data bf left right ihl ihr =>
    simp only [BalTree.toList, mem_append, mem_cons, not_or] at h
    obtain ⟨hl, hd, hr⟩ := h
    rw [weave, linksOf, if_neg (Ne.symm hd), ihl hl, ihr hr]
    rfl

theorem linksOf_weave {x : α} {pre post : List α} (hnodup : t.toList.Nodup) (h : t.toList = pre ++ x :: post) :
    ∃ links, linksOf x (weave side gap t) = some links ∧ follow false links.1 = pre.getLast?.or gap.1 ∧
      follow true links.2 = post.head?.or gap.2 := by
  induction t generalizing side gap pre post with
  | nil => simp at h
  | node data bf left right ihl ihr =>
    rw [BalTree.toList] at hnodup h
    obtain ⟨hl, hdr, hdisj⟩ := List.nodup_append.mp hnodup
    obtain ⟨hd, hr⟩ := List.nodup_cons.mp hdr
    rcases append_cons_cases h with ⟨rfl, rfl, rfl⟩ | ⟨mid, hleft, rfl⟩ | ⟨mid, hright, rfl⟩
    · refine ⟨_, if_pos rfl, ?_, ?_⟩
      · rw [follow_weave]
        rfl
      · rw [follow_weave]
        rfl
    · have hx : x ∈ left.toList := by simp [hleft]
      have hne : data ≠ x := fun heq => hdisj x hx data (by simp) heq.symm
      obtain ⟨links, hlinks, hpre, hpost⟩ := @ihl false (gap.at false data) _ _ hl hleft
      refine ⟨links, ?_, hpre, ?_⟩
      · rw [weave, linksOf, if_neg hne, hlinks]
        rfl
      · rw [hpost]
        cases mid <;> rfl
    · have hx : x ∈ right.toList := by simp [hright]
      have hne : data ≠ x := by
        rintro rfl
        exact hd hx
      have hleft : x ∉ left.toList := fun hl => hdisj x hl x (by simp [hx]) rfl
      obtain ⟨links, hlinks, hpre, hpost⟩ := @ihr true (gap.at true data) _ _ hr hright
      refine ⟨links, ?_, ?_, hpost⟩
      · rw [weave, linksOf, if_neg hne, linksOf_absent hleft, hlinks]
        rfl
      · rw [hpre]
        simp [Gap.at, List.getLast?_append, List.getLast?_cons]

theorem nextOf_weave {x : α} {pre post : List α} (hnodup : t.toList.Nodup) (h : t.toList = pre ++ x :: post) (dir : Bool) :
    nextOf dir (weave side gap t) x = if dir then post.head?.or gap.2 else pre.getLast?.or gap.1 := by
  obtain ⟨links, hlinks, hpre, hpost⟩ := @linksOf_weave _ _ side gap _ _ _ _ hnodup h
  rw [nextOf, hlinks]
  cases dir
  · exact hpre
  · exact hpost

end

/-- The nodes in order, from the end on the side `!dir`. -/
def inOrder (dir : Bool) (t : BalTree α) : List α := if dir then t.toList else t.toList.reverse

theorem walk_weave {t : BalTree α} (hnodup : t.toList.Nodup) (side dir : Bool) (i : Nat) :
    (fun x => x.bind (nextOf dir (weave side (none, none) t)))^[i] (endOf (!dir) (weave side (none, none) t)) =
      (inOrder dir t)[i]? := by
  induction i with
  | zero =>
    rw [Function.iterate_zero, id, endOf_weave, inOrder]
    cases dir <;> simp [← List.head?_eq_getElem?]
  | succ i ih =>
    rw [Function.iterate_succ_apply', ih]
    cases hget : (inOrder dir t)[i]? with
    | none =>
      have hlen := List.getElem?_eq_none_iff.mp hget
      rw [List.getElem?_eq_none (by omega)]
      rfl
    | some x =>
      obtain ⟨hi, hx⟩ := List.getElem?_eq_some_iff.mp hget
      have hsplit : inOrder dir t = (inOrder dir t).take i ++ x :: (inOrder dir t).drop (i + 1) := by
        rw [← hx, cons_getElem_drop_succ, take_append_drop]
      have hhead : (inOrder dir t)[i + 1]? = ((inOrder dir t).drop (i + 1)).head? := by
        rw [List.head?_drop]
      rw [hhead, Option.bind_some]
      generalize (inOrder dir t).take i = pre at hsplit
      generalize (inOrder dir t).drop (i + 1) = post at hsplit ⊢
      cases dir
      · have hlist : t.toList = post.reverse ++ x :: pre.reverse := by
          have := congrArg List.reverse hsplit
          simpa [inOrder] using this
        rw [nextOf_weave hnodup hlist]
        simp
      · rw [nextOf_weave hnodup hsplit]
        simp

end ThreadTree
end ReOpenLDAP
