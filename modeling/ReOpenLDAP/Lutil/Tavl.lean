import ReOpenLDAP.Lib.ThreadTree
import ReOpenLDAP.Lutil.Avl

/-!
# Lutil.Tavl

The threaded AVL trees of `tavl.c`. A link with `AVL_THREAD` names the node it leads to; a pointer into a tree is a zipper, as in
`Lutil.Avl`.

Where the code makes a thread a child, or a child a thread, it relies on where the thread leads to. `staleThread` is the fault if
that is another node.
-/

namespace ReOpenLDAP
namespace Lutil

open BalTree (sign)
open ThreadTree

abbrev TAvlnode := ThreadTree

inductive TFault where
  | nullPointer
  | stackOverflow
  | staleThread
deriving DecidableEq

namespace Tavl

section

variable {α : Type*} (cmp : α → α → Ordering)

/-- Where the loop of `tavl_insert` stops: at equal data, or at a link that is a thread. -/
inductive Place (α : Type*) where
  | dup (data : α)
  | free (toS aboveS : List (Frame α)) (link : Option α)

/-- One round takes the link `q` of `p`; `q` becomes `s` if it is out of balance. -/
def findPlace (data : α) : (toS aboveS : List (Frame α)) → TAvlnode α → Place α
  | toS, aboveS, .thread link => .free toS aboveS link
  | toS, aboveS, .node d bf left right =>
    match cmp data d with
    | .eq => .dup d
    | .lt =>
      let p : Frame α := ⟨d, bf, false, right⟩
      match left with
      | .thread link => .free (p :: toS) aboveS link
      | .node d' bf' l r =>
        if bf' ≠ 0 then findPlace data [] (p :: toS ++ aboveS) (.node d' bf' l r)
        else findPlace data (p :: toS) aboveS (.node d' bf' l r)
    | .gt =>
      let p : Frame α := ⟨d, bf, true, left⟩
      match right with
      | .thread link => .free (p :: toS) aboveS link
      | .node d' bf' l r =>
        if bf' ≠ 0 then findPlace data [] (p :: toS ++ aboveS) (.node d' bf' l r)
        else findPlace data (p :: toS) aboveS (.node d' bf' l r)

variable [DecidableEq α]

/-- A link of `top` becomes one of `node`, which gets below `top`. If it is a thread, it leads to `node` and becomes the child; the
link of `node` is then a thread to `top`. -/
def handOver (top node : α) : TAvlnode α → Except TFault (TAvlnode α)
  | .thread link => if link = some node then .ok (.thread (some top)) else .error .staleThread
  | .node data bf left right => .ok (.node data bf left right)

/-- `r` above `s`, of which it was the child on the side `side`. -/
def single (side : Bool) (s : α) (sbf : Int) (y : TAvlnode α) (r : View α) (rbf : Int) : Except TFault (TAvlnode α) :=
  (handOver r.data s r.far).map fun inner => build side r.data rbf r.near (build side s sbf inner y)

/-- `p` above `s` and `r`, of which it was the inner grandchild. -/
def double (side : Bool) (s : α) (sbf : Int) (y : TAvlnode α) (r : View α) (rbf : Int) (p : View α) : Except TFault (TAvlnode α) :=
  match handOver p.data r.data p.near with
  | .error f => .error f
  | .ok near =>
    (handOver p.data s p.far).map fun far =>
      build side p.data 0 (build side r.data rbf r.near near) (build side s sbf far y)

/-- The checks and balances at `s`, with the link `r` in which the new node is. -/
def balanceAt (s : Frame α) (r : TAvlnode α) : Except TFault (TAvlnode α) :=
  let a := sign s.side
  if s.bf = 0 then .ok ({ s with bf := a }.plug r)
  else if s.bf = -a then .ok ({ s with bf := 0 }.plug r)
  else if s.bf = a then
    match r.view s.side with
    | none => .error .nullPointer
    | some v =>
      if v.bf = a then single s.side s.data 0 s.other v 0
      else if v.bf = -a then
        match v.far.view s.side with
        | none => .error .nullPointer
        | some p =>
          let (sbf, rbf) := if p.bf = a then (-a, 0) else if p.bf = -a then (0, a) else (0, 0)
          double s.side s.data sbf s.other v rbf p
      -- no insertion gets here: the new node is below `r`, or is `r`
      else .ok r
  else .ok (s.plug r)

/-- From the new node up: the balance factors below `s`, and then `s`. -/
def adjust : List (Frame α) → TAvlnode α → Except TFault (TAvlnode α)
  | [], q => .ok q
  | [s], r => balanceAt s r
  | p :: ps, q => adjust ps ({ p with bf := sign p.side }.plug q)

/-- The new node in a link of `p`: it has the thread of that link, and one to `p`. -/
def newNode (toS : List (Frame α)) (link : Option α) (data : α) : TAvlnode α :=
  match toS with
  | [] => .node data 0 (.thread none) (.thread none)
  | p :: _ => build p.side data 0 (.thread link) (.thread (some p.data))

/-- `tavl_insert`: its result, and the tree. `mem` tells whether there is memory for a node. -/
def tavlInsert (fdup : α → α → Int) (mem : Bool) (root : TAvlnode α) (data : α) : Except TFault (Int × TAvlnode α) :=
  match root with
  | .thread _ => .ok (if mem then (0, newNode [] none data) else (-1, root))
  | .node d bf left right =>
    match findPlace cmp data [] [] (.node d bf left right) with
    | .dup d => .ok (fdup d data, root)
    | .free toS aboveS link =>
      if ¬ mem then .ok (-1, root)
      else
        match adjust toS (newNode toS link data) with
        | .error f => .error f
        | .ok t => .ok (0, plugAll aboveS t)

/-! ## `tavl_delete` -/

section

variable (MAX_TREE_DEPTH : Nat)

/-- `pptr[depth++] = p` -/
def push (p : Frame α) (stack : List (Frame α)) : Except TFault (List (Frame α)) :=
  if stack.length < MAX_TREE_DEPTH then .ok (p :: stack) else .error .stackOverflow

structure Found (α : Type*) where
  stack : List (Frame α)
  data : α
  bf : Int
  left : TAvlnode α
  right : TAvlnode α

omit [DecidableEq α] in
/-- The first loop of `tavl_delete`. -/
def findNode (data : α) : List (Frame α) → TAvlnode α → Except TFault (Option (Found α))
  | _, .thread _ => .ok none
  | stack, .node d bf left right =>
    match cmp data d with
    | .eq => .ok (some ⟨stack, d, bf, left, right⟩)
    | .lt =>
      match push MAX_TREE_DEPTH ⟨d, bf, false, right⟩ stack with
      | .error f => .error f
      | .ok stack => findNode data stack left
    | .gt =>
      match push MAX_TREE_DEPTH ⟨d, bf, true, left⟩ stack with
      | .error f => .error f
      | .ok stack => findNode data stack right

/-- The way to the predecessor `q`, below `depth` nodes: the nodes on it, the data of `q` and its left link. -/
def findPred (depth : Nat) : List (Frame α) → TAvlnode α → Except TFault (List (Frame α) × α × TAvlnode α)
  | _, .thread _ => .error .nullPointer
  | spine, .node d _ left (.thread _) => .ok (spine, d, left)
  | spine, .node d bf left (.node d' bf' l r) =>
    if depth + spine.length < MAX_TREE_DEPTH then
      findPred depth (⟨d, bf, true, left⟩ :: spine) (.node d' bf' l r)
    else .error .stackOverflow

/-- The last thread on the side `side` leads to `link`. -/
def setEnd (side : Bool) (link : Option α) : TAvlnode α → TAvlnode α
  | .thread _ => .thread link
  | .node data bf left right =>
    if side then .node data bf left (setEnd side link right) else .node data bf (setEnd side link left) right

/-- The stack above the node to delete once it has at most one child, and its links. `q` takes the place of a node with two, and its
balance factor; the node gets the links of `q`, where its right link is a thread to `q`. -/
def swapPred (p : Found α) : Except TFault (List (Frame α) × TAvlnode α × TAvlnode α) :=
  match p.left, p.right with
  | .node ld lbf ll lr, .node rd rbf rl rr =>
    if p.stack.length < MAX_TREE_DEPTH then
      match findPred MAX_TREE_DEPTH (p.stack.length + 1) [] (.node ld lbf ll lr) with
      | .error f => .error f
      | .ok (spine, qdata, qleft) =>
        -- successor of p points to q
        let right := setEnd false (some qdata) (.node rd rbf rl rr)
        .ok (spine ++ ⟨qdata, p.bf, false, right⟩ :: p.stack, qleft, .thread (some qdata))
    else .error .stackOverflow
  | left, right => .ok (p.stack, left, right)

/-- The last node on the side `nside`, with the thread `link` there. -/
def lastNode (nside : Bool) (link : Option α) : TAvlnode α → TAvlnode α
  | .thread l => .thread l
  | .node data bf left right =>
    if nside then
      match right with
      | .thread _ => .node data bf left (.thread link)
      | .node d b l r => lastNode nside link (.node d b l r)
    else
      match left with
      | .thread _ => .node data bf (.thread link) right
      | .node d b l r => lastNode nside link (.node d b l r)

/-- What takes the place of a node with at most one child in the link below `stack`: the child, or the thread of the node. The child
is the node where the loop over the threads ends. -/
def unlink (stack : List (Frame α)) (left right : TAvlnode α) : TAvlnode α :=
  match left, right with
  | .node d bf l r, .thread link => lastNode true link (.node d bf l r)
  | .node d bf l r, .node _ _ _ _ => lastNode true none (.node d bf l r)
  | .thread link, .node d bf l r => lastNode false link (.node d bf l r)
  | .thread before, .thread behind =>
    match stack with
    | [] => .thread none
    | p :: _ => .thread (if p.side then behind else before)

/-- One round of the last loop: the subtree `child` of `p` is lower than it was. The result is the tree that takes the
place of `p`, and whether it is lower too. -/
def shrink (p : Frame α) (child : TAvlnode α) : Except TFault (TAvlnode α × Bool) :=
  let side_bf := sign p.side
  if p.bf = 0 then .ok ({ p with bf := -side_bf }.plug child, false)
  else if p.bf = side_bf then .ok ({ p with bf := 0 }.plug child, true)
  else
    let nside := !p.side
    match p.other.view nside with
    | none => .error .nullPointer
    | some q =>
      if q.bf = 0 then (single nside p.data (-side_bf) child q side_bf).map fun t => (t, false)
      else if q.bf = p.bf then (single nside p.data 0 child q 0).map fun t => (t, true)
      else
        match q.far.view nside with
        | none => .error .nullPointer
        | some r =>
          let (qbf, pbf) := if r.bf = side_bf then (-side_bf, 0) else if r.bf = -side_bf then (0, side_bf) else (0, 0)
          (double nside p.data pbf child q qbf r).map fun t => (t, true)

/-- The last loop, `while (shorter)`. -/
def retrace : List (Frame α) → TAvlnode α → Except TFault (TAvlnode α)
  | [], t => .ok t
  | p :: stack, child =>
    match shrink p child with
    | .error f => .error f
    | .ok (t, true) => retrace stack t
    | .ok (t, false) => .ok (plugAll stack t)

/-- `tavl_delete`: the data of the node, and the tree. -/
def tavlDelete (root : TAvlnode α) (data : α) : Except TFault (Option α × TAvlnode α) :=
  match findNode cmp MAX_TREE_DEPTH data [] root with
  | .error f => .error f
  | .ok none => .ok (none, root)
  | .ok (some p) =>
    match swapPred MAX_TREE_DEPTH p with
    | .error f => .error f
    | .ok (stack, left, right) =>
      match retrace stack (unlink stack left right) with
      | .error f => .error f
      | .ok t => .ok (some p.data, t)

end

omit [DecidableEq α] in
/-- The loop of `tavl_find3`, with `prev` and the last result. -/
def find3Loop (data : α) (prev : Option α) (ret : Ordering) : TAvlnode α → Option α × Ordering
  | .thread _ => (prev, ret)
  | .node d _ left right =>
    match cmp data d with
    | .eq => (some d, .eq)
    | .lt => find3Loop data (some d) .lt left
    | .gt => find3Loop data (some d) .gt right

omit [DecidableEq α] in
/-- `tavl_find3`: the node, and `*ret`. -/
def tavlFind3 (root : TAvlnode α) (data : α) : Option α × Ordering := find3Loop cmp data none .lt root

omit [DecidableEq α] in
def tavlFind (data : α) : TAvlnode α → Option α
  | .thread _ => none
  | .node d _ left right =>
    match cmp data d with
    | .eq => some d
    | .lt => tavlFind data left
    | .gt => tavlFind data right

omit [DecidableEq α] in
def tavlEnd (root : TAvlnode α) (dir : Bool) : Option α := endOf dir root

/-- `tavl_next`, for a node of the tree. -/
def tavlNext (root : TAvlnode α) (node : Option α) (dir : Bool) : Option α := node.bind (nextOf dir root)

end

end Tavl
end Lutil
end ReOpenLDAP
