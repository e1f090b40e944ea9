import ReOpenLDAP.Lib.InPlace
import ReOpenLDAP.BackMdb.ScopeAgree

/-!
# BackMdb.IdScope

`mdb_idscope`: the aliases in scope are moved from one list to another. The list `ids` is the array behind `ids[0]`, compacted while
it is read.
-/

namespace ReOpenLDAP
namespace BackMdb

open Forest InPlace List

inductive Climb where
  | scope
  | outside
  | dropped
deriving DecidableEq

/-- `while (id)`, with `fuel` rounds at most. -/
def climb (db : Dn2id) (onelevel : Bool) (base : Nat) : Nat → Nat → Option Climb
  | 0, _ => none
  | fuel + 1, id =>
    if id = 0 then some .outside
    else
      match db.set id with
      | .error _ => some .dropped
      | .ok d => if d.lastID = base then some .scope else if onelevel then some .outside else climb db onelevel base fuel d.lastID

/-- `ids` and `res` at the end; an access outside of `ids` and a climb without end are `none`. The loop is at `cid`, has kept `ci0` IDs
and has moved `res`; `idc` is what is left. -/
def idscopeLoop (db : Dn2id) (onelevel : Bool) (base fuel : Nat) (ids : List Nat) (cid ci0 idc : Nat) (res : List Nat) :
    Option (IDL × List Nat) :=
  if _h : cid < ids.length ∧ ids[cid]? ≠ some NOID then do
    let ida ← ids[cid]?
    match ← climb db onelevel base fuel ida with
    | .scope =>
      if MDB_IDL_DB_MAX ≤ res.length then
        -- too many aliases in scope. Fallback to range
        some (.range (← ids[0]?) (← ids[ids.length - 1]?), ids)
      else idscopeLoop db onelevel base fuel ids (cid + 1) ci0 (idc - 1) (res ++ [ida])
    | .dropped => idscopeLoop db onelevel base fuel ids (cid + 1) ci0 (idc - 1) res
    | .outside => idscopeLoop db onelevel base fuel (ids.set ci0 ida) (cid + 1) (ci0 + 1) idc res
  else some (.list res, ids.take idc)
termination_by ids.length - cid
decreasing_by all_goals simp_wf; omega

/-- `mdb_idscope` for a list. -/
def mdbIdscope (db : Dn2id) (onelevel : Bool) (base fuel : Nat) (ids : List Nat) : Option (IDL × List Nat) :=
  idscopeLoop db onelevel base fuel ids 0 0 ids.length []

section

variable {db : Dn2id} {onelevel : Bool} {base fuel : Nat} {kind : Nat → Climb}

def moved (kind : Nat → Climb) (ids : List Nat) : List Nat := ids.filter fun x => kind x = .scope

def kept (kind : Nat → Climb) (ids : List Nat) : List Nat := ids.filter fun x => kind x = .outside

/-- The fallback with `rest` to come, when `front` has been kept and `res` moved: `res` is full, and one more ID is in scope. -/
def FullAt (kind : Nat → Climb) (front gap rest res : List Nat) (lo hi : Nat) : Prop :=
  ∃ pre x post, rest = pre ++ x :: post ∧ kind x = .scope ∧ res.length + (moved kind pre).length = MDB_IDL_DB_MAX ∧
    (front ++ (kept kind pre ++ (gap ++ rest))).head? = some lo ∧ rest.getLast? = some hi

theorem FullAt.cons {front gap rest res front' gap' res' : List Nat} {x lo hi : Nat} (h : FullAt kind front' gap' rest res' lo hi)
    (hmoved : ∀ pre, res'.length + (moved kind pre).length = res.length + (moved kind (x :: pre)).length)
    (hkept : ∀ pre, (front' ++ (kept kind pre ++ (gap' ++ rest))).head? =
      (front ++ (kept kind (x :: pre) ++ (gap ++ x :: rest))).head?) : FullAt kind front gap (x :: rest) res lo hi := by
  obtain ⟨pre, y, post, rfl, hy, hcount, hlo, hhi⟩ := h
  refine ⟨x :: pre, y, post, rfl, hy, (hmoved pre).symm.trans hcount, (hkept pre).symm.trans hlo, ?_⟩
  rw [List.getLast?_cons, hhi]
  rfl

/-- Either the rest fits, or the fallback is taken. -/
theorem idscopeLoop_spec {front gap rest res : List Nat} {cid idc : Nat} (hcid : cid = front.length + gap.length)
    (hidc : idc = front.length + rest.length) (hno : ∀ x ∈ rest, x < NOID)
    (hkind : ∀ x ∈ rest, climb db onelevel base fuel x = some (kind x)) (hres : res.length ≤ MDB_IDL_DB_MAX) :
    (res.length + (moved kind rest).length ≤ MDB_IDL_DB_MAX ∧
      idscopeLoop db onelevel base fuel (front ++ (gap ++ rest)) cid front.length idc res =
        some (.list (res ++ moved kind rest), front ++ kept kind rest)) ∨
    ∃ lo hi ids, FullAt kind front gap rest res lo hi ∧
      idscopeLoop db onelevel base fuel (front ++ (gap ++ rest)) cid front.length idc res = some (.range lo hi, ids) := by
  induction rest generalizing front gap res cid idc with
  | nil =>
    left
    rw [idscopeLoop, dif_neg (by simp [hcid])]
    simp [moved, kept, hidc, hres]
  | cons x rest ih =>
    have hget : (front ++ (gap ++ x :: rest))[cid]? = some x := by
      rw [hcid, ← append_assoc, ← length_append, getElem?_middle]
    have hlt : cid < (front ++ (gap ++ x :: rest)).length := by
      simp only [hcid, length_append, length_cons]
      omega
    obtain ⟨hx, hnorest⟩ := List.forall_mem_cons.mp hno
    obtain ⟨hkx, hkrest⟩ := List.forall_mem_cons.mp hkind
    rw [length_cons] at hidc
    rw [idscopeLoop, dif_pos ⟨hlt, by rw [hget]; simpa using hx.ne⟩, hget]
    simp only [Option.bind_eq_bind, Option.bind_some, hkx]
    have hgap : front ++ (gap ++ x :: rest) = front ++ ((gap ++ [x]) ++ rest) := by simp
    cases hk : kind x with
    | scope =>
      dsimp only
      have hmoved : ∀ ids, moved kind (x :: ids) = x :: moved kind ids := fun ids => by simp [moved, hk]
      have hkept : ∀ ids, kept kind (x :: ids) = kept kind ids := fun ids => by simp [kept, hk]
      by_cases hfull : MDB_IDL_DB_MAX ≤ res.length
      · right
        rw [if_pos hfull]
        have hhi : (front ++ (gap ++ x :: rest))[(front ++ (gap ++ x :: rest)).length - 1]? = (x :: rest).getLast? := by
          rw [← List.getLast?_eq_getElem?, List.getLast?_append_of_ne_nil _ (by simp), List.getLast?_append_of_ne_nil _ (by simp)]
        have hlo : (front ++ (gap ++ x :: rest))[0]? = (front ++ ([] ++ (gap ++ x :: rest))).head? := by
          rw [← List.head?_eq_getElem?, List.nil_append]
        obtain ⟨lo, hlo'⟩ : ∃ lo, (front ++ ([] ++ (gap ++ x :: rest))).head? = some lo := ⟨_, List.head?_eq_some_head (by simp)⟩
        obtain ⟨hi, hhi'⟩ : ∃ hi, (x :: rest).getLast? = some hi := ⟨_, List.getLast?_eq_some_getLast (by simp)⟩
        refine ⟨lo, hi, front ++ (gap ++ x :: rest), ⟨[], x, rest, rfl, hk, by simp [moved]; omega, hlo', hhi'⟩, ?_⟩
        rw [hlo, hlo', hhi, hhi']
        rfl
      · rw [if_neg hfull, hgap, hmoved]
        rcases @ih front (gap ++ [x]) (res ++ [x]) (cid + 1) (idc - 1) (by simp [hcid]; omega) (by omega) hnorest hkrest
          (by simp; omega) with ⟨hfit, hrun⟩ | ⟨lo, hi, ids, hat, hrun⟩
        · exact .inl ⟨by simpa [Nat.add_assoc, Nat.add_comm] using hfit, by rw [hrun, hkept]; simp⟩
        · exact .inr ⟨lo, hi, ids, hat.cons (fun pre => by simp [hmoved, Nat.add_assoc, Nat.add_comm 1])
            (fun pre => by simp [hkept]), hrun⟩
    | dropped =>
      dsimp only
      have hmoved : ∀ ids, moved kind (x :: ids) = moved kind ids := fun ids => by simp [moved, hk]
      have hkept : ∀ ids, kept kind (x :: ids) = kept kind ids := fun ids => by simp [kept, hk]
      rw [hgap, hmoved]
      rcases @ih front (gap ++ [x]) res (cid + 1) (idc - 1) (by simp [hcid]; omega) (by omega) hnorest hkrest hres with
        ⟨hfit, hrun⟩ | ⟨lo, hi, ids, hat, hrun⟩
      · exact .inl ⟨hfit, by rw [hrun, hkept]⟩
      · exact .inr ⟨lo, hi, ids, hat.cons (fun pre => by rw [hmoved]) (fun pre => by simp [hkept]), hrun⟩
    | outside =>
      dsimp only
      have hmoved : ∀ ids, moved kind (x :: ids) = moved kind ids := fun ids => by simp [moved, hk]
      have hkept : ∀ ids, kept kind (x :: ids) = x :: kept kind ids := fun ids => by simp [kept, hk]
      obtain ⟨gap', hlen, hset⟩ : ∃ gap', gap'.length = gap.length ∧
          (front ++ (gap ++ x :: rest)).set front.length x = (front ++ [x]) ++ (gap' ++ rest) := by
        refine ⟨(gap ++ [x]).tail, by simp, ?_⟩
        cases gap with
        | nil => simp
        | cons g gap => simp
      rw [hset, hmoved, hkept]
      rw [show front.length + 1 = (front ++ [x]).length by simp]
      rcases @ih (front ++ [x]) gap' res (cid + 1) idc (by simp [hcid, hlen]; omega) (by simp; omega) hnorest hkrest hres with
        ⟨hfit, hrun⟩ | ⟨lo, hi, ids, hat, hrun⟩
      · exact .inl ⟨hfit, by rw [hrun]; simp⟩
      · exact .inr ⟨lo, hi, ids, hat.cons (fun pre => by rw [hmoved]) (fun pre => by cases front <;> simp [hkept]), hrun⟩

end

/-! ## In a tree -/

def BelowBase (nodes : Nodes) (onelevel : Bool) (base x : Nat) : Prop :=
  ∃ p, nodes.parent x = some p ∧ (if onelevel then p = base else Reaches nodes.parent p base)

section

variable {s : Tables} {started : Bool} {nodes : Nodes} {onelevel : Bool} {base : Nat}

open Classical in
noncomputable def kindOf (nodes : Nodes) (onelevel : Bool) (base x : Nat) : Climb :=
  if BelowBase nodes onelevel base x then .scope else if x = 0 ∨ nodes x ≠ none then .outside else .dropped

theorem kindOf_scope {x : Nat} : kindOf nodes onelevel base x = .scope ↔ BelowBase nodes onelevel base x := by
  unfold kindOf
  split_ifs <;> simp [*]

theorem kindOf_outside {x : Nat} :
    kindOf nodes onelevel base x = .outside ↔ (x = 0 ∨ nodes x ≠ none) ∧ ¬ BelowBase nodes onelevel base x := by
  unfold kindOf
  split_ifs <;> simp_all

theorem climb_tree (h : TreeInv s started nodes) (onelevel : Bool) (base x : Nat) :
    ∃ F, ∀ fuel, F ≤ fuel → climb s.dn2id onelevel base fuel x = some (kindOf nodes onelevel base x) := by
  have hroot : ∀ p, nodes.parent 0 ≠ some p := by simp [Nodes.parent, h.rep.root]
  have hsucc : ∀ {x k F}, (∀ fuel, F ≤ fuel → climb s.dn2id onelevel base (fuel + 1) x = some k) →
      ∃ F, ∀ fuel, F ≤ fuel → climb s.dn2id onelevel base fuel x = some k := by
    intro x k F hclimb
    refine ⟨F + 1, fun fuel hfuel => ?_⟩
    obtain ⟨fuel, rfl⟩ := Nat.exists_eq_add_of_le' (Nat.one_le_of_lt hfuel)
    exact hclimb fuel (by omega)
  by_cases hx : x = 0 ∨ nodes x ≠ none
  · have hreach : Reaches nodes.parent x 0 := by
      rcases hx with rfl | hne
      · exact .refl 0
      · exact h.rooted x ((h.ids x).mpr hne)
    induction hreach using Relation.ReflTransGen.head_induction_on with
    | refl =>
      refine @hsucc _ _ 0 fun fuel _ => ?_
      have hout : kindOf nodes onelevel base 0 = .outside := kindOf_outside.mpr ⟨.inl rfl, fun hb => hb.elim fun p hp => hroot p hp.1⟩
      rw [climb, if_pos rfl, hout]
    | @head x p hp hreach ih =>
      obtain ⟨v, hv, rfl⟩ := Nodes.parent_eq_some.mp hp
      have hx0 : x ≠ 0 := h.rep.ne_zero hv
      have hpar : ∀ q, nodes.parent x = some q ↔ q = v.parent := fun q => by rw [hp, Option.some.injEq, eq_comm]
      have hstep : ∀ fuel, climb s.dn2id onelevel base (fuel + 1) x = if v.parent = base then some .scope
          else if onelevel then some .outside else climb s.dn2id onelevel base fuel v.parent := by
        intro fuel
        rw [climb, if_neg hx0, h.rep.set_own hv]
        rfl
      by_cases hbase : v.parent = base
      · have hscope : kindOf nodes onelevel base x = .scope :=
          kindOf_scope.mpr ⟨v.parent, hp, by split_ifs; exacts [hbase, hbase ▸ .refl _]⟩
        exact @hsucc _ _ 0 fun fuel _ => by rw [hstep, if_pos hbase, hscope]
      · cases onelevel with
        | true =>
          have hout : kindOf nodes true base x = .outside := by
            refine kindOf_outside.mpr ⟨.inr (by simp [hv]), ?_⟩
            rintro ⟨p, hp', hpb⟩
            apply hbase
            rw [← (hpar p).mp hp']
            simpa using hpb
          exact @hsucc _ _ 0 fun fuel _ => by rw [hstep, if_neg hbase, if_pos rfl, hout]
        | false =>
          have hparent : v.parent = 0 ∨ nodes v.parent ≠ none := by
            rcases Relation.ReflTransGen.cases_head_iff.mp hreach with hzero | ⟨q, hq, -⟩
            · exact .inl hzero
            · obtain ⟨w, hw, -⟩ := Nodes.parent_eq_some.mp hq
              exact .inr (by simp [hw])
          have hbelow : BelowBase nodes false base x ↔ BelowBase nodes false base v.parent := by
            simp only [BelowBase, hpar, exists_eq_left, Bool.false_eq_true, if_false]
            exact Relation.ReflTransGen.cases_head_iff.trans (or_iff_right hbase)
          have hsame : kindOf nodes false base x = kindOf nodes false base v.parent := by
            by_cases hb : BelowBase nodes false base x
            · rw [kindOf_scope.mpr hb, kindOf_scope.mpr (hbelow.mp hb)]
            · rw [kindOf_outside.mpr ⟨hx, hb⟩, kindOf_outside.mpr ⟨hparent, fun hp => hb (hbelow.mpr hp)⟩]
          obtain ⟨F, hF⟩ := ih hparent
          exact hsucc fun fuel hfuel => by rw [hstep, if_neg hbase, if_neg (by simp), hF fuel hfuel, hsame]
  · obtain ⟨h0, hnone⟩ := not_or.mp hx
    have hparent : ∀ p, nodes.parent x ≠ some p := by simp [Nodes.parent, not_not.mp hnone]
    have hdrop : kindOf nodes onelevel base x = .dropped := by
      unfold kindOf
      rw [if_neg fun hb => hb.elim fun p hp => hparent p hp.1, if_neg hx]
    exact @hsucc _ _ 0 fun fuel _ => by rw [climb, if_neg h0, h.set_absent (not_not.mp hnone) h0, hdrop]

/-- `res` has all IDs in scope; if they fit, no others, and `ids` has the other ones that exist. -/
def PartitionRight (nodes : Nodes) (onelevel : Bool) (base : Nat) (ids : List Nat) (res : IDL) (ids' : List Nat) : Prop :=
  (∀ x ∈ ids, BelowBase nodes onelevel base x → x ∈ res.denote) ∧
  ((moved (kindOf nodes onelevel base) ids).length ≤ MDB_IDL_DB_MAX →
    (∀ x, x ∈ res.denote ↔ x ∈ ids ∧ BelowBase nodes onelevel base x) ∧ ids' = kept (kindOf nodes onelevel base) ids)

/-- Where one ID more is in scope than `res` takes, the first one in front of it that is kept is not behind an ID in scope. -/
def KeptFirst (nodes : Nodes) (onelevel : Bool) (base : Nat) (ids : List Nat) : Prop :=
  ∀ pre x post, ids = pre ++ x :: post → BelowBase nodes onelevel base x →
    (moved (kindOf nodes onelevel base) pre).length = MDB_IDL_DB_MAX →
    ∀ k, (kept (kindOf nodes onelevel base) pre).head? = some k → ∀ y ∈ ids, BelowBase nodes onelevel base y → k ≤ y

theorem climb_list (h : TreeInv s started nodes) (onelevel : Bool) (base : Nat) (ids : List Nat) :
    ∃ F, ∀ fuel, F ≤ fuel → ∀ x ∈ ids, climb s.dn2id onelevel base fuel x = some (kindOf nodes onelevel base x) := by
  induction ids with
  | nil => exact ⟨0, by simp⟩
  | cons x ids ih =>
    obtain ⟨F, hF⟩ := climb_tree h onelevel base x
    obtain ⟨G, hG⟩ := ih
    exact ⟨max F G, fun fuel hfuel => List.forall_mem_cons.mpr ⟨hF fuel (le_of_max_le_left hfuel), hG fuel (le_of_max_le_right hfuel)⟩⟩

/-- There is one place where the list is full. -/
theorem full_unique {kind : Nat → Climb} {pre pre' post post' : List Nat} {x x' : Nat} (h : pre ++ x :: post = pre' ++ x' :: post')
    (hx : kind x = .scope) (hx' : kind x' = .scope) (hlen : (moved kind pre).length = (moved kind pre').length) : pre = pre' := by
  have hmore : ∀ {a b : List Nat} {y : Nat}, kind y = .scope → (moved kind a).length ≠ (moved kind (a ++ y :: b)).length := by
    intro a b y hy
    simp [moved, hy]
  rcases List.append_eq_append_iff.mp h with ⟨t, rfl, ht⟩ | ⟨t, rfl, ht⟩
  · cases t with
    | nil => simp
    | cons y t =>
      cases ht
      exact absurd hlen (hmore hx)
  · cases t with
    | nil => simp
    | cons y t =>
      cases ht
      exact absurd hlen.symm (hmore hx')

/-- What the runs on a list come to. -/
theorem mdbIdscope_spec (h : TreeInv s started nodes) {ids : List Nat} (hv : (IDL.list ids).Valid) (onelevel : Bool) (base : Nat) :
    ∃ F, ∀ fuel, F ≤ fuel →
      ((moved (kindOf nodes onelevel base) ids).length ≤ MDB_IDL_DB_MAX ∧ mdbIdscope s.dn2id onelevel base fuel ids =
        some (.list (moved (kindOf nodes onelevel base) ids), kept (kindOf nodes onelevel base) ids)) ∨
      ∃ lo hi ids', FullAt (kindOf nodes onelevel base) [] [] ids [] lo hi ∧
        mdbIdscope s.dn2id onelevel base fuel ids = some (.range lo hi, ids') := by
  obtain ⟨F, hF⟩ := climb_list h onelevel base ids
  refine ⟨F, fun fuel hfuel => ?_⟩
  have hrun := @idscopeLoop_spec s.dn2id onelevel base fuel (kindOf nodes onelevel base) [] [] ids [] 0 ids.length rfl
    (by simp) hv.2.1 (hF fuel hfuel) (Nat.zero_le _)
  simpa only [mdbIdscope, length_nil, Nat.zero_add, List.nil_append] using hrun

theorem moved_full {pre post : List Nat} {x : Nat} (hx : BelowBase nodes onelevel base x)
    (hlen : (moved (kindOf nodes onelevel base) pre).length = MDB_IDL_DB_MAX) :
    MDB_IDL_DB_MAX < (moved (kindOf nodes onelevel base) (pre ++ x :: post)).length := by
  simp only [moved] at hlen
  simp [moved, kindOf_scope.mpr hx]
  omega

/-- `mdb_idscope` returns, with both lists as they should be. -/
def IdscopeRight (s : Tables) (nodes : Nodes) (onelevel : Bool) (base : Nat) (ids : List Nat) : Prop :=
  ∃ F, ∀ fuel, F ≤ fuel → ∃ res ids', mdbIdscope s.dn2id onelevel base fuel ids = some (res, ids') ∧
    PartitionRight nodes onelevel base ids res ids'

theorem IdscopeRight.keptFirst (h : TreeInv s started nodes) {ids : List Nat} (hv : (IDL.list ids).Valid)
    (hright : IdscopeRight s nodes onelevel base ids) : KeptFirst nodes onelevel base ids := by
  rintro pre x post rfl hx hlen k hk y hy hys
  obtain ⟨G, hG⟩ := hright
  obtain ⟨F, hF⟩ := mdbIdscope_spec h hv onelevel base
  obtain ⟨res, ids', hrun, hcovers, -⟩ := hG (max F G) (le_max_right F G)
  rcases hF (max F G) (le_max_left F G) with ⟨hfit, -⟩ | ⟨lo, hi, ids'', hat, hrun'⟩
  · exact absurd (moved_full hx hlen) (Nat.not_lt.mpr hfit)
  · obtain ⟨pre', x', post', hids, hx', hlen', hlo, -⟩ := hat
    rw [length_nil, Nat.zero_add] at hlen'
    obtain rfl : pre = pre' := full_unique hids (kindOf_scope.mpr hx) hx' (hlen.trans hlen'.symm)
    have hres : some (res, ids') = some (.range lo hi, ids'') := hrun.symm.trans hrun'
    cases hres
    obtain rfl : k = lo := by simpa [List.head?_append, hk] using hlo
    exact (hcovers y hy hys).1

theorem idscope_right_iff (h : TreeInv s started nodes) {ids : List Nat} (hv : (IDL.list ids).Valid) (onelevel : Bool) (base : Nat) :
    IdscopeRight s nodes onelevel base ids ↔ KeptFirst nodes onelevel base ids := by
  refine ⟨IdscopeRight.keptFirst h hv, fun hfirst => ?_⟩
  obtain ⟨F, hF⟩ := mdbIdscope_spec h hv onelevel base
  refine ⟨F, fun fuel hfuel => ?_⟩
  rcases hF fuel hfuel with ⟨-, hrun⟩ | ⟨lo, hi, ids', ⟨pre, x, post, hids, hx, hlen, hlo, hhi⟩, hrun⟩
  · have hmem : ∀ x, x ∈ (IDL.list (moved (kindOf nodes onelevel base) ids)).denote ↔ x ∈ ids ∧ BelowBase nodes onelevel base x := by
      simp [moved, kindOf_scope]
    exact ⟨_, _, hrun, fun x hx hxs => (hmem x).mpr ⟨hx, hxs⟩, fun _ => ⟨hmem, rfl⟩⟩
  · rw [kindOf_scope] at hx
    rw [length_nil, Nat.zero_add] at hlen
    have hmore := hids ▸ @moved_full _ _ _ _ post _ hx hlen
    refine ⟨_, _, hrun, fun y hy hys => ⟨?_, ?_⟩, fun hfit => absurd hmore (by omega)⟩
    · rw [List.head?_append] at hlo
      cases hk : (kept (kindOf nodes onelevel base) pre).head? with
      | some k =>
        obtain rfl : k = lo := by simpa [hk] using hlo
        exact hfirst pre x post hids hx hlen k hk y hy hys
      | none =>
        obtain ⟨ids, rfl⟩ := List.head?_eq_some_iff.mp (show ids.head? = some lo by simpa [hk] using hlo)
        rcases List.mem_cons.mp hy with rfl | hy
        · exact le_refl _
        · exact ((DupSort.sortedBy_cons.mp hv.1).1 y hy).le
    · have hle := hv.1.le_getLast (ne_nil_of_mem hy) hy
      rwa [List.getLast_eq_iff_getLast?_eq_some (ne_nil_of_mem hy) |>.mpr hhi] at hle

end

theorem idscope_right_small : ∃ (s : Tables) (nodes : Nodes), s.id2entry = [1, 2, 3, 4, 5, 6, 7] ∧
    IdscopeRight s nodes false 4 [1, 3, 6] := by
  obtain ⟨s, hs, hset, -⟩ := @exists_crowded 3 (le_refl 3) (by decide)
  refine ⟨s, _, hs, (idscope_right_iff hset.tree ⟨by simp [DupSort.SortedBy], by decide, by decide⟩ false 4).mpr ?_⟩
  intro pre x post hids _ hlen
  have hshort := congrArg List.length hids
  have hle := hlen.symm.trans_le (length_filter_le _ pre)
  have hmax : MDB_IDL_DB_MAX = 65535 := rfl
  simp only [length_cons, length_nil, length_append] at hshort
  omega

/-- All children of the base and one entry before the last of them: the range starts with this entry. -/
theorem idscope_range_short : ∃ (s : Tables) (nodes : Nodes), TreeInv s true nodes ∧ (IDL.list (List.range' 2 65537)).Valid ∧
    ¬ IdscopeRight s nodes true 1 (List.range' 2 65537) := by
  obtain ⟨M, hM⟩ : ∃ M, M = 65537 := ⟨_, rfl⟩
  obtain ⟨s, hs, hset, -⟩ := @exists_crowded M (by omega) (by rw [hM]; decide)
  have hv : (IDL.list (List.range' 2 M)).Valid := by
    refine ⟨pairwise_lt_range', ?_, by rw [length_range', hM]; decide⟩
    intro x hx
    rw [mem_range'_1] at hx
    unfold NOID
    omega
  rw [← hM]
  refine ⟨s, _, hset.tree, hv, fun hright => ?_⟩
  have hbelow : ∀ x, BelowBase (nodesOf (crowded M) decimal s.id2entry.toFinset) true 1 x ↔ crowded M x = some 1 := by
    simp [BelowBase, nodesOf_parent]
  have hchild : ∀ x ∈ List.range' 2 65535, crowded M x = some 1 := by
    intro x hx
    rw [mem_range'_1] at hx
    simp [crowded, show x ≠ 0 ∧ x ≠ 1 ∧ x < M ∧ x ≤ 2 * M + 1 by omega]
  have hM1 : crowded M (M + 1) = some 1 := by
    simp [crowded, show M ≠ 0 by omega]
    omega
  have hMM : crowded M M ≠ some 1 := by
    simp [crowded, show M ≠ 0 ∧ M ≠ 1 ∧ M ≤ 2 * M + 1 by omega]
  have hsplit : List.range' 2 M = (List.range' 2 65535 ++ [M]) ++ (M + 1) :: [] := by
    rw [hM, append_assoc]
    exact (@List.range'_append_1 2 65535 2).symm
  have hscope : ∀ x ∈ List.range' 2 65535, kindOf (nodesOf (crowded M) decimal s.id2entry.toFinset) true 1 x = .scope :=
    fun x hx => kindOf_scope.mpr ((hbelow x).mpr (hchild x hx))
  have hout : kindOf (nodesOf (crowded M) decimal s.id2entry.toFinset) true 1 M = .outside := by
    refine kindOf_outside.mpr ⟨.inr ((hset.tree.ids M).mp ?_), fun hb => hMM ((hbelow M).mp hb)⟩
    rw [hs, mem_range'_1]
    omega
  have hmoved : moved (kindOf (nodesOf (crowded M) decimal s.id2entry.toFinset) true 1) (List.range' 2 65535 ++ [M]) = List.range' 2 65535 := by
    rw [moved, filter_append, List.filter_eq_self.mpr (by simpa using hscope)]
    simp [hout]
  have hkept : kept (kindOf (nodesOf (crowded M) decimal s.id2entry.toFinset) true 1) (List.range' 2 65535 ++ [M]) = [M] := by
    rw [kept, filter_append, List.filter_eq_nil_iff.mpr fun x hx => by simp [hscope x hx]]
    simp [hout]
  have hle := hright.keptFirst hset.tree hv _ _ _ hsplit ((hbelow _).mpr hM1) (by rw [hmoved, length_range']; rfl) M
    (by rw [hkept]; rfl) 2 (by rw [mem_range'_1]; omega) ((hbelow 2).mpr (hchild 2 (by rw [mem_range'_1]; omega)))
  omega

end BackMdb
end ReOpenLDAP
