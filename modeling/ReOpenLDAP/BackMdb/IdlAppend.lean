import Mathlib.Order.CompletePartialOrder
import ReOpenLDAP.BackMdb.IdlSets

/-!
# BackMdb.IdlAppend

`mdb_idl_append_one` and `mdb_idl_append`, which collect IDs in no order but for the first and the last one.
-/

namespace ReOpenLDAP
namespace BackMdb

open List

/-- The exchange of `id` with the first ID, which is to stay the least one. -/
def swapFirst (ids : List Nat) (id : Nat) : List Nat × Nat :=
  if ids ≠ [] ∧ id < ids.headD 0 then (ids.set 0 id, ids.headD 0) else (ids, id)

def swapLast (ids : List Nat) (id : Nat) : List Nat × Nat :=
  if 1 < ids.length ∧ id < ids.getLastD 0 then (ids.set (ids.length - 1) id, ids.getLastD 0) else (ids, id)

/-- `mdb_idl_append_one`: its result, and the list. -/
def mdbIdlAppendOne (ids : IDL) (id : Nat) : Int × IDL :=
  match ids with
  | .range lo hi =>
    -- if already in range, treat as a dup
    if lo ≤ id ∧ id ≤ hi then (-1, .range lo hi)
    else if id < lo then (0, .range id hi)
    else (0, .range lo id)
  | .list ids =>
    let (ids, id) := swapFirst ids id
    let (ids, id) := swapLast ids id
    if MDB_IDL_UM_MAX ≤ ids.length + 1 then (0, .range (ids.headD 0) id) else (0, .list (ids ++ [id]))

/-- The last IDs of both arrays change places where `a` has the greater one. `b` is to get `swap` back. -/
def exchangeLast (as bs : List Nat) : List Nat × List Nat × Nat :=
  let ida := as.getLastD 0
  let idb := bs.getLastD 0
  if 1 < bs.length ∧ idb < ida then (as.set (as.length - 1) idb, bs.set (bs.length - 1) ida, idb) else (as, bs, 0)

/-- The last part of `mdb_idl_append`: both arrays. -/
def appendLists (as bs : List Nat) : List Nat × List Nat :=
  let (as, bs, swap) := exchangeLast as bs
  let (as, tmp) := swapFirst as (bs.headD 0)
  (as ++ tmp :: bs.tail, if swap ≠ 0 then bs.set (bs.length - 1) swap else bs)

/-- `mdb_idl_append`: `a`, and `b` as it is left. -/
def mdbIdlAppend (a b : IDL) : IDL × IDL :=
  if b.isZero then (a, b)
  else if a.isZero then (b, b)
  else
    let hull := IDL.range (min a.first b.first) (max a.last b.last)
    match a, b with
    | .list as, .list bs =>
      if MDB_IDL_UM_MAX ≤ as.length + bs.length then (hull, b)
      else (.list (appendLists as bs).1, .list (appendLists as bs).2)
    | _, _ => (hull, b)

/-- The first ID is the least one, and the last ID the greatest. -/
def Ends (ids : List Nat) : Prop := ∀ x ∈ ids, ids.headD 0 ≤ x ∧ x ≤ ids.getLastD 0

/-- A list of exactly these IDs, or the range between the outermost ones. -/
def Holds (S : Set Nat) : IDL → Prop
  | .list ids => ids.Nodup ∧ {x | x ∈ ids} = S ∧ Ends ids
  | .range lo hi => IsLeast S lo ∧ IsGreatest S hi

inductive Append where
  | one (id : Nat)
  | idl (b : IDL)

namespace Append

def ids : Append → Set Nat
  | one id => {id}
  | idl b => b.denote

def Ok : Append → Prop
  | one _ => True
  | idl b => b.Valid

def step (a : IDL) : Append → IDL
  | one id => (mdbIdlAppendOne a id).2
  | idl b => (mdbIdlAppend a b).1

/-- `b` has one ID, and it is below the last one of several. -/
def Shadows (a : IDL) : Append → Prop
  | idl (.list [id]) => ∃ as, a = .list as ∧ 1 < as.length ∧ id < as.getLastD 0 ∧ as.length + 1 < MDB_IDL_UM_MAX
  | _ => False

def run (a : IDL) (ops : List Append) : IDL := ops.foldl step a

def NoneShadows : IDL → List Append → Prop
  | _, [] => True
  | a, op :: ops => ¬ op.Shadows a ∧ NoneShadows (step a op) ops

def total (ops : List Append) : Set Nat := {x | ∃ op ∈ ops, x ∈ op.ids}

end Append

variable {S T : Set Nat} {as bs rs : List Nat} {id : Nat} {a b : IDL}

theorem Holds.ends (h : Holds S a) (hz : a.isZero = false) : IsLeast S a.first ∧ IsGreatest S a.last := by
  cases a with
  | range lo hi => exact h
  | list ids =>
    cases ids with
    | nil => cases hz
    | cons x xs =>
      obtain ⟨-, rfl, hends⟩ := h
      have hlast : (x :: xs).getLastD 0 ∈ x :: xs := by
        rw [getLastD_cons]
        exact getLastD_mem_cons
      exact ⟨⟨mem_cons_self, fun y hy => (hends y hy).1⟩, hlast, fun y hy => (hends y hy).2⟩

theorem holds_of_perm (ha : Holds S (.list as)) (hb : Holds T (.list bs)) (hdis : Disjoint S T)
    (hperm : rs.Perm (as ++ bs)) (hends : Ends rs) : Holds (S ∪ T) (.list rs) := by
  obtain ⟨hna, rfl, -⟩ := ha
  obtain ⟨hnb, rfl, -⟩ := hb
  refine ⟨hperm.nodup_iff.mpr (hna.append hnb fun x hxa hxb => ?_), Set.ext fun x => ?_, hends⟩
  · exact Set.disjoint_left.mp hdis hxa hxb
  · exact hperm.mem_iff.trans List.mem_append

theorem holds_of_valid (hv : b.Valid) : Holds b.denote b := by
  cases b with
  | range lo hi => exact ⟨isLeast_Icc hv.1, isGreatest_Icc hv.1⟩
  | list bs => exact ⟨hv.1.imp fun h => h.ne, rfl, fun x hx => IDL.bounds hv hx⟩

/-! ## Appending -/

theorem swapFirst_cons (x : Nat) (xs : List Nat) (id : Nat) : swapFirst (x :: xs) id = (min x id :: xs, max x id) := by
  unfold swapFirst
  split_ifs with h
  · have hle : id ≤ x := h.2.le
    rw [min_eq_right hle, max_eq_left hle]
    rfl
  · have hle : x ≤ id := by simpa using h
    rw [min_eq_left hle, max_eq_right hle]

theorem last_inner (x y : Nat) (m : List Nat) : (x :: (m ++ [y])).getLastD 0 = y := by
  rw [getLastD_cons, getLastD_concat]

theorem set_last (x y z : Nat) (m : List Nat) :
    (x :: (m ++ [y])).set ((x :: (m ++ [y])).length - 1) z = x :: (m ++ [z]) := by simp

theorem swapLast_inner (x y : Nat) (m : List Nat) (id : Nat) :
    swapLast (x :: (m ++ [y])) id = (x :: (m ++ [min id y]), max id y) := by
  unfold swapLast
  split_ifs with h
  · rw [last_inner] at h
    rw [last_inner, set_last, min_eq_left h.2.le, max_eq_right h.2.le]
  · have hle : y ≤ id := by
      rw [last_inner] at h
      exact not_lt.mp fun hlt => h ⟨by simp, hlt⟩
    rw [min_eq_right hle, max_eq_left hle]

theorem ends_inner {x y : Nat} {m : List Nat} :
    Ends (x :: (m ++ [y])) ↔ x ≤ y ∧ ∀ z ∈ m, x ≤ z ∧ z ≤ y := by
  simp only [Ends, last_inner, headD_cons, mem_cons, List.mem_append, not_mem_nil, or_false]
  constructor
  · intro h
    exact ⟨(h y (.inr (.inr rfl))).1, fun z hz => h z (.inr (.inl hz))⟩
  · rintro ⟨hxy, h⟩ z (rfl | hz | rfl)
    · exact ⟨le_rfl, hxy⟩
    · exact h z hz
    · exact ⟨hxy, le_rfl⟩

theorem shape_cases (ids : List Nat) : ids = [] ∨ (∃ x, ids = [x]) ∨ ∃ x m y, ids = x :: (m ++ [y]) := by
  rcases ids with - | ⟨x, xs⟩
  · exact .inl rfl
  · rcases List.eq_nil_or_concat' xs with rfl | ⟨m, y, rfl⟩
    · exact .inr (.inl ⟨x, rfl⟩)
    · exact .inr (.inr ⟨x, m, y, rfl⟩)

/-- `u` and `v` are `x` and `y`, the smaller one first. -/
theorem perm_min_max (x y : Nat) : [min x y, max x y].Perm [x, y] := by
  rcases le_total x y with h | h
  · rw [min_eq_left h, max_eq_right h]
  · rw [min_eq_right h, max_eq_left h]
    exact .swap _ _ _

theorem appendOne_list (h : Ends as) : ∃ rs, rs.Perm (as ++ [id]) ∧ Ends rs ∧ (mdbIdlAppendOne (.list as) id).2 =
    if MDB_IDL_UM_MAX ≤ rs.length then .range (rs.headD 0) (rs.getLastD 0) else .list rs := by
  rcases shape_cases as with rfl | ⟨x, rfl⟩ | ⟨x, m, y, rfl⟩
  · exact ⟨[id], .rfl, by simp [Ends], rfl⟩
  · refine ⟨[min x id, max x id], perm_min_max x id, ends_inner (m := []).mpr ⟨min_le_max, fun _ h => nomatch h⟩, ?_⟩
    simp only [mdbIdlAppendOne, swapFirst_cons]
    rfl
  · obtain ⟨hxy, hm⟩ := ends_inner.mp h
    refine ⟨min x id :: (m ++ [min (max x id) y] ++ [max (max x id) y]), ?_, ends_inner.mpr ⟨by omega, ?_⟩, ?_⟩
    · refine perm_iff_count.mpr fun w => ?_
      have h1 := (perm_min_max (max x id) y).count_eq w
      have h2 := (perm_min_max x id).count_eq w
      simp only [count_cons, count_append, count_nil, cons_append] at h1 h2 ⊢
      omega
    · intro z hz
      rcases List.mem_append.mp hz with hz | hz
      · have := hm z hz
        omega
      · obtain rfl := List.mem_singleton.mp hz
        omega
    · simp only [mdbIdlAppendOne, swapFirst_cons, swapLast_inner, headD_cons, cons_append, last_inner, length_cons,
        length_append, apply_ite Prod.snd]
      rfl

theorem exchangeLast_single (w : Nat) : exchangeLast as [w] = (as, [w], 0) := rfl

theorem exchangeLast_inner (hne : as ≠ []) (w z : Nat) (n : List Nat) : exchangeLast as (w :: (n ++ [z])) =
    (as.set (as.length - 1) (min (as.getLastD 0) z), w :: (n ++ [max (as.getLastD 0) z]),
      if z < as.getLastD 0 then z else 0) := by
  have hself : as.set (as.length - 1) (as.getLastD 0) = as := by
    rcases shape_cases as with rfl | ⟨x, rfl⟩ | ⟨x, m, y, rfl⟩
    · exact absurd rfl hne
    · rfl
    · rw [last_inner, set_last]
  simp only [exchangeLast, last_inner, set_last]
  by_cases h : z < as.getLastD 0
  · rw [if_pos ⟨by simp, h⟩, if_pos h, min_eq_right h.le, max_eq_left h.le]
  · rw [if_neg fun hc => h hc.2, if_neg h, min_eq_left (not_lt.mp h), max_eq_right (not_lt.mp h), hself]

theorem appendLists_right (hane : as ≠ []) (hs : Increasing bs) : (appendLists as bs).2 = bs := by
  rcases shape_cases bs with rfl | ⟨w, rfl⟩ | ⟨w, n, z, rfl⟩
  · rfl
  · rfl
  · have hwz : w < z := (DupSort.sortedBy_cons.mp hs).1 z (by simp)
    simp only [appendLists, exchangeLast_inner hane, set_last]
    by_cases h : z < as.getLastD 0
    · rw [if_pos h, if_pos (by omega)]
    · rw [if_neg h, if_neg (by omega), max_eq_right (not_lt.mp h)]

theorem appendLists_left (ha : Ends as) (hb : Ends bs) (hane : as ≠ []) (hbne : bs ≠ [])
    (hshadow : bs.length = 1 → 1 < as.length → as.getLastD 0 ≤ bs.headD 0) :
    (appendLists as bs).1.Perm (as ++ bs) ∧ Ends (appendLists as bs).1 := by
  rcases shape_cases as with rfl | ⟨x, rfl⟩ | ⟨x, m, y, rfl⟩
  · exact absurd rfl hane
  · rcases shape_cases bs with rfl | ⟨w, rfl⟩ | ⟨w, n, z, rfl⟩
    · exact absurd rfl hbne
    · simp only [appendLists, exchangeLast_single, swapFirst_cons, headD_cons]
      exact ⟨perm_min_max x w, ends_inner (m := []).mpr ⟨min_le_max, fun _ h => nomatch h⟩⟩
    · obtain ⟨hwz, hn⟩ := ends_inner.mp hb
      have hset : [x].set ([x].length - 1) (min ([x].getLastD 0) z) = [min x z] := rfl
      have hright : (appendLists [x] (w :: (n ++ [z]))).1 =
          min (min x z) w :: (max (min x z) w :: n ++ [max x z]) := by
        simp only [appendLists, exchangeLast_inner hane, hset, swapFirst_cons, headD_cons]
        rfl
      rw [hright]
      refine ⟨perm_iff_count.mpr fun v => ?_, ends_inner.mpr ⟨by omega, fun v hv => ?_⟩⟩
      · have h1 := (perm_min_max (min x z) w).count_eq v
        have h2 := (perm_min_max x z).count_eq v
        simp only [count_cons, count_append, count_nil, cons_append] at h1 h2 ⊢
        omega
      · rcases List.mem_cons.mp hv with rfl | hv
        · omega
        · have := hn v hv
          omega
  · rcases shape_cases bs with rfl | ⟨w, rfl⟩ | ⟨w, n, z, rfl⟩
    · exact absurd rfl hbne
    · obtain ⟨hxy, hm⟩ := ends_inner.mp ha
      have hyw := hshadow rfl (by simp)
      rw [last_inner, headD_cons] at hyw
      have hright : (appendLists (x :: (m ++ [y])) [w]).1 = x :: (m ++ [y] ++ [w]) := by
        simp only [appendLists, exchangeLast_single, swapFirst_cons, headD_cons, min_eq_left (hxy.trans hyw),
          max_eq_right (hxy.trans hyw)]
        rfl
      rw [hright]
      refine ⟨.rfl, ends_inner.mpr ⟨by omega, fun v hv => ?_⟩⟩
      rcases List.mem_append.mp hv with hv | hv
      · have := hm v hv
        omega
      · obtain rfl := List.mem_singleton.mp hv
        omega
    · obtain ⟨hxy, hm⟩ := ends_inner.mp ha
      obtain ⟨hwz, hn⟩ := ends_inner.mp hb
      have hright : (appendLists (x :: (m ++ [y])) (w :: (n ++ [z]))).1 =
          min x w :: (m ++ [min y z] ++ max x w :: n ++ [max y z]) := by
        simp only [appendLists, exchangeLast_inner hane, set_last, last_inner, swapFirst_cons, headD_cons]
        simp
      rw [hright]
      refine ⟨perm_iff_count.mpr fun v => ?_, ends_inner.mpr ⟨by omega, fun v hv => ?_⟩⟩
      · have h1 := (perm_min_max x w).count_eq v
        have h2 := (perm_min_max y z).count_eq v
        simp only [count_cons, count_append, count_nil, cons_append] at h1 h2 ⊢
        omega
      · simp only [List.mem_append, mem_cons, not_mem_nil, or_false] at hv
        rcases hv with (hv | rfl) | rfl | hv
        · have := hm v hv
          omega
        · omega
        · omega
        · have := hn v hv
          omega

theorem appendOne_holds (h : Holds S a) (hid : id ∉ S) : Holds (S ∪ {id}) (mdbIdlAppendOne a id).2 := by
  cases a with
  | range lo hi =>
    have hlo := h.1.union (isLeast_singleton (a := id))
    have hhi := h.2.union (isGreatest_singleton (a := id))
    have hle := h.1.2 h.2.1
    unfold mdbIdlAppendOne
    dsimp only
    split_ifs with h1 h2
    · rw [min_eq_left h1.1] at hlo
      rw [max_eq_left h1.2] at hhi
      exact ⟨hlo, hhi⟩
    · rw [min_eq_right h2.le] at hlo
      rw [max_eq_left (h2.le.trans hle)] at hhi
      exact ⟨hlo, hhi⟩
    · rw [min_eq_left (not_lt.mp h2)] at hlo
      rw [max_eq_right (by omega)] at hhi
      exact ⟨hlo, hhi⟩
  | list as =>
    obtain ⟨rs, hperm, hends, heq⟩ := @appendOne_list as id h.2.2
    have hone : Holds {id} (.list [id]) := ⟨nodup_singleton id, by simp, by simp [Ends]⟩
    have hrs := holds_of_perm h hone (Set.disjoint_singleton_right.mpr hid) hperm hends
    rw [heq]
    split_ifs
    · refine hrs.ends ?_
      cases rs with
      | nil => simp at hperm
      | cons => rfl
    · exact hrs

theorem hull_holds (h : Holds S a) (hb : b.Valid) (hza : a.isZero = false) (hzb : b.isZero = false) :
    Holds (S ∪ b.denote) (.range (min a.first b.first) (max a.last b.last)) := by
  obtain ⟨halo, hahi⟩ := h.ends hza
  obtain ⟨hblo, hbhi⟩ := (holds_of_valid hb).ends hzb
  exact ⟨halo.union hblo, hahi.union hbhi⟩

theorem append_holds (h : Holds S a) (hb : b.Valid) (hdis : Disjoint S b.denote) (hs : ¬ (Append.idl b).Shadows a) :
    Holds (S ∪ b.denote) (mdbIdlAppend a b).1 := by
  unfold mdbIdlAppend
  cases hzb : b.isZero with
  | true =>
    obtain rfl := IDL.eq_zero_of_isZero hzb
    have hzero : IDL.zero.denote = ∅ := Set.eq_empty_of_forall_notMem fun _ => IDL.not_mem_zero
    rwa [hzero, Set.union_empty]
  | false =>
    cases hza : a.isZero with
    | true =>
      obtain rfl := IDL.eq_zero_of_isZero hza
      have hS : S = ∅ := h.2.1.symm.trans (Set.eq_empty_of_forall_notMem fun _ => not_mem_nil)
      rw [hS, Set.empty_union]
      exact holds_of_valid hb
    | false =>
      have hhull := hull_holds h hb hza hzb
      cases a with
      | range => exact hhull
      | list as =>
        cases b with
        | range => exact hhull
        | list bs =>
          simp only [Bool.false_eq_true, if_false]
          split_ifs with hfull
          · exact hhull
          · have hbs := holds_of_valid hb
            have hane : as ≠ [] := by rintro rfl; cases hza
            have hbne : bs ≠ [] := by rintro rfl; cases hzb
            obtain ⟨hperm, hends⟩ := appendLists_left h.2.2 hbs.2.2 hane hbne fun hone hlong => by
              obtain ⟨w, rfl⟩ := List.length_eq_one_iff.mp hone
              exact not_lt.mp fun hlt => hs ⟨as, rfl, hlong, hlt, not_le.mp hfull⟩
            exact holds_of_perm h hbs hdis hperm hends

theorem append_right (hb : b.Valid) : (mdbIdlAppend a b).2 = b := by
  unfold mdbIdlAppend
  split_ifs with hzb hza
  · rfl
  · rfl
  · cases a with
    | range => rfl
    | list as =>
      cases b with
      | range => rfl
      | list bs =>
        dsimp only
        split_ifs
        · rfl
        · have hane : as ≠ [] := by rintro rfl; exact hza rfl
          exact congrArg IDL.list (appendLists_right hane hb.1)

namespace Append

variable {op : Append} {ops : List Append}

theorem step_holds (h : Holds S a) (hok : op.Ok) (hdis : Disjoint S op.ids) (hs : ¬ op.Shadows a) :
    Holds (S ∪ op.ids) (step a op) := by
  cases op with
  | one id => exact appendOne_holds h (Set.disjoint_singleton_right.mp hdis)
  | idl b => exact append_holds h hok hdis hs

theorem run_holds (h : Holds S a) (hok : ∀ op ∈ ops, op.Ok) (hS : ∀ op ∈ ops, Disjoint S op.ids)
    (hdis : ops.Pairwise fun p q : Append => Disjoint p.ids q.ids) (hs : NoneShadows a ops) :
    Holds (S ∪ total ops) (run a ops) := by
  induction ops generalizing S a with
  | nil => simpa [total, run] using h
  | cons op ops ih =>
    obtain ⟨hop, hdis⟩ := List.pairwise_cons.mp hdis
    have hstep := step_holds h (hok op mem_cons_self) (hS op mem_cons_self) hs.1
    have htotal : S ∪ total (op :: ops) = S ∪ op.ids ∪ total ops := by
      ext x
      simp [total, or_assoc]
    rw [htotal]
    refine ih hstep (fun q hq => hok q (mem_cons_of_mem _ hq)) (fun q hq => ?_) hdis hs.2
    exact Set.disjoint_union_left.mpr ⟨hS q (mem_cons_of_mem _ hq), hop q hq⟩

/-- IDs that are appended one by one and by sorted lists, no list of one ID to a longer list which ends above it. -/
theorem run_ends (hok : ∀ op ∈ ops, op.Ok) (hdis : ops.Pairwise fun p q : Append => Disjoint p.ids q.ids)
    (hs : NoneShadows .zero ops) : Holds (total ops) (run .zero ops) ∧
      ∀ b, b.Valid → (mdbIdlAppend (run .zero ops) b).2 = b := by
  have hzero : Holds ∅ .zero := ⟨nodup_nil, by simp, fun x hx => nomatch hx⟩
  have hrun := run_holds hzero hok (fun _ _ => Set.empty_disjoint _) hdis hs
  rw [Set.empty_union] at hrun
  exact ⟨hrun, fun b hb => append_right hb⟩

theorem run_ends_mixed : Holds (total [one 5, idl (.list [2, 9])]) (run .zero [one 5, idl (.list [2, 9])]) ∧
    ∀ b, b.Valid → (mdbIdlAppend (run .zero [one 5, idl (.list [2, 9])]) b).2 = b := by
  refine run_ends (fun op hop => ?_) (by simp [ids]) ⟨id, fun h => h, trivial⟩
  simp only [mem_cons, not_mem_nil, or_false] at hop
  rcases hop with rfl | rfl
  · trivial
  · exact ⟨by simp [Increasing, DupSort.SortedBy], by simp [NOID], by simp [MDB_IDL_UM_MAX]⟩

/-- 5 is appended after 1 and 10. -/
theorem run_shadowed : (IDL.list [5]).Valid ∧ run .zero [one 1, one 10, idl (.list [5])] = .list [1, 10, 5] ∧
    ¬ Holds (total [one 1, one 10, idl (.list [5])]) (run .zero [one 1, one 10, idl (.list [5])]) := by
  have hrun : run .zero [one 1, one 10, idl (.list [5])] = .list [1, 10, 5] := by decide
  refine ⟨⟨by simp [Increasing, DupSort.SortedBy], by simp [NOID], by simp [MDB_IDL_UM_MAX]⟩, hrun, fun h => ?_⟩
  rw [hrun] at h
  exact absurd (h.2.2 10 (by simp)).2 (by decide)

end Append

end BackMdb
end ReOpenLDAP
