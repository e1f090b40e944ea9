import ReOpenLDAP.BackMdb.Idl
import ReOpenLDAP.Lib.Search

/-!
# BackMdb.IdlSets

`mdb_idl_intersection` and `mdb_idl_union` on ID lists in memory.

Both are bounds, not exact: the intersection of lists whose bounds meet in one ID is that ID,
whether or not both lists have it, and a union that is a range already, or no longer fits, is the
range between the outermost IDs. What a search relies on is that nothing is lost.
-/

namespace ReOpenLDAP
namespace BackMdb

open List

namespace IDL

/-- `MDB_IDL_ZERO` -/
def zero : IDL := .list []

/-- `MDB_IDL_ALL` -/
def all : IDL := .range 1 NOID

/-- `MDB_IDL_IS_ZERO` -/
def isZero : IDL → Bool
  | .list ids => ids.isEmpty
  | .range _ _ => false

/-- `MDB_IDL_FIRST` -/
def first : IDL → Nat
  | .list ids => ids.headD 0
  | .range lo _ => lo

/-- `MDB_IDL_LAST` -/
def last : IDL → Nat
  | .list ids => ids.getLastD 0
  | .range _ hi => hi

/-- `MDB_IDL_N` -/
def n : IDL → Nat
  | .list ids => ids.length
  | .range lo hi => hi - lo + 1

/-- The IDs that `mdb_idl_first` and `mdb_idl_next` deliver from a non-zero `cursor` on. -/
def seek (cursor : Nat) : IDL → List Nat
  | .list ids => ids.drop (Search.search cursor ids - 1)
  | .range lo hi =>
    let cursor := if cursor < lo then lo else cursor
    List.range' cursor (hi + 1 - cursor)

/-- A strictly increasing list of IDs below `NOID` that fits its array, or a range. -/
def Valid : IDL → Prop
  | .list ids => Increasing ids ∧ (∀ x ∈ ids, x < NOID) ∧ ids.length ≤ MDB_IDL_UM_MAX
  | .range lo hi => lo ≤ hi ∧ lo < NOID

end IDL

/-- The loop of `mdb_idl_intersection`. A list that is at its end reads as `NOID`, and nothing
more is stored then. -/
def meetLoop (idmax : Nat) : List Nat → List Nat → List Nat
  | [], _ => []
  | _, [] => []
  | ida :: as, idb :: bs =>
    if ida ≤ idmax ∨ idb ≤ idmax then
      if ida = idb then ida :: meetLoop idmax as bs
      else if ida < idb then meetLoop idmax as (idb :: bs)
      else meetLoop idmax (ida :: as) bs
    else []
termination_by as bs => as.length + bs.length

/-- `mdb_idl_intersection` with a list in the place of `a`. -/
def meetList (idmin idmax : Nat) (as : List Nat) (b : IDL) : IDL :=
  let covered := match b with
    | .range lo hi => lo ≤ as.headD 0 && as.getLastD 0 ≤ hi
    | .list _ => false
  -- If a range completely covers the list, the result is just the list.
  if covered then .list as
  else .list (meetLoop idmax ((IDL.list as).seek idmin) (b.seek idmin))

def mdbIdlIntersection (a b : IDL) : IDL :=
  if a.isZero || b.isZero then .zero
  else
    let idmin := max a.first b.first
    let idmax := min a.last b.last
    if idmax < idmin then .zero
    else if idmin = idmax then .list [idmin]
    else match a, b with
      -- If both are ranges, just shrink the boundaries
      | .range _ _, .range _ _ => .range idmin idmax
      -- Else swap so that b is the range, a is a list
      | .range lo hi, .list bs => meetList idmin idmax bs (.range lo hi)
      | .list as, b => meetList idmin idmax as b

/-- The distinct elements of a, which `mdb_idl_union` stores behind b. -/
def distinct : List Nat → List Nat → List Nat
  | [], _ => []
  | ida :: as, [] => ida :: distinct as []
  | ida :: as, idb :: bs =>
    if ida < idb then ida :: distinct as (idb :: bs)
    else if ida = idb then distinct as bs
    else distinct (ida :: as) bs
termination_by as bs => as.length + bs.length

def copyBack : List Nat → List Nat → List Nat
  | [], cs => cs
  | b :: bs, [] => b :: copyBack bs []
  | b :: bs, c :: cs => if b < c then b :: copyBack bs (c :: cs) else c :: copyBack (b :: bs) cs
termination_by bs cs => bs.length + cs.length

def mdbIdlUnion (a b : IDL) : IDL :=
  if b.isZero then a
  else if a.isZero then b
  else
    let hull := IDL.range (min a.first b.first) (max a.last b.last)
    match a, b with
    | .list as, .list bs =>
      let cs := distinct as bs
      if MDB_IDL_UM_MAX < bs.length + cs.length then hull else .list (copyBack bs cs)
    | _, _ => hull

namespace IDL

variable {x : Nat} {a : IDL}

theorem bounds (hv : a.Valid) (hx : x ∈ a.denote) : a.first ≤ x ∧ x ≤ a.last := by
  cases a with
  | range lo hi => exact hx
  | list ids =>
    cases ids with
    | nil => cases hx
    | cons y ys =>
      have hlast : (y :: ys).getLastD 0 = (y :: ys).getLast (cons_ne_nil _ _) := by
        simp [List.getLastD_eq_getLast?, List.getLast?_eq_getLast_of_ne_nil]
      refine ⟨?_, ?_⟩
      · rcases List.mem_cons.mp hx with rfl | hx
        · exact le_rfl
        · exact ((DupSort.sortedBy_cons.mp hv.1).1 x hx).le
      · rw [last, hlast]
        exact hv.1.le_getLast _ hx

theorem not_isZero (hx : x ∈ a.denote) : a.isZero = false := by
  cases a with
  | range lo hi => rfl
  | list ids =>
    cases ids with
    | nil => cases hx
    | cons y ys => rfl

theorem eq_zero_of_isZero (h : a.isZero = true) : a = zero := by
  cases a with
  | range lo hi => cases h
  | list ids =>
    cases ids with
    | nil => rfl
    | cons y ys => cases h

theorem zero_valid : zero.Valid := ⟨DupSort.sortedBy_nil, by simp, by simp⟩

@[simp] theorem not_mem_zero : x ∉ zero.denote := by simp [zero]

theorem last_mem (hv : a.Valid) (hz : a.isZero = false) : a.last ∈ a.denote := by
  cases a with
  | range lo hi => exact ⟨hv.1, le_rfl⟩
  | list ids =>
    cases ids with
    | nil => cases hz
    | cons y ys =>
      simp only [last, List.getLastD_eq_getLast?, mem_denote_list]
      rw [List.getLast?_eq_getLast_of_ne_nil (cons_ne_nil _ _)]
      exact getLast_mem _

theorem first_lt (hv : a.Valid) (hz : a.isZero = false) : a.first < NOID := by
  cases a with
  | range lo hi => exact hv.2
  | list ids =>
    cases ids with
    | nil => cases hz
    | cons y ys => exact hv.2.1 y mem_cons_self

theorem first_le_last (hv : a.Valid) (hz : a.isZero = false) : a.first ≤ a.last :=
  (bounds hv (last_mem hv hz)).1

theorem mem_seek (hv : a.Valid) {cursor : Nat} : x ∈ a.seek cursor ↔ x ∈ a.denote ∧ cursor ≤ x := by
  cases a with
  | list ids => exact Search.mem_drop_search hv.1
  | range lo hi =>
    simp only [seek, mem_range'_1, mem_denote_range]
    split <;> omega

theorem seek_increasing (hv : a.Valid) (cursor : Nat) : Increasing (a.seek cursor) := by
  cases a with
  | list ids => exact hv.1.drop
  | range lo hi => exact pairwise_lt_range'

end IDL

/-! ## Intersection -/

variable {as bs : List Nat} {x : Nat} {a : IDL}

theorem meetLoop_sublist {idmax : Nat} : (meetLoop idmax as bs).Sublist as := by
  fun_induction meetLoop idmax as bs with
  | case1 => exact List.Sublist.refl _
  | case2 => exact nil_sublist _
  | case3 as ida bs _ ih => exact ih.cons_cons ida
  | case4 ida as idb bs _ _ _ ih => exact ih.trans (sublist_cons_self ida as)
  | case5 ida as idb bs _ _ _ ih => exact ih
  | case6 => exact nil_sublist _

theorem mem_meetLoop {idmax : Nat} (ha : Increasing as) (hb : Increasing bs)
    (hxa : x ∈ as) (hxb : x ∈ bs) (hx : x ≤ idmax) : x ∈ meetLoop idmax as bs := by
  fun_induction meetLoop idmax as bs with
  | case1 => cases hxa
  | case2 => cases hxb
  | case3 as ida bs _ ih =>
    obtain ⟨ha1, ha2⟩ := DupSort.sortedBy_cons.mp ha
    rcases List.mem_cons.mp hxa with rfl | hxa
    · exact mem_cons_self
    · rcases List.mem_cons.mp hxb with rfl | hxb
      · exact mem_cons_self
      · exact mem_cons_of_mem _ (ih ha2 hb.tail hxa hxb)
  | case4 ida as idb bs _ hne hlt ih =>
    obtain ⟨hb1, -⟩ := DupSort.sortedBy_cons.mp hb
    refine ih ha.tail hb ?_ hxb
    -- the head of `as` is less than everything in the other list
    rcases List.mem_cons.mp hxa with rfl | hxa
    · rcases List.mem_cons.mp hxb with rfl | hxb
      · exact absurd rfl hne
      · exact absurd (hb1 x hxb) hlt.not_gt
    · exact hxa
  | case5 ida as idb bs _ hne hlt ih =>
    obtain ⟨ha1, -⟩ := DupSort.sortedBy_cons.mp ha
    refine ih ha hb.tail hxa ?_
    rcases List.mem_cons.mp hxb with rfl | hxb
    · rcases List.mem_cons.mp hxa with rfl | hxa
      · exact absurd rfl hne
      · exact absurd (ha1 x hxa) hlt
    · exact hxb
  | case6 ida as idb bs hgt =>
    obtain ⟨ha1, -⟩ := DupSort.sortedBy_cons.mp ha
    rcases List.mem_cons.mp hxa with rfl | hxa
    · exact absurd (.inl hx) hgt
    · have := ha1 x hxa
      omega

theorem meetList_spec (idmin idmax : Nat) {b : IDL} (ha : (IDL.list as).Valid)
    (hb : b.Valid) : (meetList idmin idmax as b).Valid ∧ ∀ x ∈ as, x ∈ b.denote → idmin ≤ x → x ≤ idmax →
      x ∈ (meetList idmin idmax as b).denote := by
  unfold meetList
  generalize hc : (match b with
    | .range lo hi => decide (lo ≤ as.headD 0) && decide (as.getLastD 0 ≤ hi)
    | .list _ => false) = covered
  cases covered with
  | true => exact ⟨ha, fun x hx _ _ _ => hx⟩
  | false =>
    have hsub : (meetLoop idmax ((IDL.list as).seek idmin) (b.seek idmin)).Sublist as :=
      meetLoop_sublist.trans (drop_sublist _ _)
    refine ⟨⟨ha.1.sublist hsub, fun x hx => ha.2.1 x (hsub.subset hx), hsub.length_le.trans ha.2.2⟩, ?_⟩
    intro x hxa hxb hmin hmax
    exact mem_meetLoop (IDL.seek_increasing ha _) (IDL.seek_increasing hb _)
      ((IDL.mem_seek ha).mpr ⟨hxa, hmin⟩) ((IDL.mem_seek hb).mpr ⟨hxb, hmin⟩) hmax

theorem intersection_spec {b : IDL} (ha : a.Valid) (hb : b.Valid) : (mdbIdlIntersection a b).Valid ∧
      ∀ x, x ∈ a.denote → x ∈ b.denote → x ∈ (mdbIdlIntersection a b).denote := by
  unfold mdbIdlIntersection
  by_cases hz : (a.isZero || b.isZero) = true
  · rw [if_pos hz]
    refine ⟨IDL.zero_valid, fun x hxa hxb => ?_⟩
    simp [IDL.not_isZero hxa, IDL.not_isZero hxb] at hz
  · rw [if_neg hz]
    simp only [Bool.or_eq_true, not_or, Bool.not_eq_true] at hz
    have hbnd : ∀ x, x ∈ a.denote → x ∈ b.denote →
        max a.first b.first ≤ x ∧ x ≤ min a.last b.last := fun x hxa hxb => by
      have h1 := IDL.bounds ha hxa
      have h2 := IDL.bounds hb hxb
      omega
    have hfa := IDL.first_lt ha hz.1
    have hfb := IDL.first_lt hb hz.2
    have hmin : max a.first b.first < NOID := by omega
    generalize max a.first b.first = idmin at hbnd hmin ⊢
    generalize min a.last b.last = idmax at hbnd ⊢
    dsimp only
    split_ifs with hlt heq
    · refine ⟨IDL.zero_valid, fun x hxa hxb => ?_⟩
      have := hbnd x hxa hxb
      omega
    · refine ⟨⟨by simp [Increasing, DupSort.SortedBy], by simpa using hmin, by simp [MDB_IDL_UM_MAX]⟩, fun x hxa hxb => ?_⟩
      have := hbnd x hxa hxb
      simp only [IDL.mem_denote_list, mem_singleton]
      omega
    · cases a with
      | list as =>
        obtain ⟨hv, hmem⟩ := meetList_spec idmin idmax ha hb
        exact ⟨hv, fun x hxa hxb => hmem x hxa hxb (hbnd x hxa hxb).1 (hbnd x hxa hxb).2⟩
      | range lo hi =>
        cases b with
        | list bs =>
          obtain ⟨hv, hmem⟩ := meetList_spec idmin idmax hb ha
          exact ⟨hv, fun x hxa hxb => hmem x hxb hxa (hbnd x hxa hxb).1 (hbnd x hxa hxb).2⟩
        | range lo' hi' => exact ⟨⟨by omega, hmin⟩, fun x hxa hxb => hbnd x hxa hxb⟩

theorem intersection_le {b : IDL} (ha : a.Valid) (hb : b.Valid)
    (hx : x ∈ (mdbIdlIntersection a b).denote) : x ≤ max a.last b.last := by
  have hlist : ∀ {as : List Nat} {b : IDL} {idmin idmax : Nat}, (IDL.list as).Valid →
      x ∈ (meetList idmin idmax as b).denote → x ≤ (IDL.list as).last := by
    intro as b idmin idmax hv hx
    refine (IDL.bounds hv ?_).2
    unfold meetList at hx
    dsimp only at hx
    split_ifs at hx
    · exact hx
    · exact drop_subset _ _ (meetLoop_sublist.subset hx)
  unfold mdbIdlIntersection at hx
  dsimp only at hx
  split_ifs at hx with hz hlt heq
  · simp at hx
  · simp at hx
  · simp only [IDL.mem_denote_list, mem_singleton] at hx
    omega
  · cases a with
    | list as => exact (hlist ha hx).trans (le_max_left _ _)
    | range lo hi =>
      cases b with
      | list bs => exact (hlist hb hx).trans (le_max_right _ _)
      | range lo' hi' =>
        have := hx.2
        omega

theorem distinct_sublist : (distinct as bs).Sublist as := by
  fun_induction distinct as bs with
  | case1 => exact List.Sublist.refl _
  | case2 ida as ih => exact ih.cons_cons ida
  | case3 ida as idb bs _ ih => exact ih.cons_cons ida
  | case4 as ida bs _ ih => exact ih.trans (sublist_cons_self ida as)
  | case5 ida as idb bs _ _ ih => exact ih

theorem mem_distinct (ha : Increasing as) (hb : Increasing bs) : x ∈ distinct as bs ↔ x ∈ as ∧ x ∉ bs := by
  fun_induction distinct as bs with
  | case1 => simp
  | case2 ida as ih => simp [ih ha.tail hb]
  | case3 ida as idb bs hlt ih =>
    obtain ⟨hb1, -⟩ := DupSort.sortedBy_cons.mp hb
    have hnot : ida ∉ idb :: bs := fun h => by
      rcases List.mem_cons.mp h with rfl | h
      · exact lt_irrefl _ hlt
      · exact absurd (hb1 ida h) hlt.not_gt
    rw [mem_cons, ih ha.tail hb]
    constructor
    · rintro (rfl | ⟨h1, h2⟩)
      · exact ⟨mem_cons_self, hnot⟩
      · exact ⟨mem_cons_of_mem _ h1, h2⟩
    · rintro ⟨h1, h2⟩
      rcases List.mem_cons.mp h1 with rfl | h1
      · exact .inl rfl
      · exact .inr ⟨h1, h2⟩
  | case4 as ida bs _ ih =>
    obtain ⟨ha1, -⟩ := DupSort.sortedBy_cons.mp ha
    rw [ih ha.tail hb.tail, mem_cons, mem_cons, not_or]
    constructor
    · rintro ⟨h1, h2⟩
      exact ⟨.inr h1, (ha1 x h1).ne', h2⟩
    · rintro ⟨rfl | h1, h2, h3⟩
      · exact absurd rfl h2
      · exact ⟨h1, h3⟩
  | case5 ida as idb bs hlt hne ih =>
    obtain ⟨ha1, -⟩ := DupSort.sortedBy_cons.mp ha
    have hnot : idb ∉ ida :: as := fun h => by
      rcases List.mem_cons.mp h with rfl | h
      · exact hne rfl
      · exact hlt (ha1 idb h)
    rw [ih ha hb.tail, mem_cons (l := bs), not_or]
    constructor
    · rintro ⟨h1, h2⟩
      exact ⟨h1, fun e => hnot (e ▸ h1), h2⟩
    · rintro ⟨h1, -, h2⟩
      exact ⟨h1, h2⟩

theorem copyBack_perm (bs cs : List Nat) : (copyBack bs cs).Perm (bs ++ cs) := by
  fun_induction copyBack bs cs with
  | case1 cs => simp
  | case2 b bs ih => simpa using ih
  | case3 b bs c cs _ ih => exact ih.cons b
  | case4 b bs c cs _ ih => exact (ih.cons c).trans (List.perm_middle.symm)

theorem copyBack_increasing {cs : List Nat} (hb : Increasing bs) (hc : Increasing cs)
    (hdis : ∀ x ∈ bs, x ∉ cs) : Increasing (copyBack bs cs) := by
  fun_induction copyBack bs cs with
  | case1 cs => exact hc
  | case2 b bs ih =>
    refine DupSort.sortedBy_cons.mpr ⟨fun y hy => ?_, ih hb.tail hc (by simp)⟩
    exact (DupSort.sortedBy_cons.mp hb).1 y (by simpa using (copyBack_perm bs []).mem_iff.mp hy)
  | case3 b bs c cs hlt ih =>
    obtain ⟨hb1, hb2⟩ := DupSort.sortedBy_cons.mp hb
    obtain ⟨hc1, -⟩ := DupSort.sortedBy_cons.mp hc
    refine DupSort.sortedBy_cons.mpr ⟨fun y hy => ?_, ih hb2 hc fun x hx => hdis x (by simp [hx])⟩
    rcases List.mem_append.mp ((copyBack_perm bs (c :: cs)).mem_iff.mp hy) with hy | hy
    · exact hb1 y hy
    · rcases List.mem_cons.mp hy with rfl | hy
      · exact hlt
      · exact hlt.trans (hc1 y hy)
  | case4 b bs c cs hlt ih =>
    obtain ⟨hb1, -⟩ := DupSort.sortedBy_cons.mp hb
    obtain ⟨hc1, hc2⟩ := DupSort.sortedBy_cons.mp hc
    have hcb : c < b := by
      have : b ≠ c := fun e => hdis b mem_cons_self (by simp [e])
      omega
    refine DupSort.sortedBy_cons.mpr ⟨fun y hy => ?_, ih hb hc2 fun x hx h => hdis x hx (by simp [h])⟩
    rcases List.mem_append.mp ((copyBack_perm (b :: bs) cs).mem_iff.mp hy) with hy | hy
    · rcases List.mem_cons.mp hy with rfl | hy
      · exact hcb
      · exact hcb.trans (hb1 y hy)
    · exact hc1 y hy

theorem increasing_length_le {xs : List Nat} (hs : Increasing (x :: xs)) : (x :: xs).length + x ≤ xs.getLastD x + 1 := by
  induction xs generalizing x with
  | nil => simp [Nat.add_comm]
  | cons y ys ih =>
    have hlt : x < y := (DupSort.sortedBy_cons.mp hs).1 y mem_cons_self
    have := ih hs.tail
    simp only [length_cons, getLastD_cons] at this ⊢
    omega

theorem IDL.n_le (hv : a.Valid) (hz : a.isZero = false) : a.n ≤ a.last - a.first + 1 := by
  cases a with
  | range lo hi => exact le_rfl
  | list ids =>
    cases ids with
    | nil => cases hz
    | cons x xs =>
      have := increasing_length_le hv.1
      simp only [n, last, first, getLastD_cons, headD_cons]
      omega

theorem union_over {b : IDL} (ha : a.Valid) (hb : b.Valid) (hza : a.isZero = false) (hzb : b.isZero = false) :
    (IDL.range (min a.first b.first) (max a.last b.last)).Valid ∧
      (∀ x, x ∈ a.denote ∨ x ∈ b.denote → x ∈ (IDL.range (min a.first b.first) (max a.last b.last)).denote) ∧
      a.n ≤ (IDL.range (min a.first b.first) (max a.last b.last)).n ∧
      b.n ≤ (IDL.range (min a.first b.first) (max a.last b.last)).n := by
  have hfa := IDL.first_lt ha hza
  have hla := IDL.first_le_last ha hza
  have hlb := IDL.first_le_last hb hzb
  have hna := IDL.n_le ha hza
  have hnb := IDL.n_le hb hzb
  refine ⟨⟨by omega, by omega⟩, fun x hx => ?_, ?_, ?_⟩
  · rw [IDL.mem_denote_range]
    rcases hx with hx | hx
    · have := IDL.bounds ha hx
      omega
    · have := IDL.bounds hb hx
      omega
  · change a.n ≤ max a.last b.last - min a.first b.first + 1
    omega
  · change b.n ≤ max a.last b.last - min a.first b.first + 1
    omega

theorem union_spec {b : IDL} (ha : a.Valid) (hb : b.Valid) :
    (mdbIdlUnion a b).Valid ∧ (∀ x, x ∈ a.denote ∨ x ∈ b.denote → x ∈ (mdbIdlUnion a b).denote) ∧
      a.n ≤ (mdbIdlUnion a b).n ∧ b.n ≤ (mdbIdlUnion a b).n := by
  unfold mdbIdlUnion
  cases hzb : b.isZero with
  | true =>
    have := IDL.eq_zero_of_isZero hzb
    subst this
    refine ⟨ha, fun x hx => ?_, le_rfl, Nat.zero_le _⟩
    simpa using hx
  | false =>
    cases hza : a.isZero with
    | true =>
      have := IDL.eq_zero_of_isZero hza
      subst this
      refine ⟨hb, fun x hx => ?_, Nat.zero_le _, le_rfl⟩
      simpa using hx
    | false =>
      have hover := union_over ha hb hza hzb
      cases a with
      | range lo hi => exact hover
      | list as =>
        cases b with
        | range lo hi => exact hover
        | list bs =>
          simp only [Bool.false_eq_true, if_false]
          split_ifs with hmax
          · exact hover
          · have hperm := copyBack_perm bs (distinct as bs)
            have hmem : ∀ x, x ∈ copyBack bs (distinct as bs) ↔ x ∈ as ∨ x ∈ bs := fun x => by
              rw [hperm.mem_iff, mem_append, mem_distinct ha.1 hb.1]
              tauto
            refine ⟨⟨copyBack_increasing hb.1 (ha.1.sublist distinct_sublist) ?_, ?_, ?_⟩, ?_, ?_, ?_⟩
            · exact fun x hx h => ((mem_distinct ha.1 hb.1).mp h).2 hx
            · intro x hx
              rcases (hmem x).mp hx with h | h
              · exact ha.2.1 x h
              · exact hb.2.1 x h
            · rw [hperm.length_eq, length_append]
              omega
            · exact fun x hx => (hmem x).mpr hx
            · have hnd : as.Nodup := ha.1.imp fun h => h.ne
              exact (hnd.subperm fun x hx => (hmem x).mpr (.inl hx)).length_le
            · simp only [IDL.n, hperm.length_eq, length_append]
              omega

theorem union_le {b : IDL} (ha : a.Valid) (hb : b.Valid) (hx : x ∈ (mdbIdlUnion a b).denote) : x ≤ max a.last b.last := by
  unfold mdbIdlUnion at hx
  dsimp only at hx
  split_ifs at hx with hzb hza
  · exact (IDL.bounds ha hx).2.trans (le_max_left _ _)
  · exact (IDL.bounds hb hx).2.trans (le_max_right _ _)
  · cases a with
    | range lo hi => exact hx.2
    | list as =>
      cases b with
      | range lo hi => exact hx.2
      | list bs =>
        dsimp only at hx
        split_ifs at hx with hmax
        · exact hx.2
        · rcases List.mem_append.mp ((copyBack_perm _ _).mem_iff.mp hx) with h | h
          · exact (IDL.bounds hb h).2.trans (le_max_right _ _)
          · exact (IDL.bounds ha (distinct_sublist.subset h)).2.trans (le_max_left _ _)

end BackMdb
end ReOpenLDAP
