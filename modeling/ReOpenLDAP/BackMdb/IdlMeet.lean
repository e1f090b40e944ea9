import ReOpenLDAP.BackMdb.IdlSets

/-!
# BackMdb.IdlMeet

Where `mdb_idl_intersection` is more than a bound. Lists whose bounds meet in one ID give that ID, and one of them may lack it.
-/

namespace ReOpenLDAP
namespace BackMdb

open List

variable {as bs : List Nat} {x idmin idmax : Nat} {a b : IDL}

/-- `a` is a single ID within the bounds of `b`, and `b` does not have it. -/
def Missed (a b : IDL) : Prop :=
  a.isZero = false ∧ b.isZero = false ∧ a.first = a.last ∧ b.first ≤ a.first ∧ a.first ≤ b.last ∧ a.first ∉ b.denote

theorem IDL.first_mem (hz : a.isZero = false) (hv : a.Valid) : a.first ∈ a.denote := by
  cases a with
  | range lo hi => exact ⟨le_rfl, hv.1⟩
  | list ids =>
    cases ids with
    | nil => cases hz
    | cons y ys => exact mem_cons_self

theorem intersection_single (hza : a.isZero = false) (hzb : b.isZero = false)
    (h : max a.first b.first = min a.last b.last) : mdbIdlIntersection a b = .list [max a.first b.first] := by
  unfold mdbIdlIntersection
  simp only [hza, hzb, ← h, lt_irrefl, Bool.or_self, Bool.false_eq_true, if_false, if_true]

theorem single_mem (ha : a.Valid) (hb : b.Valid) (hza : a.isZero = false) (hzb : b.isZero = false)
    (h : max a.first b.first = min a.last b.last) (hab : ¬ Missed a b) (hba : ¬ Missed b a) :
    max a.first b.first ∈ a.denote ∧ max a.first b.first ∈ b.denote := by
  have hfa := IDL.first_mem hza ha
  have hfb := IDL.first_mem hzb hb
  have hla := IDL.last_mem ha hza
  have hlb := IDL.last_mem hb hzb
  rcases le_total a.first b.first with hf | hf <;> rcases le_total a.last b.last with hl | hl
  · rw [max_eq_right hf, min_eq_left hl] at h
    rw [max_eq_right hf]
    exact ⟨h ▸ hla, hfb⟩
  · rw [max_eq_right hf, min_eq_right hl] at h
    rw [max_eq_right hf]
    exact ⟨of_not_not fun hn => hba ⟨hzb, hza, h, hf, h ▸ hl, hn⟩, hfb⟩
  · rw [max_eq_left hf, min_eq_left hl] at h
    rw [max_eq_left hf]
    exact ⟨hfa, of_not_not fun hn => hab ⟨hza, hzb, h, hf, h ▸ hl, hn⟩⟩
  · rw [max_eq_left hf, min_eq_right hl] at h
    rw [max_eq_left hf]
    exact ⟨hfa, h ▸ hlb⟩

theorem mem_of_mem_meetLoop (h : x ∈ meetLoop idmax as bs) : x ∈ bs := by
  fun_induction meetLoop idmax as bs with
  | case1 => cases h
  | case2 => cases h
  | case3 as ida bs _ ih =>
    rcases List.mem_cons.mp h with rfl | h
    · exact mem_cons_self
    · exact mem_cons_of_mem _ (ih h)
  | case4 ida as idb bs _ _ _ ih => exact ih h
  | case5 ida as idb bs _ _ _ ih => exact mem_cons_of_mem _ (ih h)
  | case6 => cases h

theorem mem_of_mem_meetList (ha : (IDL.list as).Valid) (hb : b.Valid) (hx : x ∈ (meetList idmin idmax as b).denote) :
    x ∈ as ∧ x ∈ b.denote := by
  have hmerge : x ∈ meetLoop idmax ((IDL.list as).seek idmin) (b.seek idmin) → x ∈ as ∧ x ∈ b.denote := fun h =>
    ⟨drop_subset _ _ (meetLoop_sublist.subset h), ((IDL.mem_seek hb).mp (mem_of_mem_meetLoop h)).1⟩
  unfold meetList at hx
  cases b with
  | list bs =>
    simp only [Bool.false_eq_true, if_false] at hx
    exact hmerge hx
  | range lo hi =>
    dsimp only at hx
    split_ifs at hx with hc
    · simp only [Bool.and_eq_true, decide_eq_true_eq] at hc
      have hbounds := IDL.bounds ha hx
      exact ⟨hx, hc.1.trans hbounds.1, hbounds.2.trans hc.2⟩
    · exact hmerge hx

theorem mem_of_mem_intersection (ha : a.Valid) (hb : b.Valid) (hab : ¬ Missed a b) (hba : ¬ Missed b a)
    (hx : x ∈ (mdbIdlIntersection a b).denote) : x ∈ a.denote ∧ x ∈ b.denote := by
  by_cases hz : (a.isZero || b.isZero) = true
  · rw [mdbIdlIntersection, if_pos hz] at hx
    exact absurd hx IDL.not_mem_zero
  · obtain ⟨hza, hzb⟩ : a.isZero = false ∧ b.isZero = false := by simpa using hz
    by_cases heq : max a.first b.first = min a.last b.last
    · rw [intersection_single hza hzb heq] at hx
      obtain rfl := List.mem_singleton.mp hx
      exact single_mem ha hb hza hzb heq hab hba
    · rw [mdbIdlIntersection, if_neg hz] at hx
      dsimp only at hx
      split_ifs at hx
      · exact absurd hx IDL.not_mem_zero
      · cases a with
        | list as => exact mem_of_mem_meetList ha hb hx
        | range lo hi =>
          cases b with
          | list bs => exact (mem_of_mem_meetList hb ha hx).symm
          | range lo' hi' =>
            obtain ⟨hmin, hmax⟩ := hx
            obtain ⟨h1, h2⟩ := max_le_iff.mp hmin
            obtain ⟨h3, h4⟩ := le_min_iff.mp hmax
            exact ⟨⟨h1, h3⟩, h2, h4⟩

/-- The result is the intersection unless one list is a single ID between the bounds of the other one, which lacks it. -/
theorem mdbIdlIntersection_exact_iff (ha : a.Valid) (hb : b.Valid) :
    ((mdbIdlIntersection a b).Valid ∧ (mdbIdlIntersection a b).denote = a.denote ∩ b.denote) ↔
      ¬ Missed a b ∧ ¬ Missed b a := by
  constructor
  · rintro ⟨-, heq⟩
    refine ⟨?_, ?_⟩
    · rintro ⟨hza, hzb, hone, h1, h2, hnot⟩
      rw [intersection_single hza hzb (by omega), max_eq_left h1] at heq
      have hmem : a.first ∈ a.denote ∩ b.denote := heq ▸ mem_cons_self
      exact hnot hmem.2
    · rintro ⟨hzb, hza, hone, h1, h2, hnot⟩
      rw [intersection_single hza hzb (by omega), max_eq_right h1] at heq
      have hmem : b.first ∈ a.denote ∩ b.denote := heq ▸ mem_cons_self
      exact hnot hmem.1
  · rintro ⟨hab, hba⟩
    obtain ⟨hv, hmem⟩ := intersection_spec ha hb
    refine ⟨hv, Set.ext fun x => ⟨mem_of_mem_intersection ha hb hab hba, ?_⟩⟩
    rintro ⟨hxa, hxb⟩
    exact hmem x hxa hxb

theorem mdbIdlIntersection_exact_five : (mdbIdlIntersection (.list [1, 5]) (.range 3 9)).Valid ∧
    (mdbIdlIntersection (.list [1, 5]) (.range 3 9)).denote = (IDL.list [1, 5]).denote ∩ (IDL.range 3 9).denote := by
  have hlist : (IDL.list [1, 5]).Valid :=
    ⟨by simp [Increasing, DupSort.SortedBy], by simp [NOID], by simp [MDB_IDL_UM_MAX]⟩
  have hrange : (IDL.range 3 9).Valid := ⟨by decide, by simp [NOID]⟩
  refine (mdbIdlIntersection_exact_iff hlist hrange).mpr ⟨fun h => ?_, fun h => ?_⟩
  · exact absurd h.2.2.1 (by decide)
  · exact absurd h.2.2.1 (by decide)

/-- 5 is between 3 and 7. -/
theorem mdbIdlIntersection_five : (IDL.list [5]).Valid ∧ (IDL.list [3, 7]).Valid ∧
    (mdbIdlIntersection (.list [5]) (.list [3, 7])).denote ≠ (IDL.list [5]).denote ∩ (IDL.list [3, 7]).denote := by
  refine ⟨⟨by simp [Increasing, DupSort.SortedBy], by simp [NOID], by simp [MDB_IDL_UM_MAX]⟩,
    ⟨by simp [Increasing, DupSort.SortedBy], by simp [NOID], by simp [MDB_IDL_UM_MAX]⟩, fun heq => ?_⟩
  rw [intersection_single rfl rfl rfl] at heq
  have hmem : 5 ∈ (IDL.list [5]).denote ∩ (IDL.list [3, 7]).denote := heq ▸ mem_cons_self
  simpa using hmem.2

end BackMdb
end ReOpenLDAP
