import ReOpenLDAP.Sync.Resolve

/-!
# Sync.ConflictTable

The table of conflicts in `syncrepl_op_modify`, and what the code makes of it.
-/

namespace ReOpenLDAP
namespace Sync

open Slapd List

variable {δ ν : Type}

inductive Row (ν : Type) where
  | deleteAll
  | delete (v : ν)
  | add (v : ν)
deriving DecidableEq

inductive Fate where
  | ok
  | softdel
  | drop
deriving DecidableEq

/-- The table of `syncrepl_op_modify`: the older modification, the newer one. -/
def table (singleValue : Bool) (same : ν → ν → Bool) : Row ν → Row ν → Fate
  | .deleteAll, .deleteAll => .drop
  | .deleteAll, .delete _ => .softdel
  | .delete _, .deleteAll => .drop
  | .delete x, .delete y => if same x y then .drop else .ok
  | .deleteAll, .add _ => .drop
  | .delete x, .add y => if same x y then .drop else .ok
  | .add _, .deleteAll => .drop
  | .add x, .delete y => if same x y then .drop else .ok
  | .add x, .add y => if same x y then .drop else if singleValue then .drop else .ok

def rows (m : Modification δ ν) : List (Row ν) :=
  match m.op with
  | .delete => if numvals m = 0 then [.deleteAll] else (m.values.getD []).map .delete
  | .add => (m.values.getD []).map .add
  | .replace => .deleteAll :: (m.values.getD []).map .add
  | _ => []

def ResolveSchema.same [DecidableEq ν] (sch : ResolveSchema δ ν) (d : δ) (v w : ν) : Bool :=
  match sch.equality d with
  | none => v = w
  | some mr =>
    match mr.norm v, mr.norm w with
    | some v', some w' => mr.cmp v' w' = .eq
    | _, _ => v = w

section

variable [DecidableEq δ] [DecidableEq ν]

def rowFate (sch : ResolveSchema δ ν) (newmods : List (Modification δ ν)) (d : δ) (r : Row ν) : Fate :=
  let fates := ((newmods.filter fun m2 => d = m2.desc).flatMap rows).map (table (sch.singleValue d) (sch.same d) r)
  if .drop ∈ fates then .drop else if .softdel ∈ fates then .softdel else .ok

def keptMod (m : Modification δ ν) (vals : List ν) (keep : ν → Bool) : Modification δ ν :=
  { m with values := some (masked (vals.map keep) vals), nvalues := m.nvalues.map (masked (vals.map keep)) }

def keepVals (m1 : Modifications δ ν) (vals : List ν) (keep : ν → Bool) : Option (Modifications δ ν) :=
  if masked (vals.map keep) vals = [] then none else some { m1 with mod := keptMod m1.mod vals keep }

def tableFate (sch : ResolveSchema δ ν) (newmods : List (Modification δ ν)) (m1 : Modifications δ ν) :
    Option (Modifications δ ν) :=
  match m1.mod.op, m1.mod.values with
  | .delete, none =>
    match rowFate sch newmods m1.mod.desc .deleteAll with
    | .ok => some m1
    | .softdel => some { m1 with internal := true }
    | .drop => none
  | .delete, some vals => keepVals m1 vals fun v => decide (rowFate sch newmods m1.mod.desc (.delete v) ≠ .drop)
  | .add, some vals => keepVals m1 vals fun v => decide (rowFate sch newmods m1.mod.desc (.add v) ≠ .drop)
  | _, _ => some m1

end

def Clears (m2 : Modification δ ν) : Prop := m2.op = .replace ∨ m2.op = .delete ∧ numvals m2 = 0

def Names (m2 : Modification δ ν) (w : ν) : Prop := (m2.op = .add ∨ m2.op = .delete) ∧ w ∈ m2.values.getD []

variable (newmods : List (Modification δ ν)) (d : δ)

def Cleared : Prop := ∃ m2 ∈ newmods, m2.desc = d ∧ Clears m2

def Added : Prop := ∃ m2 ∈ newmods, m2.desc = d ∧ m2.op = .add

def Named (w : ν) : Prop := ∃ m2 ∈ newmods, m2.desc = d ∧ Names m2 w

variable {newmods d}

theorem mem_rows_deleteAll {m : Modification δ ν} : Row.deleteAll ∈ rows m ↔ Clears m := by
  unfold rows Clears
  cases m.op with
  | delete => split_ifs with hnum <;> simp [hnum]
  | _ => simp

theorem mem_rows_delete {m : Modification δ ν} {w : ν} : Row.delete w ∈ rows m ↔ m.op = .delete ∧ w ∈ m.values.getD [] := by
  unfold rows
  cases m.op with
  | delete =>
    simp only [true_and]
    split_ifs with hnum
    · simp [eq_nil_of_length_eq_zero hnum]
    · simp
  | _ => simp

theorem mem_rows_add {m : Modification δ ν} {w : ν} :
    Row.add w ∈ rows m ↔ (m.op = .add ∨ m.op = .replace) ∧ w ∈ m.values.getD [] := by
  unfold rows
  cases m.op with
  | delete => split_ifs <;> simp
  | _ => simp

section

variable [DecidableEq δ] [DecidableEq ν] {sch : ResolveSchema δ ν}

/-- Some newer modification names a value that the equality rule regards as the same. -/
def Alike (sch : ResolveSchema δ ν) (newmods : List (Modification δ ν)) (d : δ) (v : ν) : Prop :=
  ∃ w, Named newmods d w ∧ sch.same d v w = true

omit [DecidableEq δ] in
theorem same_self (sch : ResolveSchema δ ν) (d : δ) (v : ν) : sch.same d v v = true := by
  unfold ResolveSchema.same
  split
  · simp
  · rename_i mr _
    cases h : mr.norm v with
    | none => simp
    | some v' => simp [mr.cmp_self]

omit [DecidableEq δ] in
theorem Named.alike {v : ν} (h : Named newmods d v) : Alike sch newmods d v := ⟨v, h, same_self sch d v⟩

theorem rowFate_drop {r : Row ν} :
    rowFate sch newmods d r = .drop ↔ Cleared newmods d ∨ ∃ m2 ∈ newmods, m2.desc = d ∧ ∃ w ∈ m2.values.getD [],
      m2.op = .delete ∧ table (sch.singleValue d) (sch.same d) r (.delete w) = .drop ∨
        m2.op = .add ∧ table (sch.singleValue d) (sch.same d) r (.add w) = .drop := by
  have hmem : rowFate sch newmods d r = .drop ↔
      Fate.drop ∈ ((newmods.filter fun m2 => d = m2.desc).flatMap rows).map (table (sch.singleValue d) (sch.same d) r) := by
    unfold rowFate
    dsimp only
    split_ifs with h h' <;> simp [h]
  rw [hmem]
  simp only [List.mem_map, mem_flatMap, mem_filter, decide_eq_true_eq]
  constructor
  · rintro ⟨r', ⟨m2, ⟨hm2, hd⟩, hr'⟩, hdrop⟩
    cases r' with
    | deleteAll => exact .inl ⟨m2, hm2, hd.symm, mem_rows_deleteAll.mp hr'⟩
    | delete w =>
      obtain ⟨hop, hw⟩ := mem_rows_delete.mp hr'
      exact .inr ⟨m2, hm2, hd.symm, w, hw, .inl ⟨hop, hdrop⟩⟩
    | add w =>
      obtain ⟨hop | hop, hw⟩ := mem_rows_add.mp hr'
      · exact .inr ⟨m2, hm2, hd.symm, w, hw, .inr ⟨hop, hdrop⟩⟩
      · exact .inl ⟨m2, hm2, hd.symm, .inl hop⟩
  · rintro (⟨m2, hm2, hd, hclears⟩ | ⟨m2, hm2, hd, w, hw, ⟨hop, hdrop⟩ | ⟨hop, hdrop⟩⟩)
    · exact ⟨.deleteAll, ⟨m2, ⟨hm2, hd.symm⟩, mem_rows_deleteAll.mpr hclears⟩, by cases r <;> rfl⟩
    · exact ⟨.delete w, ⟨m2, ⟨hm2, hd.symm⟩, mem_rows_delete.mpr ⟨hop, hw⟩⟩, hdrop⟩
    · exact ⟨.add w, ⟨m2, ⟨hm2, hd.symm⟩, mem_rows_add.mpr ⟨.inl hop, hw⟩⟩, hdrop⟩

omit [DecidableEq δ] [DecidableEq ν] in
theorem Logged.value {m2 : Modification δ ν} (hlogged : Logged newmods) (hm2 : m2 ∈ newmods) (hop : m2.op = .add) :
    ∃ w, w ∈ m2.values.getD [] := exists_mem_of_length_pos (Nat.pos_of_ne_zero ((hlogged m2 hm2).2 hop))

theorem rowFate_delete {v : ν} :
    rowFate sch newmods d (.delete v) = .drop ↔ Cleared newmods d ∨ Alike sch newmods d v := by
  rw [rowFate_drop]
  refine or_congr_right ⟨?_, ?_⟩
  · rintro ⟨m2, hm2, hd, w, hw, ⟨hop, hdrop⟩ | ⟨hop, hdrop⟩⟩
    · exact ⟨w, ⟨m2, hm2, hd, .inr hop, hw⟩, by simpa [table] using hdrop⟩
    · exact ⟨w, ⟨m2, hm2, hd, .inl hop, hw⟩, by simpa [table] using hdrop⟩
  · rintro ⟨w, ⟨m2, hm2, hd, hop | hop, hw⟩, hsame⟩
    · exact ⟨m2, hm2, hd, w, hw, .inr ⟨hop, if_pos hsame⟩⟩
    · exact ⟨m2, hm2, hd, w, hw, .inl ⟨hop, if_pos hsame⟩⟩

theorem rowFate_add (hlogged : Logged newmods) {v : ν} :
    rowFate sch newmods d (.add v) = .drop ↔
      Cleared newmods d ∨ Alike sch newmods d v ∨ sch.singleValue d = true ∧ Added newmods d := by
  rw [rowFate_drop]
  refine or_congr_right ⟨?_, ?_⟩
  · rintro ⟨m2, hm2, hd, w, hw, ⟨hop, hdrop⟩ | ⟨hop, hdrop⟩⟩
    · exact .inl ⟨w, ⟨m2, hm2, hd, .inr hop, hw⟩, by simpa [table] using hdrop⟩
    · simp only [table] at hdrop
      split_ifs at hdrop with hsame hsv
      · exact .inl ⟨w, ⟨m2, hm2, hd, .inl hop, hw⟩, hsame⟩
      · exact .inr ⟨hsv, m2, hm2, hd, hop⟩
  · rintro (⟨w, ⟨m2, hm2, hd, hop | hop, hw⟩, hsame⟩ | ⟨hsv, m2, hm2, hd, hop⟩)
    · exact ⟨m2, hm2, hd, w, hw, .inr ⟨hop, if_pos hsame⟩⟩
    · exact ⟨m2, hm2, hd, w, hw, .inl ⟨hop, if_pos hsame⟩⟩
    · obtain ⟨w, hw⟩ := hlogged.value hm2 hop
      exact ⟨m2, hm2, hd, w, hw, .inr ⟨hop, by simp [table, hsv]⟩⟩

theorem rowFate_deleteAll (hlogged : Logged newmods) :
    rowFate sch newmods d .deleteAll = .drop ↔ Cleared newmods d ∨ Added newmods d := by
  rw [rowFate_drop]
  refine or_congr_right ⟨?_, ?_⟩
  · rintro ⟨m2, hm2, hd, w, hw, ⟨-, hdrop⟩ | ⟨hop, -⟩⟩
    · cases hdrop
    · exact ⟨m2, hm2, hd, hop⟩
  · rintro ⟨m2, hm2, hd, hop⟩
    obtain ⟨w, hw⟩ := hlogged.value hm2 hop
    exact ⟨m2, hm2, hd, w, hw, .inr ⟨hop, rfl⟩⟩

/-! ## What the code does -/

instance (m2 : Modification δ ν) : Decidable (Clears m2) := inferInstanceAs (Decidable (_ ∨ _))

instance (m2 : Modification δ ν) (w : ν) : Decidable (Names m2 w) := inferInstanceAs (Decidable (_ ∧ _))

instance : Decidable (Cleared newmods d) := inferInstanceAs (Decidable (∃ m2 ∈ newmods, _))

instance : Decidable (Added newmods d) := inferInstanceAs (Decidable (∃ m2 ∈ newmods, _))

def resolveAll (sch : ResolveSchema δ ν) : List (Modification δ ν) → Modifications δ ν → Option (Modifications δ ν)
  | [], m1 => some m1
  | m2 :: ms, m1 => (resolveMod sch m2 m1).bind (resolveAll sch ms)

theorem syncreplResolveCb_eq (oldmods : List (Modifications δ ν)) :
    syncreplResolveCb sch newmods oldmods = oldmods.filterMap (resolveAll sch newmods) := by
  unfold syncreplResolveCb
  induction newmods generalizing oldmods with
  | nil => exact (filterMap_some).symm
  | cons m2 ms ih =>
    rw [foldl_cons, ih, filterMap_filterMap]
    rfl

def Parallel (m : Modification δ ν) : Prop := ∀ ns, m.nvalues = some ns → ns.length ≤ numvals m

omit [DecidableEq δ] [DecidableEq ν]

section Kept

variable {m : Modification δ ν} {m1 : Modifications δ ν} {vals : List ν}

theorem keptMod_true (hvals : m.values = some vals) (hpar : Parallel m) : keptMod m vals (fun _ => true) = m := by
  have hnum : numvals m = vals.length := by simp [numvals, hvals]
  have hns : m.nvalues.map (masked (vals.map fun _ => true)) = m.nvalues := by
    cases hn : m.nvalues with
    | none => rfl
    | some ns => exact congrArg some (masked_true (hnum ▸ hpar ns hn))
  rw [keptMod, hns, masked_true (Nat.le_refl _), ← hvals]

theorem keptMod_keptMod (p q : ν → Bool) :
    keptMod (keptMod m vals p) (masked (vals.map p) vals) q = keptMod m vals fun v => p v && q v := by
  simp only [keptMod, masked_masked, Option.map_map, Function.comp_def]

theorem keepVals_true (hvals : m1.mod.values = some vals) (hne : vals ≠ []) (hpar : Parallel m1.mod) :
    keepVals m1 vals (fun _ => true) = some m1 := by
  rw [keepVals, masked_true (Nat.le_refl _), if_neg hne, keptMod_true hvals hpar]

theorem keepVals_false : keepVals m1 vals (fun _ => false) = none := by
  rw [keepVals, masked_eq_filter, if_pos (by simp)]

theorem keepVals_bind (p q : ν → Bool) :
    (keepVals m1 vals p).bind (fun m => keepVals m (masked (vals.map p) vals) q) = keepVals m1 vals fun v => p v && q v := by
  unfold keepVals
  if hp : masked (vals.map p) vals = [] then
    have hpq : masked (vals.map fun v => p v && q v) vals = [] := by
      rw [← masked_masked, hp]
      rfl
    rw [if_pos hp, if_pos hpq]
    rfl
  else
    rw [if_neg hp, Option.bind_some, masked_masked, keptMod_keptMod]

theorem keepVals_congr {p q : ν → Bool} (h : ∀ v ∈ vals, p v = q v) : keepVals m1 vals p = keepVals m1 vals q := by
  have hmap : vals.map p = vals.map q := map_congr_left h
  simp only [keepVals, keptMod, hmap]

theorem parallel_keptMod (hpar : Parallel m) (hvals : m.values = some vals) (keep : ν → Bool) : Parallel (keptMod m vals keep) := by
  intro ns hns
  obtain ⟨ns', hns', rfl⟩ := Option.map_eq_some_iff.mp hns
  have hlen : ns'.length ≤ vals.length := by simpa [numvals, hvals] using hpar ns' hns'
  simpa [numvals, keptMod] using masked_length_le (vals.map keep) hlen

theorem keepVals_some {keep : ν → Bool} {m : Modifications δ ν} (h : keepVals m1 vals keep = some m) :
    m.mod.op = m1.mod.op ∧ m.mod.desc = m1.mod.desc ∧ m.mod.values = some (vals.filter keep) ∧ vals.filter keep ≠ [] := by
  unfold keepVals at h
  rw [masked_eq_filter] at h
  split_ifs at h with hne
  cases h
  exact ⟨rfl, rfl, congrArg some (masked_eq_filter keep vals), hne⟩

theorem keepVals_next (hvals : m1.mod.values = some vals) (hpar : Parallel m1.mod) {p q : ν → Bool}
    {next : Modifications δ ν → Option (Modifications δ ν)}
    (h : ∀ m vals', m.mod.op = m1.mod.op → m.mod.desc = m1.mod.desc → m.mod.values = some vals' → vals' ≠ [] →
      Parallel m.mod → next m = keepVals m vals' q) :
    (keepVals m1 vals p).bind next = keepVals m1 vals fun v => p v && q v := by
  rw [← keepVals_bind]
  unfold keepVals
  if hp : masked (vals.map p) vals = [] then rw [if_pos hp, Option.bind_none, Option.bind_none]
  else
    rw [if_neg hp, Option.bind_some, Option.bind_some]
    exact h _ _ rfl rfl rfl hp (parallel_keptMod hpar hvals p)

end Kept

end

section

variable [DecidableEq δ] [DecidableEq ν] {sch : ResolveSchema δ ν}

omit [DecidableEq δ] in
theorem compareVals_eq {m1 m2 : Modification δ ν} {vals : List ν} (hlogged : m2.nvalues = none) (hvals : m1.values = some vals)
    (hpar : Parallel m1) : compareVals m1 m2 = keptMod m1 vals fun v => decide (v ∉ m2.values.getD []) := by
  have hrun : ∀ (ws : List ν) (m : Modification δ ν) (vals : List ν), m.values = some vals → Parallel m →
      ws.foldl (fun m v =>
        let mask := (m.values.getD []).map fun w => decide (w ≠ v)
        { m with values := m.values.map (masked mask), nvalues := m.nvalues.map (masked mask) }) m =
          keptMod m vals fun v => decide (v ∉ ws) := by
    intro ws
    induction ws with
    | nil =>
      intro m vals hvals hpar
      simpa using (keptMod_true hvals hpar).symm
    | cons w ws ih =>
      intro m vals hvals hpar
      have hstep : ({ m with
          values := m.values.map (masked ((m.values.getD []).map fun v => decide (v ≠ w)))
          nvalues := m.nvalues.map (masked ((m.values.getD []).map fun v => decide (v ≠ w))) } : Modification δ ν) =
            keptMod m vals fun v => decide (v ≠ w) := by
        simp only [keptMod, hvals, Option.getD_some, Option.map_some]
      rw [foldl_cons]
      dsimp only
      rw [hstep, ih _ _ rfl (parallel_keptMod hpar hvals _), keptMod_keptMod]
      simp only [mem_cons, not_or, Bool.decide_and]
  unfold compareVals
  rw [hlogged]
  exact hrun _ m1 vals hvals hpar

omit [DecidableEq δ] in
theorem cancelVals_eq {m1 : Modifications δ ν} {m2 : Modification δ ν} {vals : List ν} (hlogged : m2.nvalues = none)
    (hvals : m1.mod.values = some vals) (hpar : Parallel m1.mod) :
    cancelVals m1 m2 = keepVals m1 vals fun v => decide (v ∉ m2.values.getD []) := by
  unfold cancelVals keepVals
  rw [compareVals_eq hlogged hvals hpar]
  simp only [numvals, keptMod, Option.getD_some, length_eq_zero_iff]

def Leaves (sch : ResolveSchema δ ν) (d : δ) (m2 : Modification δ ν) (v : ν) : Prop :=
  m2.desc = d → ¬ Clears m2 ∧ ¬ (sch.singleValue d = true ∧ m2.op = .add) ∧ ¬ Names m2 v

instance (sch : ResolveSchema δ ν) (d : δ) (m2 : Modification δ ν) (v : ν) : Decidable (Leaves sch d m2 v) :=
  inferInstanceAs (Decidable (_ → _))

theorem resolveMod_valued {m1 : Modifications δ ν} {m2 : Modification δ ν} {vals : List ν} (hlogged : m2.nvalues = none)
    (hop : m1.mod.op = .add ∨ m1.mod.op = .delete) (hvals : m1.mod.values = some vals) (hne : vals ≠ []) (hpar : Parallel m1.mod) :
    resolveMod sch m2 m1 = keepVals m1 vals fun v => decide (Leaves sch m1.mod.desc m2 v) := by
  have hnum : numvals m1.mod ≠ 0 := by simpa [numvals, hvals] using hne
  have hcancel := cancelVals_eq hlogged hvals hpar
  unfold resolveMod
  if hdesc : m1.mod.desc = m2.desc then
    rw [if_neg (not_not.mpr hdesc)]
    cases hop2 : m2.op with
    | replace =>
      have hleaves : ∀ v, ¬ Leaves sch m1.mod.desc m2 v := fun v h => (h hdesc.symm).1 (.inl hop2)
      simp [resolveDelete, hop2, hleaves, keepVals_false]
    | delete =>
      if hzero : numvals m2 = 0 then
        have hleaves : ∀ v, ¬ Leaves sch m1.mod.desc m2 v := fun v h => (h hdesc.symm).1 (.inr ⟨hop2, hzero⟩)
        simp [resolveDelete, hop2, hzero, hleaves, keepVals_false]
      else
        have hleaves : ∀ v, Leaves sch m1.mod.desc m2 v ↔ v ∉ m2.values.getD [] := by
          simp [Leaves, Clears, Names, hop2, hzero, hdesc]
        obtain hop | hop := hop
        · simp [resolveDelete, hop2, hzero, hop, hcancel, hleaves]
        · simp [resolveDelete, hop2, hzero, hop, hnum, hcancel, hleaves]
    | add =>
      have hleaves : ∀ v, Leaves sch m1.mod.desc m2 v ↔ ¬ sch.singleValue m2.desc = true ∧ v ∉ m2.values.getD [] := by
        simp [Leaves, Clears, Names, hop2, hdesc]
      simp only [reduceCtorEq, or_self, if_false, or_false, if_true, Option.bind_some, resolveAdd, hleaves, hnum, hcancel]
      if hsv : sch.singleValue m2.desc = true then simp [hsv, keepVals_false]
      else
        simp only [hsv, Bool.false_eq_true, if_false, not_false_eq_true, true_and]
        obtain hop | hop := hop
        · simp [hop, hcancel]
        · -- the values are compared twice
          rw [if_pos hop]
          rw [keepVals_next hvals hpar fun m vals' _ _ hvals' _ hpar' => cancelVals_eq hlogged hvals' hpar']
          simp
    | _ =>
      have hleaves : ∀ v, Leaves sch m1.mod.desc m2 v := by simp [Leaves, Clears, Names, hop2]
      simp [hleaves, keepVals_true hvals hne hpar]
  else
    have hleaves : ∀ v, Leaves sch m1.mod.desc m2 v := fun v h => absurd h.symm hdesc
    simp [hdesc, hleaves, keepVals_true hvals hne hpar]

theorem resolveAll_valued {m1 : Modifications δ ν} {vals : List ν} (hlogged : Logged newmods)
    (hop : m1.mod.op = .add ∨ m1.mod.op = .delete) (hvals : m1.mod.values = some vals) (hne : vals ≠ []) (hpar : Parallel m1.mod) :
    resolveAll sch newmods m1 = keepVals m1 vals fun v => decide (∀ m2 ∈ newmods, Leaves sch m1.mod.desc m2 v) := by
  induction newmods generalizing m1 vals with
  | nil => simpa [resolveAll] using (keepVals_true hvals hne hpar).symm
  | cons m2 ms ih =>
    have hms : Logged ms := fun m hm => hlogged m (mem_cons_of_mem _ hm)
    unfold resolveAll
    rw [resolveMod_valued (hlogged m2 (mem_cons_self ..)).1 hop hvals hne hpar]
    have hnext : ∀ m vals', m.mod.op = m1.mod.op → m.mod.desc = m1.mod.desc → m.mod.values = some vals' → vals' ≠ [] →
        Parallel m.mod → resolveAll sch ms m = keepVals m vals' fun v => decide (∀ m2 ∈ ms, Leaves sch m1.mod.desc m2 v) := by
      intro m vals' hop' hdesc' hvals' hne' hpar'
      rw [ih hms (hop' ▸ hop) hvals' hne' hpar', hdesc']
    rw [keepVals_next hvals hpar hnext]
    simp only [forall_mem_cons, Bool.decide_and]

theorem resolveMod_deleteAll {m1 : Modifications δ ν} {m2 : Modification δ ν} (hop : m1.mod.op = .delete)
    (hvals : m1.mod.values = none) :
    resolveMod sch m2 m1 =
      if m2.desc = m1.mod.desc ∧ (Clears m2 ∨ m2.op = .add) then none
      else if m2.desc = m1.mod.desc ∧ m2.op = .delete then some { m1 with internal := true }
      else some m1 := by
  have hnum : numvals m1.mod = 0 := by simp [numvals, hvals]
  unfold resolveMod
  if hdesc : m1.mod.desc = m2.desc then
    rw [if_neg (not_not.mpr hdesc)]
    cases hop2 : m2.op with
    | delete =>
      if hzero : numvals m2 = 0 then simp [resolveDelete, Clears, hop2, hdesc, hzero]
      else simp [resolveDelete, Clears, hop, hop2, hnum, hdesc, hzero]
    | replace => simp [resolveDelete, Clears, hop2, hdesc]
    | add => simp [resolveAdd, hop, hnum, hdesc]
    | _ => simp [Clears, hop2]
  else simp [hdesc, Ne.symm hdesc]

theorem resolveAll_deleteAll {m1 : Modifications δ ν} (hop : m1.mod.op = .delete) (hvals : m1.mod.values = none) :
    resolveAll sch newmods m1 =
      if Cleared newmods m1.mod.desc ∨ Added newmods m1.mod.desc then none
      else if ∃ m2 ∈ newmods, m2.desc = m1.mod.desc ∧ m2.op = .delete then some { m1 with internal := true }
      else some m1 := by
  induction newmods generalizing m1 with
  | nil => simp [resolveAll, Cleared, Added]
  | cons m2 ms ih =>
    have hgone : Cleared (m2 :: ms) m1.mod.desc ∨ Added (m2 :: ms) m1.mod.desc ↔
        (m2.desc = m1.mod.desc ∧ (Clears m2 ∨ m2.op = .add)) ∨ Cleared ms m1.mod.desc ∨ Added ms m1.mod.desc := by
      simp only [Cleared, Added, exists_mem_cons_iff, and_or_left]
      exact or_or_or_comm
    unfold resolveAll
    rw [resolveMod_deleteAll hop hvals]
    if hdrop : m2.desc = m1.mod.desc ∧ (Clears m2 ∨ m2.op = .add) then
      rw [if_pos hdrop, if_pos (hgone.mpr (.inl hdrop)), Option.bind_none]
    else
      have hgone := hgone.trans (or_iff_right hdrop)
      simp only [if_neg hdrop, hgone, exists_mem_cons_iff]
      if hsoft : m2.desc = m1.mod.desc ∧ m2.op = .delete then
        have ih := @ih { m1 with internal := true } hop hvals
        rw [if_pos hsoft, Option.bind_some, ih]
        simp [hsoft]
      else
        rw [if_neg hsoft, Option.bind_some, ih hop hvals]
        simp [hsoft]

theorem rowFate_softdel (hlogged : Logged newmods) (hdrop : ¬ (Cleared newmods d ∨ Added newmods d)) :
    rowFate sch newmods d .deleteAll = if ∃ m2 ∈ newmods, m2.desc = d ∧ m2.op = .delete then .softdel else .ok := by
  have hmem : Fate.softdel ∈
      ((newmods.filter fun m2 => d = m2.desc).flatMap rows).map (table (sch.singleValue d) (sch.same d) .deleteAll) ↔
        ∃ m2 ∈ newmods, m2.desc = d ∧ m2.op = .delete := by
    simp only [List.mem_map, mem_flatMap, mem_filter, decide_eq_true_eq]
    constructor
    · rintro ⟨r', ⟨m2, ⟨hm2, hd⟩, hr'⟩, hsoft⟩
      cases r' with
      | delete w => exact ⟨m2, hm2, hd.symm, (mem_rows_delete.mp hr').1⟩
      | _ => simp [table] at hsoft
    · rintro ⟨m2, hm2, hd, hop⟩
      have hnum : 0 < numvals m2 := Nat.pos_of_ne_zero fun hzero => hdrop (.inl ⟨m2, hm2, hd, .inr ⟨hop, hzero⟩⟩)
      obtain ⟨w, hw⟩ := exists_mem_of_length_pos hnum
      exact ⟨.delete w, ⟨m2, ⟨hm2, hd.symm⟩, mem_rows_delete.mpr ⟨hop, hw⟩⟩, rfl⟩
  have hnot := (@rowFate_deleteAll _ _ _ _ _ _ sch hlogged).not.mpr hdrop
  unfold rowFate at hnot ⊢
  dsimp only at hnot ⊢
  split_ifs at hnot ⊢ with h₁ h₂ h₃ h₃
  all_goals simp_all

theorem deleteAll_exact {m1 : Modifications δ ν} (hlogged : Logged newmods) (hop : m1.mod.op = .delete)
    (hvals : m1.mod.values = none) : resolveAll sch newmods m1 = tableFate sch newmods m1 := by
  rw [resolveAll_deleteAll hop hvals]
  simp only [tableFate, hop, hvals]
  if hdrop : Cleared newmods m1.mod.desc ∨ Added newmods m1.mod.desc then
    rw [if_pos hdrop, (rowFate_deleteAll hlogged).mpr hdrop]
  else
    rw [if_neg hdrop, rowFate_softdel hlogged hdrop]
    split_ifs <;> rfl

omit [DecidableEq δ] [DecidableEq ν] in
theorem leaves_iff {v : ν} :
    (∀ m2 ∈ newmods, Leaves sch d m2 v) ↔
      ¬ Cleared newmods d ∧ ¬ (sch.singleValue d = true ∧ Added newmods d) ∧ ¬ Named newmods d v := by
  unfold Leaves Cleared Added Named
  constructor
  · intro h
    refine ⟨?_, ?_, ?_⟩
    · rintro ⟨m2, hm2, hd, hclears⟩
      exact (h m2 hm2 hd).1 hclears
    · rintro ⟨hsv, m2, hm2, hd, hop⟩
      exact (h m2 hm2 hd).2.1 ⟨hsv, hop⟩
    · rintro ⟨m2, hm2, hd, hnames⟩
      exact (h m2 hm2 hd).2.2 hnames
  · rintro ⟨hclear, hadd, hname⟩ m2 hm2 hd
    exact ⟨fun h => hclear ⟨m2, hm2, hd, h⟩, fun h => hadd ⟨h.1, m2, hm2, hd, h.2⟩, fun h => hname ⟨m2, hm2, hd, h⟩⟩

def ValueOk (sch : ResolveSchema δ ν) (newmods : List (Modification δ ν)) (m : Modification δ ν) (v : ν) : Prop :=
  Cleared newmods m.desc ∨
    if sch.singleValue m.desc = true ∧ Added newmods m.desc then m.op = .delete → Alike sch newmods m.desc v
    else Alike sch newmods m.desc v → Named newmods m.desc v

def rowOf (op : ModOp) (v : ν) : Row ν := if op = .add then .add v else .delete v

theorem valueOk_iff {m : Modification δ ν} {v : ν} (hlogged : Logged newmods) (hop : m.op = .add ∨ m.op = .delete) :
    ValueOk sch newmods m v ↔
      ((∀ m2 ∈ newmods, Leaves sch m.desc m2 v) ↔ rowFate sch newmods m.desc (rowOf m.op v) ≠ .drop) := by
  have hnamed : Named newmods m.desc v → Alike sch newmods m.desc v := Named.alike
  rw [leaves_iff]
  unfold ValueOk rowOf
  obtain hop | hop := hop
  · simp only [hop, if_true, ne_eq, rowFate_add hlogged, reduceCtorEq, false_implies]
    split_ifs with hsv <;> grind
  · simp only [hop, reduceCtorEq, if_false, ne_eq, rowFate_delete, true_implies]
    split_ifs with hsv <;> grind

theorem tableFate_valued {m1 : Modifications δ ν} {vals : List ν} (hop : m1.mod.op = .add ∨ m1.mod.op = .delete)
    (hvals : m1.mod.values = some vals) :
    tableFate sch newmods m1 =
      keepVals m1 vals fun v => decide (rowFate sch newmods m1.mod.desc (rowOf m1.mod.op v) ≠ .drop) := by
  unfold rowOf
  obtain hop | hop := hop
  · simp only [tableFate, hop, hvals, if_true]
  · simp only [tableFate, hop, hvals, reduceCtorEq, if_false]

def NoEmptyAdd (ms : List (Modifications δ ν)) : Prop := ∀ m ∈ ms, m.mod.op = .add → numvals m.mod ≠ 0

/-- A modification that `mods_dup` makes of an add, a delete or a replace. -/
structure Older (m1 : Modifications δ ν) : Prop where
  op : m1.mod.op = .add ∨ m1.mod.op = .delete
  parallel : Parallel m1.mod
  values : ∀ vals, m1.mod.values = some vals → vals ≠ []

omit [DecidableEq δ] [DecidableEq ν] in
theorem older_modDup {op : ModOp} {m : Modification δ ν} (hop : op = .add ∨ op = .delete) : Older (modDup op m) := by
  unfold modDup
  split_ifs with hnum
  · exact ⟨hop, fun ns h => (nomatch h), fun vals h => (nomatch h)⟩
  · refine ⟨hop, fun ns hns => ?_, fun vals hvals => ?_⟩
    · obtain ⟨ns', -, rfl⟩ := Option.map_eq_some_iff.mp hns
      exact length_take_le _ _
    · have hvals : m.values = some vals := hvals
      rintro rfl
      exact hnum (by simp [numvals, hvals])

omit [DecidableEq ν] in
theorem older_modsDup {older : List (Modification δ ν)} (hold : ∀ m ∈ older, m.op = .add ∨ m.op = .delete ∨ m.op = .replace) :
    ∀ m1 ∈ modsDup sch true older, Older m1 := by
  induction older with
  | nil => exact fun m1 h => absurd h not_mem_nil
  | cons m ms ih =>
    have ih := ih fun m' hm' => hold m' (mem_cons_of_mem _ hm')
    unfold modsDup
    split_ifs with hopattr hreplace
    · exact ih
    · simp only [forall_mem_cons]
      exact ⟨⟨.inr rfl, fun ns h => (nomatch h), fun vals h => (nomatch h)⟩, older_modDup (.inl rfl), ih⟩
    · simp only [forall_mem_cons]
      refine ⟨older_modDup ?_, ih⟩
      obtain hop | hop | hop := hold m (mem_cons_self ..)
      · exact .inl hop
      · exact .inr hop
      · exact absurd ⟨rfl, hop⟩ hreplace

omit [DecidableEq δ] [DecidableEq ν] in
theorem numvals_modDup (op : ModOp) (m : Modification δ ν) : numvals (modDup op m).mod = numvals m := by
  unfold modDup
  split_ifs with hnum
  · exact hnum.symm
  · rfl

omit [DecidableEq δ] [DecidableEq ν] in
theorem op_modDup (op : ModOp) (m : Modification δ ν) : (modDup op m).mod.op = op := by
  unfold modDup
  split_ifs <;> rfl

omit [DecidableEq ν] in
theorem noEmptyAdd_modsDup {older : List (Modification δ ν)} :
    NoEmptyAdd (modsDup sch true older) ↔
      ∀ m ∈ older, isOpattr sch m.desc = false → m.op = .add ∨ m.op = .replace → numvals m ≠ 0 := by
  unfold NoEmptyAdd
  induction older with
  | nil => simp [modsDup]
  | cons m ms ih =>
    unfold modsDup
    rw [forall_mem_cons]
    split_ifs with hopattr hreplace
    · rw [ih]
      simp [hopattr.2]
    · have hno : isOpattr sch m.desc = false := by simpa using hopattr
      simp only [forall_mem_cons, ih, op_modDup, numvals_modDup, reduceCtorEq, false_implies, true_and, true_implies, hno,
        hreplace.2, false_or]
    · have hno : isOpattr sch m.desc = false := by simpa using hopattr
      have hop : m.op ≠ .replace := fun h => hreplace ⟨rfl, h⟩
      simp only [forall_mem_cons, ih, op_modDup, numvals_modDup, true_implies, hno, hop, or_false]

def Survives (ms : List (Modifications δ ν)) (op : ModOp) (d : δ) (v : ν) : Prop :=
  ∃ m ∈ ms, m.mod.op = op ∧ m.mod.desc = d ∧ v ∈ m.mod.values.getD []

omit [DecidableEq δ] [DecidableEq ν] in
theorem survives_filterMap {dup : List (Modifications δ ν)} {next : Modifications δ ν → Option (Modifications δ ν)}
    {keep : ModOp → δ → ν → Bool} {op : ModOp} {d : δ} {v : ν}
    (hvalued : ∀ m1 ∈ dup, ∀ vals, m1.mod.values = some vals → next m1 = keepVals m1 vals (keep m1.mod.op m1.mod.desc))
    (hall : ∀ m1 ∈ dup, m1.mod.values = none → ∀ m, next m1 = some m → m.mod.values = none) :
    Survives (dup.filterMap next) op d v ↔ Survives dup op d v ∧ keep op d v = true := by
  unfold Survives
  simp only [mem_filterMap]
  constructor
  · rintro ⟨m, ⟨m1, hm1, hnext⟩, rfl, rfl, hv⟩
    cases hvals : m1.mod.values with
    | none => simp [hall m1 hm1 hvals m hnext] at hv
    | some vals =>
      rw [hvalued m1 hm1 vals hvals] at hnext
      obtain ⟨hop, hdesc, hvals', -⟩ := keepVals_some hnext
      rw [hvals', Option.getD_some, mem_filter] at hv
      rw [hop, hdesc]
      exact ⟨⟨m1, hm1, rfl, rfl, by simpa [hvals] using hv.1⟩, hv.2⟩
  · rintro ⟨⟨m1, hm1, rfl, rfl, hv⟩, hkeep⟩
    cases hvals : m1.mod.values with
    | none => simp [hvals] at hv
    | some vals =>
      have hkept : v ∈ vals.filter (keep m1.mod.op m1.mod.desc) := List.mem_filter.mpr ⟨by simpa [hvals] using hv, hkeep⟩
      cases hnext : next m1 with
      | none =>
        rw [hvalued m1 hm1 vals hvals, keepVals, masked_eq_filter] at hnext
        split_ifs at hnext with hnil
        rw [hnil] at hkept
        cases hkept
      | some m =>
        have hsome := hvalued m1 hm1 vals hvals ▸ hnext
        obtain ⟨hop, hdesc, hvals', -⟩ := keepVals_some hsome
        exact ⟨m, ⟨m1, hm1, hnext⟩, hop, hdesc, by simpa [hvals'] using hkept⟩

def TableExact (sch : ResolveSchema δ ν) (newmods older : List (Modification δ ν)) : Prop :=
  syncreplResolveCb sch newmods (modsDup sch true older) = (modsDup sch true older).filterMap (tableFate sch newmods) ∧
    NoEmptyAdd (modsDup sch true older) ∧ NoEmptyAdd (syncreplResolveCb sch newmods (modsDup sch true older))

/-- No add or replace is without values, and every value is treated as the table says. -/
def ConflictOk (sch : ResolveSchema δ ν) (newmods older : List (Modification δ ν)) : Prop :=
  (∀ m ∈ older, isOpattr sch m.desc = false → m.op = .add ∨ m.op = .replace → numvals m ≠ 0) ∧
    ∀ m1 ∈ modsDup sch true older, ∀ v ∈ m1.mod.values.getD [], ValueOk sch newmods m1.mod v

omit [DecidableEq δ] [DecidableEq ν] in
theorem older_deleteAll {dup : List (Modifications δ ν)} {m1 : Modifications δ ν} (hempty : NoEmptyAdd dup) (hm1 : m1 ∈ dup)
    (hold : Older m1) (hvals : m1.mod.values = none) : m1.mod.op = .delete :=
  hold.op.resolve_left fun hop => hempty m1 hm1 hop (by simp [numvals, hvals])

theorem values_deleteAll {m1 m : Modifications δ ν} (hop : m1.mod.op = .delete) (hvals : m1.mod.values = none)
    (h : resolveAll sch newmods m1 = some m) : m.mod.values = none := by
  rw [resolveAll_deleteAll hop hvals] at h
  split_ifs at h
  · cases h
    exact hvals
  · cases h
    exact hvals

theorem valueOk_of_exact {older : List (Modification δ ν)} (hlogged : Logged newmods)
    (hold : ∀ m1 ∈ modsDup sch true older, Older m1) (h : TableExact sch newmods older) :
    ∀ m1 ∈ modsDup sch true older, ∀ v ∈ m1.mod.values.getD [], ValueOk sch newmods m1.mod v := by
  obtain ⟨heq, hempty, -⟩ := h
  intro m1 hm1 v hv
  rw [valueOk_iff hlogged (hold m1 hm1).op]
  have hthere : Survives (modsDup sch true older) m1.mod.op m1.mod.desc v := ⟨m1, hm1, rfl, rfl, hv⟩
  have hcode := @survives_filterMap δ ν (modsDup sch true older) (resolveAll sch newmods)
    (fun _ d v => decide (∀ m2 ∈ newmods, Leaves sch d m2 v)) m1.mod.op m1.mod.desc v
    (fun m hm vals hvals => resolveAll_valued hlogged (hold m hm).op hvals ((hold m hm).values vals hvals) (hold m hm).parallel)
    fun m hm hvals m' hnext => values_deleteAll (older_deleteAll hempty hm (hold m hm) hvals) hvals hnext
  have htable := @survives_filterMap δ ν (modsDup sch true older) (tableFate sch newmods)
    (fun op d v => decide (rowFate sch newmods d (rowOf op v) ≠ .drop)) m1.mod.op m1.mod.desc v
    (fun m hm vals hvals => tableFate_valued (hold m hm).op hvals)
    fun m hm hvals m' hnext => by
      have hop := older_deleteAll hempty hm (hold m hm) hvals
      exact values_deleteAll hop hvals (deleteAll_exact hlogged hop hvals ▸ hnext)
  rw [syncreplResolveCb_eq] at heq
  rw [heq, htable] at hcode
  simpa [hthere] using hcode.symm

theorem exact_of_valueOk {older : List (Modification δ ν)} (hlogged : Logged newmods)
    (hold : ∀ m1 ∈ modsDup sch true older, Older m1) (hempty : NoEmptyAdd (modsDup sch true older))
    (h : ∀ m1 ∈ modsDup sch true older, ∀ v ∈ m1.mod.values.getD [], ValueOk sch newmods m1.mod v) :
    TableExact sch newmods older := by
  have hcode : ∀ m1 ∈ modsDup sch true older, ∀ vals, m1.mod.values = some vals →
      resolveAll sch newmods m1 = keepVals m1 vals fun v => decide (∀ m2 ∈ newmods, Leaves sch m1.mod.desc m2 v) :=
    fun m1 hm1 vals hvals =>
      resolveAll_valued hlogged (hold m1 hm1).op hvals ((hold m1 hm1).values vals hvals) (hold m1 hm1).parallel
  refine ⟨?_, hempty, ?_⟩
  · rw [syncreplResolveCb_eq]
    refine filterMap_congr fun m1 hm1 => ?_
    cases hvals : m1.mod.values with
    | none => exact deleteAll_exact hlogged (older_deleteAll hempty hm1 (hold m1 hm1) hvals) hvals
    | some vals =>
      rw [hcode m1 hm1 vals hvals, tableFate_valued (hold m1 hm1).op hvals]
      refine keepVals_congr fun v hv => decide_eq_decide.mpr ?_
      exact (valueOk_iff hlogged (hold m1 hm1).op).mp (h m1 hm1 v (by simpa [hvals] using hv))
  · rw [syncreplResolveCb_eq]
    intro m hm hop
    obtain ⟨m1, hm1, hnext⟩ := List.mem_filterMap.mp hm
    cases hvals : m1.mod.values with
    | none =>
      have hdelete := older_deleteAll hempty hm1 (hold m1 hm1) hvals
      rw [resolveAll_deleteAll hdelete hvals] at hnext
      split_ifs at hnext <;> cases hnext <;> simp [hdelete] at hop
    | some vals =>
      obtain ⟨-, -, hvals', hne⟩ := keepVals_some (hcode m1 hm1 vals hvals ▸ hnext)
      simpa [numvals, hvals'] using hne

/-- The resolution follows the table exactly where no add or replace comes without values, the values that the equality rule
regards as the same have the same bytes, and nothing is deleted of a single value that is added later. -/
theorem conflict_table_exact_iff {lsch : LogSchema δ} {logged older : List (Modification δ ν)}
    (hold : ∀ m ∈ older, m.op = .add ∨ m.op = .delete ∨ m.op = .replace) :
    TableExact sch (syncreplAccesslogMods lsch (logMods logged)) older ↔
      ConflictOk sch (syncreplAccesslogMods lsch (logMods logged)) older := by
  have hlogged := logged_accesslogMods lsch logged
  have holder := @older_modsDup _ _ _ sch older hold
  constructor
  · intro h
    exact ⟨noEmptyAdd_modsDup.mp h.2.1, valueOk_of_exact hlogged holder h⟩
  · rintro ⟨hempty, hvalues⟩
    exact exact_of_valueOk hlogged holder (noEmptyAdd_modsDup.mpr hempty) hvalues

end

def lastDigit : EqualityRule ℕ := ⟨some fun v => some (v % 10), compare, fun v => by simp⟩

def digitSchema : ResolveSchema ℕ ℕ := ⟨0, 1, 2, fun d => d = 4, fun _ => some lastDigit⟩

def digitLog : LogSchema ℕ := ⟨9, fun _ => false, fun _ => false⟩

theorem conflict_table_exact_swap :
    TableExact digitSchema (syncreplAccesslogMods digitLog (logMods [⟨.delete, 3, some [1], none⟩, ⟨.add, 3, some [2], none⟩]))
      [⟨.replace, 3, some [2, 5], none⟩] := by
  refine (conflict_table_exact_iff (by simp)).mpr ⟨by simp [numvals], ?_⟩
  have hold : modsDup digitSchema true [⟨.replace, 3, some [2, 5], none⟩] =
      [⟨⟨.delete, 3, none, none⟩, false⟩, ⟨⟨.add, 3, some [2, 5], none⟩, false⟩] := by decide
  have hnew : syncreplAccesslogMods digitLog (logMods [⟨.delete, 3, some [1], none⟩, ⟨.add, 3, some [2], none⟩]) =
      [⟨.delete, 3, some [1], none⟩, ⟨.add, 3, some [2], none⟩] := by decide
  rw [hold, hnew]
  simp [ValueOk, Cleared, Clears, Added, Alike, Named, Names, numvals, digitSchema, ResolveSchema.same, EqualityRule.norm, lastDigit]

/-- A replace without values; two values that the rule regards as the same; a single value that is deleted, and another one that is
added later. -/
theorem conflict_table_broken :
    ¬ TableExact digitSchema (syncreplAccesslogMods digitLog (logMods [])) [⟨.replace, 3, none, none⟩] ∧
      ¬ TableExact digitSchema (syncreplAccesslogMods digitLog (logMods [⟨.delete, 3, some [1], none⟩]))
        [⟨.add, 3, some [11], some [1]⟩] ∧
      ¬ TableExact digitSchema (syncreplAccesslogMods digitLog (logMods [⟨.add, 4, some [2], none⟩]))
        [⟨.delete, 4, some [1], some [1]⟩] := by
  refine ⟨fun h => ?_, fun h => absurd h.1 (by decide), fun h => absurd h.1 (by decide)⟩
  exact h.2.1 ⟨⟨.add, 3, none, none⟩, false⟩ (by decide) rfl rfl

end Sync
end ReOpenLDAP
