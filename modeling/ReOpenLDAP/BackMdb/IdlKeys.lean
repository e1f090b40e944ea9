import ReOpenLDAP.BackMdb.Idl

/-!
# BackMdb.IdlKeys

`mdb_idl_insert_keys` and `mdb_idl_delete_keys`: one loop over the keys of an indexed value, each
key in one of four stored cases (absent, list with room, full list, range).

The loop of `mdb_idl_insert_keys` keeps two variables from one key to the next (`InsertVars`): the
put flag, and `id` itself, which the conversion of a full list to a range overwrites with the upper
bound of the range. `insertKey_spec` says what one key's pass does whatever `id` holds;
`Moves` and `Tolerates` say which keys change `id` and which keys do not mind.
-/

namespace ReOpenLDAP
namespace BackMdb

open List Function

abbrev IndexDb (κ : Type*) := κ → List Nat

/-- `mdbx_cursor_put` on the data items of a key with `MDBX_NODUPDATA`, and `MDBX_APPENDDUP` when
`appenddup`. With the latter libmdbx compares the new item with the last one only, after a look at
the first. -/
def mdbxCursorPut (appenddup : Bool) (x : Nat) (ds : List Nat) : Except Rc (List Nat) :=
  match ds.getLast? with
  | none => .ok [x]
  | some last =>
    if appenddup && x < last then
      if ds.head? = some x then .error .keyexist else .error .ekeymismatch
    else if x ∈ ds then .error .keyexist
    else .ok (DupSort.insert (fun y => y) x ds)

/-- `mdbx_cursor_put` with `MDBX_CURRENT` on the item at position `pos`. -/
def mdbxPutCurrent (pos : Nat) (x : Nat) (ds : List Nat) : Except Rc (List Nat) :=
  if pos < ds.length then .ok (DupSort.insert (fun y => y) x (ds.eraseIdx pos))
  else .error .notfound

/-- The variables of `mdb_idl_insert_keys` that survive from one key to the next. -/
structure InsertVars where
  id : Nat
  /-- `flag & MDBX_APPENDDUP` -/
  appenddup : Bool

/-- The `put1` label. -/
def put1 (v : InsertVars) (ds : List Nat) : Except Rc (InsertVars × List Nat) :=
  match mdbxCursorPut v.appenddup v.id ds with
  | .ok ds' => .ok (v, ds')
  -- Don't worry if it's already there
  | .error .keyexist => .ok (v, ds)
  | .error rc => .error rc

/-- The body of the loop of `mdb_idl_insert_keys`, on the data items `ds` of the key. -/
def insertKey (nextid : Nat) (v : InsertVars) (ds : List Nat) : Except Rc (InsertVars × List Nat) :=
  match ds with
  | [] => put1 { v with appenddup := false } []
  | first :: rest =>
    if first ≠ 0 then
      -- not a range, count the number of items
      if MDB_IDL_DB_MAX ≤ ds.length then
        -- No room, convert to a range
        let hi := (first :: rest).getLast (cons_ne_nil _ _)
        let bounds := if v.id < first then (v.id, hi) else if hi < v.id then (first, v.id) else (first, hi)
        -- the three puts store `id` itself, set to 0, to lo and to hi in turn
        .ok ({ v with id := bounds.2 },
          DupSort.insert (fun y => y) bounds.2 (DupSort.insert (fun y => y) bounds.1 [0]))
      else
        -- There's room, just store it
        put1 { v with appenddup := v.appenddup || v.id == nextid } ds
    else
      -- It's a range, see if we need to rewrite the boundaries
      let lo := ds.getD 1 0
      let hi := ds.getD 2 0
      if v.id < lo ∨ hi < v.id then do
        let ds' ← mdbxPutCurrent (if hi < v.id then 2 else 1) v.id ds
        .ok (v, ds')
      else .ok (v, ds)

variable {κ : Type*} [DecidableEq κ]

def insertLoop (nextid : Nat) : InsertVars → List κ → IndexDb κ → Except Rc (IndexDb κ)
  | _, [], db => .ok db
  | v, k :: ks, db =>
    match insertKey nextid v (db k) with
    | .error rc => .error rc
    | .ok (v', ds') => insertLoop nextid v' ks (Function.update db k ds')

/-- `mdb_idl_insert_keys`; `nextid` is `mdb_read_nextid(mdb)`. -/
def mdbIdlInsertKeys (nextid : Nat) (keys : List κ) (id : Nat) (db : IndexDb κ) : Except Rc (IndexDb κ) :=
  insertLoop nextid ⟨id, false⟩ keys db

/-- The body of the loop of `mdb_idl_delete_keys`. Every failed lookup ends in the `fail` label
with `MDBX_NOTFOUND`, which is no error there. -/
def deleteKey (id : Nat) (ds : List Nat) : List Nat :=
  match ds with
  | [] => []
  | first :: _ =>
    if first ≠ 0 then
      -- Not a range, just delete it
      DupSort.erase (fun y => y) id ds
    else
      let lo := ds.getD 1 0
      let hi := ds.getD 2 0
      if id = lo ∨ id = hi then
        let lo2 := if id = lo then lo + 1 else lo
        let hi2 := if id = lo then hi else hi - 1
        if hi2 ≤ lo2 then
          -- The range has collapsed...
          []
        else
          match mdbxPutCurrent (if id = lo then 1 else 2) (if id = lo then lo2 else hi2) ds with
          | .ok ds' => ds'
          | .error _ => ds
      else ds

def mdbIdlDeleteKeys (keys : List κ) (id : Nat) (db : IndexDb κ) : IndexDb κ :=
  keys.foldl (fun db k => Function.update db k (deleteKey id (db k))) db

variable {ds ds' : List Nat} {v' : InsertVars} {x nextid : Nat} {k : κ} {db db' : IndexDb κ} {keys pre : List κ}

theorem WellFormed.increasing (h : WellFormed ds) : Increasing ds := by
  cases h with
  | list hs _ _ => exact hs
  | range hlo hlt => simp [Increasing, DupSort.SortedBy]; omega

theorem head_ne_zero {first : Nat} {rest : List Nat} (h : 0 ∉ first :: rest) : first ≠ 0 :=
  fun e => h (by simp [e])

theorem put1_ok {v : InsertVars} (hs : Increasing ds)
    (h : put1 v ds = .ok (v', ds')) : v' = v ∧ ds' = DupSort.insert (fun y => y) v.id ds := by
  unfold put1 mdbxCursorPut at h
  cases hl : ds.getLast? with
  | none =>
    have hnil : ds = [] := List.getLast?_eq_none_iff.mp hl
    subst hnil
    cases h
    exact ⟨rfl, rfl⟩
  | some last =>
    rw [hl] at h
    by_cases happ : (v.appenddup && decide (v.id < last)) = true
    · simp only [happ, if_true] at h
      by_cases hhead : ds.head? = some v.id
      · simp only [hhead, if_true] at h
        cases h
        exact ⟨rfl, (DupSort.insert_of_mem hs (List.mem_of_mem_head? hhead)).symm⟩
      · simp [hhead] at h
    · by_cases hmem : v.id ∈ ds
      · simp only [happ, hmem] at h
        cases h
        exact ⟨rfl, (DupSort.insert_of_mem hs hmem).symm⟩
      · simp only [happ, hmem] at h
        cases h
        exact ⟨rfl, rfl⟩

theorem insert_bounds {lo hi : Nat} (hlo : 0 < lo) (hlt : lo < hi) :
    DupSort.insert (fun y => y) hi (DupSort.insert (fun y => y) lo [0]) = [0, lo, hi] := by
  have h1 : DupSort.insert (fun y => y) lo [0] = [0, lo] := by
    simp [DupSort.insert, hlo.ne']
  rw [h1, DupSort.insert_of_forall_lt (by simp; omega)]
  rfl

theorem putCurrent_hi {lo : Nat} (hi : Nat) (hlo : 0 < lo) (hx : lo < x) : mdbxPutCurrent 2 x [0, lo, hi] = .ok [0, lo, x] := by
  have h0 : x ≠ 0 := by omega
  simp [mdbxPutCurrent, DupSort.insert, h0, hx.not_gt, hx.ne']

theorem putCurrent_lo {hi : Nat} (lo : Nat) (h0 : 0 < x) (hx : x < hi) : mdbxPutCurrent 1 x [0, lo, hi] = .ok [0, x, hi] := by
  simp [mdbxPutCurrent, DupSort.insert, h0.ne', hx]

theorem increasing_head_lt_last {first : Nat} {rest : List Nat} (hs : Increasing (first :: rest))
    (hlen : 2 ≤ (first :: rest).length) : first < (first :: rest).getLast (cons_ne_nil _ _) := by
  have hrest : rest ≠ [] := by
    rintro rfl
    simp at hlen
  rw [getLast_cons hrest]
  exact (DupSort.sortedBy_cons.mp hs).1 _ (getLast_mem hrest)

/-- What the pass over one key does, whatever the variable `id` holds: a list with room gets it, a
full list becomes the range that covers it and moves `id` to the upper bound, a range grows. -/
theorem insertKey_cases {v : InsertVars} (hwf : WellFormed ds) (hid : 0 < v.id) (h : insertKey nextid v ds = .ok (v', ds')) :
    (0 ∉ ds ∧ ds.length < MDB_IDL_DB_MAX ∧ v'.id = v.id ∧
      ds' = DupSort.insert (fun y => y) v.id ds) ∨
    (∃ first last, 0 ∉ ds ∧ MDB_IDL_DB_MAX ≤ ds.length ∧ ds.head? = some first ∧
      ds.getLast? = some last ∧ first < last ∧ v'.id = max last v.id ∧
      ds' = [0, min first v.id, max last v.id]) ∨
    (∃ lo hi, ds = [0, lo, hi] ∧ v'.id = v.id ∧ ds' = [0, min lo v.id, max hi v.id]) := by
  cases hwf with
  | list hs h0 hlen =>
    cases ds with
    | nil =>
      obtain ⟨rfl, rfl⟩ := put1_ok hs h
      exact .inl ⟨by simp, by decide, rfl, rfl⟩
    | cons first rest =>
      have hf := head_ne_zero h0
      by_cases hfull : MDB_IDL_DB_MAX ≤ (first :: rest).length
      · have hlt := increasing_head_lt_last hs (le_trans (by decide) hfull)
        refine .inr (.inl ⟨first, _, h0, hfull, rfl,
          List.getLast?_eq_getLast_of_ne_nil (cons_ne_nil _ _), hlt, ?_⟩)
        simp only [insertKey, ne_eq, hf, not_false_eq_true, if_true, hfull] at h
        generalize (first :: rest).getLast (cons_ne_nil _ _) = last at *
        simp only [Except.ok.injEq, Prod.mk.injEq] at h
        obtain ⟨rfl, rfl⟩ := h
        -- the caller's ID is below, above or inside the old bounds
        split_ifs with h1 h2
        · rw [insert_bounds hid (by omega), max_eq_left (by omega), min_eq_right (by omega)]
          exact ⟨rfl, rfl⟩
        · rw [insert_bounds (by omega) (by omega), max_eq_right (by omega), min_eq_left (by omega)]
          exact ⟨rfl, rfl⟩
        · rw [insert_bounds (by omega) hlt, max_eq_left (by omega), min_eq_left (by omega)]
          exact ⟨rfl, rfl⟩
      · refine .inl ⟨h0, by omega, ?_⟩
        simp only [insertKey, ne_eq, hf, not_false_eq_true, if_true, hfull, if_false] at h
        obtain ⟨rfl, rfl⟩ := put1_ok hs h
        exact ⟨rfl, rfl⟩
  | @range lo hi hlo hlt =>
    refine .inr (.inr ⟨lo, hi, rfl, ?_⟩)
    simp only [insertKey, ne_eq, not_true_eq_false, if_false, getD_cons_succ,
      getD_cons_zero] at h
    split_ifs at h with hout habove
    · have hput : mdbxPutCurrent 2 v.id [0, lo, hi] = .ok [0, lo, v.id] := putCurrent_hi _ hlo (by omega)
      rw [hput] at h
      cases h
      rw [min_eq_left (by omega), max_eq_right (by omega)]
      exact ⟨rfl, rfl⟩
    · have hput : mdbxPutCurrent 1 v.id [0, lo, hi] = .ok [0, v.id, hi] := putCurrent_lo _ hid (by omega)
      rw [hput] at h
      cases h
      rw [min_eq_right (by omega), max_eq_left (by omega)]
      exact ⟨rfl, rfl⟩
    · cases h
      rw [min_eq_left (by omega), max_eq_left (by omega)]
      exact ⟨rfl, rfl⟩

theorem head?_ne_zero (h : 0 ∉ ds) : ds.head? ≠ some 0 :=
  fun e => h (List.mem_of_mem_head? e)

theorem mem_denote_insert {y : Nat} (hs : Increasing ds) (h0 : 0 ∉ ds) (hx : 0 < x) :
    y ∈ denote (DupSort.insert (fun z => z) x ds) ↔ y = x ∨ y ∈ ds := by
  have h0' : 0 ∉ DupSort.insert (fun z => z) x ds := by
    rw [DupSort.mem_insert hs]
    rintro (h | ⟨h, -⟩)
    · omega
    · exact h0 h
  rw [denote_list h0', DupSort.mem_insert hs]
  by_cases hyx : y = x <;> simp [hyx]

theorem mem_bounds {first last : Nat} (hs : Increasing ds) (hf : ds.head? = some first)
    (hl : ds.getLast? = some last) (hx : x ∈ ds) : first ≤ x ∧ x ≤ last := by
  cases ds with
  | nil => cases hx
  | cons y ys =>
    simp only [List.head?_cons, Option.some.injEq] at hf
    subst hf
    have hle := hs.le_getLast (cons_ne_nil _ _) hx
    rw [List.getLast?_eq_getLast_of_ne_nil (cons_ne_nil _ _), Option.some.injEq] at hl
    refine ⟨?_, hl ▸ hle⟩
    rcases List.mem_cons.mp hx with rfl | hx
    · exact le_rfl
    · exact ((DupSort.sortedBy_cons.mp hs).1 x hx).le

theorem insertKey_spec {v : InsertVars} (hwf : WellFormed ds) (hid : 0 < v.id) (h : insertKey nextid v ds = .ok (v', ds')) :
    WellFormed ds' ∧ v.id ≤ v'.id ∧ v.id ∈ denote ds' ∧ denote ds ⊆ denote ds' := by
  have hs := hwf.increasing
  rcases insertKey_cases hwf hid h with ⟨h0, hlen, hv, rfl⟩ | ⟨first, last, h0, -, hf, hl, hlt, hv, rfl⟩ |
    ⟨lo, hi, rfl, hv, rfl⟩
  · refine ⟨.list (DupSort.insert_sortedBy hs) ?_ ?_, hv.ge, ?_, fun y hy => ?_⟩
    · rw [DupSort.mem_insert hs]
      rintro (hz | ⟨hz, -⟩)
      · omega
      · exact h0 hz
    · exact (DupSort.length_insert_le _ _).trans hlen
    · exact (mem_denote_insert hs h0 hid).mpr (.inl rfl)
    · exact (mem_denote_insert hs h0 hid).mpr (.inr ((denote_list h0).mp hy))
  · have hfirst : first ≠ 0 := fun e => head?_ne_zero h0 (e ▸ hf)
    refine ⟨.range (by omega) (by omega), by omega, denote_range.mpr (by omega), fun y hy => ?_⟩
    have := mem_bounds hs hf hl ((denote_list h0).mp hy)
    exact denote_range.mpr (by omega)
  · cases hwf with
    | list _ h0 _ => simp at h0
    | range hlo hlt =>
      refine ⟨.range (by omega) (by omega), hv.ge, denote_range.mpr (by omega), fun y hy => ?_⟩
      have := denote_range.mp hy
      exact denote_range.mpr (by omega)

/-- A full list some member of which exceeds `id`: its conversion to a range moves the variable. -/
def Moves (id : Nat) (ds : List Nat) : Prop :=
  ds.head? ≠ some 0 ∧ MDB_IDL_DB_MAX ≤ ds.length ∧ id < ds.getLastD 0

/-- A key that stands for `id` after the insertion of any greater ID. -/
def Tolerates (id : Nat) (ds : List Nat) : Prop :=
  if ds.head? = some 0 then ds.getD 1 0 ≤ id
  else if MDB_IDL_DB_MAX ≤ ds.length then ds.headD 0 ≤ id
  else id ∈ ds

theorem insertKey_id {v : InsertVars} (hwf : WellFormed ds)
    (hid : 0 < v.id) (h : insertKey nextid v ds = .ok (v', ds')) : v.id < v'.id ↔ Moves v.id ds := by
  rcases insertKey_cases hwf hid h with ⟨-, hlen, hv, -⟩ | ⟨first, last, h0, hlen, -, hl, -, hv, -⟩ |
    ⟨lo, hi, rfl, hv, -⟩
  · refine iff_of_false (by omega) fun hm => ?_
    have := hm.2.1
    omega
  · have hd : ds.getLastD 0 = last := by rw [List.getLastD_eq_getLast?, hl]; rfl
    rw [Moves, hd, hv]
    refine ⟨fun hlt => ⟨head?_ne_zero h0, hlen, by omega⟩, fun hm => by omega⟩
  · exact iff_of_false (by omega) fun hm => hm.1 rfl

theorem insertKey_tolerates {id : Nat} {v : InsertVars}
    (hwf : WellFormed ds) (hlt : id < v.id) (h : insertKey nextid v ds = .ok (v', ds')) :
    id ∈ denote ds' ↔ Tolerates id ds := by
  have hs := hwf.increasing
  have hpos : 0 < v.id := by omega
  rcases insertKey_cases hwf hpos h with ⟨h0, hlen, -, rfl⟩ | ⟨first, last, h0, hlen, hf, hl, -, -, rfl⟩ |
    ⟨lo, hi, rfl, -, rfl⟩
  · rw [mem_denote_insert hs h0 hpos, Tolerates, if_neg (head?_ne_zero h0), if_neg (by omega)]
    exact ⟨fun hor => hor.resolve_left hlt.ne, .inr⟩
  · have hd : ds.headD 0 = first := by rw [List.headD_eq_head?_getD, hf]; rfl
    rw [denote_range, Tolerates, if_neg (head?_ne_zero h0), if_pos hlen, hd]
    omega
  · rw [denote_range, Tolerates, if_pos List.head?_cons]
    simp only [getD_cons_succ, getD_cons_zero]
    omega

theorem tolerates_of_mem {id : Nat} (hwf : WellFormed ds) (h : id ∈ denote ds) : Tolerates id ds := by
  cases hwf with
  | list hs h0 _ =>
    rw [denote_list h0] at h
    rw [Tolerates, if_neg (head?_ne_zero h0)]
    split
    · cases ds with
      | nil => cases h
      | cons first rest =>
        exact (mem_bounds hs rfl (List.getLast?_eq_getLast_of_ne_nil (cons_ne_nil _ _)) h).1
    · exact h
  | range hlo hlt => simpa [Tolerates] using (denote_range.mp h).1

/-! ## The loop over the keys -/

def WellFormedDb (db : IndexDb κ) : Prop := ∀ k, WellFormed (db k)

theorem WellFormedDb.update (h : WellFormedDb db) (hds : WellFormed ds) : WellFormedDb (Function.update db k ds) := by
  intro k'
  by_cases hk : k' = k
  · subst hk
    simpa using hds
  · simpa [hk] using h k'

theorem insertLoop_cons_ok {v : InsertVars} {ks : List κ} (h : insertLoop nextid v (k :: ks) db = .ok db') :
    ∃ v' ds', insertKey nextid v (db k) = .ok (v', ds') ∧
      insertLoop nextid v' ks (Function.update db k ds') = .ok db' := by
  unfold insertLoop at h
  cases hk : insertKey nextid v (db k) with
  | error rc => simp [hk] at h
  | ok r => exact ⟨r.1, r.2, rfl, by simpa [hk] using h⟩

/-- What holds of the whole loop whatever `id` becomes on the way: keys outside the list are left
alone, no key loses an ID, and every key stays well formed. -/
theorem insertLoop_frame {v : InsertVars} (hwf : WellFormedDb db) (hid : 0 < v.id) (h : insertLoop nextid v keys db = .ok db') :
    WellFormedDb db' ∧ (∀ k, denote (db k) ⊆ denote (db' k)) ∧ ∀ k, k ∉ keys → db' k = db k := by
  induction keys generalizing v db with
  | nil =>
    cases h
    exact ⟨hwf, fun _ => subset_rfl, fun _ _ => rfl⟩
  | cons k ks ih =>
    obtain ⟨v', ds', hkey, hrest⟩ := insertLoop_cons_ok h
    obtain ⟨hwf', hle, -, hsub⟩ := insertKey_spec (hwf k) hid hkey
    obtain ⟨hdb, hmono, hframe⟩ := ih (hwf.update hwf') (by omega) hrest
    refine ⟨hdb, fun k' => ?_, fun k' hk' => ?_⟩
    · refine subset_trans ?_ (hmono k')
      by_cases hkk : k' = k
      · subst hkk
        simpa using hsub
      · simp [hkk]
    · simp only [mem_cons, not_or] at hk'
      obtain ⟨hne, hks⟩ := hk'
      rw [hframe k' hks]
      simp [hne]

/-- Once the variable `id` exceeds the caller's, a key of the list ends up with the caller's ID if
every key still to come tolerates that. -/
theorem insertLoop_of_tolerates {id : Nat} {v : InsertVars}
    (hwf : WellFormedDb db) (hlt : id < v.id) (htol : ∀ k ∈ keys, Tolerates id (db k))
    (h : insertLoop nextid v keys db = .ok db') : ∀ k ∈ keys, id ∈ denote (db' k) := by
  induction keys generalizing v db with
  | nil => simp
  | cons k ks ih =>
    obtain ⟨v', ds', hkey, hrest⟩ := insertLoop_cons_ok h
    obtain ⟨hwf', hle, -, -⟩ := insertKey_spec (hwf k) (by omega) hkey
    have hmem : id ∈ denote ds' := (insertKey_tolerates (hwf k) hlt hkey).mpr (htol k mem_cons_self)
    have hwfu := hwf.update (k := k) hwf'
    have htol' : ∀ k' ∈ ks, Tolerates id (Function.update db k ds' k') := fun k' hk' => by
      by_cases hkk : k' = k
      · subst hkk
        simpa using tolerates_of_mem hwf' hmem
      · simpa [hkk] using htol k' (mem_cons_of_mem _ hk')
    intro k' hk'
    rcases List.mem_cons.mp hk' with rfl | hk'
    · exact (insertLoop_frame hwfu (by omega) hrest).2.1 k' (by simpa using hmem)
    · exact ih hwfu (by omega) htol' hrest k' hk'

/-- What `mdb_idl_insert_keys` finds under `k` after it has stored `id` under the keys of `pre`. -/
def storedAfter (db : IndexDb κ) (id : Nat) (pre : List κ) (k : κ) : List Nat :=
  if k ∈ pre then DupSort.insert (fun y => y) id (db k) else db k

/-- The variable `id` is moved only where no later key minds: behind a full list with a member
greater than `id` stand only keys that were met before or tolerate a greater ID. -/
def KeepsId (db : IndexDb κ) (id : Nat) (keys : List κ) : Prop :=
  ∀ pre k post, keys = pre ++ k :: post → Moves id (storedAfter db id pre k) →
    ∀ k' ∈ post, k' ∈ pre ∨ k' = k ∨ Tolerates id (db k')

/-- A pass with the caller's ID leaves a list that moves the variable only by adding the ID to a
list with room. -/
theorem eq_insert_of_moves {id : Nat} {a : Bool}
    (hwf : WellFormed ds) (hid : 0 < id) (h : insertKey nextid ⟨id, a⟩ ds = .ok (v', ds'))
    (hm : Moves id ds') : 0 ∉ ds ∧ ds' = DupSort.insert (fun y => y) id ds := by
  rcases insertKey_cases hwf hid h with ⟨h0, -, -, hds⟩ | ⟨_, _, -, -, -, -, -, -, rfl⟩ | ⟨_, _, -, -, rfl⟩
  · exact ⟨h0, hds⟩
  · exact absurd rfl hm.1
  · exact absurd rfl hm.1

/-- The state of the loop while the variable `id` still holds the caller's: `pre` is done. -/
structure Unmoved (db : IndexDb κ) (id : Nat) (pre : List κ) (cur : IndexDb κ) : Prop where
  wf : WellFormedDb cur
  untouched : ∀ k, k ∉ pre → cur k = db k
  stored : ∀ k ∈ pre, id ∈ denote (cur k)
  form : ∀ k ∈ pre, Moves id (cur k) → cur k = DupSort.insert (fun y => y) id (db k)

theorem Unmoved.moves_storedAfter {cur : IndexDb κ} {id : Nat}
    (hu : Unmoved db id pre cur) (hm : Moves id (cur k)) : Moves id (storedAfter db id pre k) := by
  unfold storedAfter
  split
  · next hk => exact hu.form k hk hm ▸ hm
  · next hk => exact hu.untouched k hk ▸ hm

theorem Unmoved.step {db cur : IndexDb κ} {nextid id : Nat} {a : Bool} {pre : List κ} {k : κ} {v' : InsertVars}
    {ds' : List Nat} (hu : Unmoved db id pre cur) (hid : 0 < id)
    (h : insertKey nextid ⟨id, a⟩ (cur k) = .ok (v', ds')) (hm : ¬ Moves id (cur k)) :
    Unmoved db id (pre ++ [k]) (Function.update cur k ds') := by
  obtain ⟨hwf', -, hmem, -⟩ := insertKey_spec (hu.wf k) hid h
  refine ⟨hu.wf.update hwf', fun k' hk' => ?_, fun k' hk' => ?_, fun k' hk' hmv => ?_⟩
  · simp only [mem_append, mem_singleton, not_or] at hk'
    simpa [hk'.2] using hu.untouched k' hk'.1
  · by_cases hkk : k' = k
    · subst hkk
      simpa using hmem
    · have : k' ∈ pre := by simpa [hkk] using hk'
      simpa [hkk] using hu.stored k' this
  · by_cases hkk : k' = k
    · subst hkk
      simp only [update_self] at hmv ⊢
      obtain ⟨h0, hds⟩ := eq_insert_of_moves (hu.wf k') hid h hmv
      by_cases hpre : k' ∈ pre
      -- met before: the ID is there already, and the pass changed nothing
      · have hin := (denote_list h0).mp (hu.stored k' hpre)
        rw [hds, DupSort.insert_of_mem (hu.wf k').increasing hin] at hmv
        exact absurd hmv hm
      · rw [hds, hu.untouched k' hpre]
    · have : k' ∈ pre := by simpa [hkk] using hk'
      simp only [update_of_ne hkk] at hmv ⊢
      exact hu.form k' this hmv

theorem insertLoop_of_keepsId {id : Nat} {a : Bool} {cur : IndexDb κ} {ks : List κ}
    (hid : 0 < id) (hkeep : KeepsId db id (pre ++ ks)) (hu : Unmoved db id pre cur)
    (h : insertLoop nextid ⟨id, a⟩ ks cur = .ok db') : ∀ k ∈ ks, id ∈ denote (db' k) := by
  induction ks generalizing a pre cur with
  | nil => simp
  | cons k ks ih =>
    obtain ⟨v', ds', hkey, hrest⟩ := insertLoop_cons_ok h
    obtain ⟨hwf', hle, hmem, -⟩ := insertKey_spec (hu.wf k) hid hkey
    have hwfu := hu.wf.update (k := k) hwf'
    have hrestmem : ∀ k' ∈ ks, id ∈ denote (db' k') := by
      by_cases hm : Moves id (cur k)
      · -- from here on the variable is greater than the caller's ID
        have hlt : id < v'.id := (insertKey_id (hu.wf k) hid hkey).mpr hm
        have htol := hkeep pre k ks rfl (hu.moves_storedAfter hm)
        refine insertLoop_of_tolerates hwfu hlt (fun k' hk' => ?_) hrest
        by_cases hkk : k' = k
        · subst hkk
          simpa using tolerates_of_mem hwf' hmem
        · rw [update_of_ne hkk]
          by_cases hpre : k' ∈ pre
          · exact tolerates_of_mem (hu.wf k') (hu.stored k' hpre)
          · rw [hu.untouched k' hpre]
            exact ((htol k' hk').resolve_left hpre).resolve_left hkk
      · have hv : v' = ⟨id, v'.appenddup⟩ := by
          have := mt (insertKey_id (hu.wf k) hid hkey).mp hm
          have heq : v'.id = id := by simp only at hle this; omega
          rw [← heq]
        rw [hv] at hrest
        exact ih (by simpa using hkeep) (hu.step hid hkey hm) hrest
    intro k' hk'
    rcases List.mem_cons.mp hk' with rfl | hk'
    · exact (insertLoop_frame hwfu (by simp only at hle; omega) hrest).2.1 k' (by simpa using hmem)
    · exact hrestmem k' hk'

/-- With the variable above the caller's ID, a key met once gets the caller's ID only if it
tolerates the greater one. -/
theorem tolerates_of_insertLoop {id : Nat} {v : InsertVars} (hwf : WellFormedDb db) (hlt : id < v.id) (hnd : keys.Nodup)
    (h : insertLoop nextid v keys db = .ok db') : ∀ k ∈ keys, id ∈ denote (db' k) → Tolerates id (db k) := by
  induction keys generalizing v db with
  | nil => simp
  | cons k ks ih =>
    obtain ⟨hk, hnd⟩ := List.nodup_cons.mp hnd
    obtain ⟨v', ds', hkey, hrest⟩ := insertLoop_cons_ok h
    obtain ⟨hwf', hle, -, -⟩ := insertKey_spec (hwf k) (by omega) hkey
    have hwfu := hwf.update (k := k) hwf'
    intro k' hk' hmem
    rcases List.mem_cons.mp hk' with rfl | hk'
    · rw [(insertLoop_frame hwfu (by omega) hrest).2.2 k' hk, update_self] at hmem
      exact (insertKey_tolerates (hwf k') hlt hkey).mp hmem
    · have hne : k' ≠ k := fun e => hk (e ▸ hk')
      simpa [hne] using ih hwfu (by omega) hnd hrest k' hk' hmem

theorem tolerates_behind_moves {id : Nat} {post : List κ} {v : InsertVars} (hwf : WellFormedDb db) (hid : 0 < id) (hle : id ≤ v.id)
    (hnd : (pre ++ k :: post).Nodup) (hm : Moves id (db k))
    (h : insertLoop nextid v (pre ++ k :: post) db = .ok db') :
    ∀ k' ∈ post, id ∈ denote (db' k') → Tolerates id (db k') := by
  induction pre generalizing v db with
  | nil =>
    obtain ⟨hk, hnd⟩ := List.nodup_cons.mp hnd
    obtain ⟨v', ds', hkey, hrest⟩ := insertLoop_cons_ok h
    obtain ⟨hwf', hle', -, -⟩ := insertKey_spec (hwf k) (by omega) hkey
    have hlt : id < v'.id := by
      rcases Nat.lt_or_eq_of_le hle with hlt | rfl
      · omega
      · exact (insertKey_id (hwf k) hid hkey).mpr hm
    intro k' hk' hmem
    have hne : k' ≠ k := fun e => hk (e ▸ hk')
    simpa [hne] using tolerates_of_insertLoop (hwf.update hwf') hlt hnd hrest k' hk' hmem
  | cons p pre ih =>
    obtain ⟨hp, hnd⟩ := List.nodup_cons.mp hnd
    obtain ⟨v', ds', hkey, hrest⟩ := insertLoop_cons_ok h
    obtain ⟨hwf', hle', -, -⟩ := insertKey_spec (hwf p) (by omega) hkey
    have hkp : k ≠ p := fun e => hp (by simp [e])
    intro k' hk' hmem
    have hne : k' ≠ p := fun e => hp (by simp [← e, hk'])
    have := ih (hwf.update (k := p) hwf') (by omega) hnd (by simpa [hkp] using hm) hrest k' hk' hmem
    simpa [hne] using this

/-- What an insertion of `id` under `keys` is for. -/
structure InsertComplete (db db' : IndexDb κ) (keys : List κ) (id : Nat) : Prop where
  stored : ∀ k ∈ keys, id ∈ denote (db' k)
  kept : ∀ k, denote (db k) ⊆ denote (db' k)
  frame : ∀ k, k ∉ keys → db' k = db k
  wf : WellFormedDb db'

theorem insertKeys_complete {id : Nat} (hwf : WellFormedDb db)
    (hid : 0 < id) (hkeep : KeepsId db id keys) (h : mdbIdlInsertKeys nextid keys id db = .ok db') :
    InsertComplete db db' keys id := by
  obtain ⟨hwf', hmono, hframe⟩ := insertLoop_frame hwf hid h
  have hu : Unmoved db id [] db := ⟨hwf, fun _ _ => rfl, by simp, by simp⟩
  exact ⟨insertLoop_of_keepsId hid hkeep hu h, hmono, hframe, hwf'⟩

theorem keepsId_of_complete {id : Nat} (hwf : WellFormedDb db)
    (hid : 0 < id) (hnd : keys.Nodup) (h : mdbIdlInsertKeys nextid keys id db = .ok db')
    (hc : InsertComplete db db' keys id) : KeepsId db id keys := by
  rintro pre k post rfl hm k' hk'
  have hk : k ∉ pre := fun hk => (List.nodup_append.mp hnd).2.2 k hk k mem_cons_self rfl
  rw [storedAfter, if_neg hk] at hm
  refine .inr (.inr (tolerates_behind_moves hwf hid le_rfl hnd hm h k' hk' ?_))
  exact hc.stored k' (by simp [hk'])

/-- When `mdb_idl_insert_keys` does its work: `KeepsId` is enough for every list of keys, and for a
list without repeated keys it is exactly when. -/
theorem insertKeys_complete_iff_keepsId {nextid id : Nat} {keys : List κ} {db db' : IndexDb κ}
    (hwf : WellFormedDb db) (hid : 0 < id) (h : mdbIdlInsertKeys nextid keys id db = .ok db') :
    (KeepsId db id keys → InsertComplete db db' keys id) ∧
    (keys.Nodup → (InsertComplete db db' keys id ↔ KeepsId db id keys)) :=
  ⟨fun hkeep => insertKeys_complete hwf hid hkeep h, fun hnd =>
    ⟨keepsId_of_complete hwf hid hnd h, fun hkeep => insertKeys_complete hwf hid hkeep h⟩⟩

/-- The same two keys, both absent: nothing moves and both get the ID. -/
theorem insertKeys_complete_of_absent :
    mdbIdlInsertKeys 1 [false, true] 1 (fun _ : Bool => []) = .ok (Function.update (Function.update
      (fun _ => []) false [1]) true [1]) ∧
    ((KeepsId (fun _ : Bool => []) 1 [false, true] → InsertComplete (fun _ : Bool => [])
      (Function.update (Function.update (fun _ => []) false [1]) true [1]) [false, true] 1) ∧
    ([false, true].Nodup → (InsertComplete (fun _ : Bool => [])
      (Function.update (Function.update (fun _ => []) false [1]) true [1]) [false, true] 1 ↔
        KeepsId (fun _ : Bool => []) 1 [false, true]))) := by
  have hrun : mdbIdlInsertKeys 1 [false, true] 1 (fun _ : Bool => []) = .ok (Function.update
      (Function.update (fun _ => []) false [1]) true [1]) := rfl
  refine ⟨hrun, insertKeys_complete_iff_keepsId (fun _ => ?_) (by decide) hrun⟩
  exact .list DupSort.sortedBy_nil (by simp) (by decide)

/-- `false` lists the IDs from 2 on, as many as fit; `true` is absent. -/
def fullDb : IndexDb Bool
  | false => List.range' 2 MDB_IDL_DB_MAX
  | true => []

theorem range'_increasing (s n : Nat) : Increasing (List.range' s n) :=
  pairwise_lt_range'

theorem fullDb_wellFormed : WellFormedDb fullDb := by
  rintro (_ | _)
  · exact .list (range'_increasing _ _) (by simp [fullDb, mem_range'_1]) (by simp [fullDb])
  · exact .list DupSort.sortedBy_nil (by simp [fullDb]) (by decide)

theorem insertKey_full {first last : Nat} (nextid : Nat) (v : InsertVars) (hwf : WellFormed ds)
    (hid : 0 < v.id) (h0 : 0 ∉ ds) (hfull : MDB_IDL_DB_MAX ≤ ds.length) (hf : ds.head? = some first)
    (hl : ds.getLast? = some last) :
    ∃ v', v'.id = max last v.id ∧ insertKey nextid v ds = .ok (v', [0, min first v.id, max last v.id]) := by
  obtain ⟨⟨v', ds'⟩, hok⟩ : ∃ r, insertKey nextid v ds = .ok r := by
    cases ds with
    | nil => simp at hf
    | cons x xs =>
      simp only [insertKey, ne_eq, head_ne_zero h0, not_false_eq_true, if_true, hfull]
      exact ⟨_, rfl⟩
  rcases insertKey_cases hwf hid hok with ⟨_, hlt, _, _⟩ | ⟨f, l, _, _, hf', hl', _, hv, rfl⟩ | ⟨_, _, rfl, _, _⟩
  · omega
  · simp only [hf, hl, Option.some.injEq] at hf' hl'
    subst hf' hl'
    exact ⟨v', hv, hok⟩
  · simp at h0

theorem getLast?_range'_succ (s n : Nat) : (List.range' s (n + 1)).getLast? = some (s + n) := by
  simp [List.range'_concat]

/-- Two keys, the first a full list of greater IDs: the second key gets the list's last ID in place
of the caller's. -/
theorem insertKeys_full_then_absent : ∃ db', mdbIdlInsertKeys 65537 [false, true] 1 fullDb = .ok db' ∧
    db' true = [65536] ∧ ¬ InsertComplete fullDb db' [false, true] 1 := by
  have hlast : (fullDb false).getLast? = some 65536 := getLast?_range'_succ 2 65534
  have hhead : (fullDb false).head? = some 2 := by simp [fullDb, List.head?_range', MDB_IDL_DB_MAX]
  have h0 : 0 ∉ fullDb false := by simp [fullDb, mem_range'_1]
  obtain ⟨v', hv, hkey⟩ := insertKey_full 65537 ⟨1, false⟩ (fullDb_wellFormed false)
    (by decide) h0 (by simp [fullDb]) hhead hlast
  refine ⟨Function.update (Function.update fullDb false [0, 1, 65536]) true [65536], ?_, by simp, fun hc => ?_⟩
  · rw [mdbIdlInsertKeys, insertLoop, hkey]
    simp [insertLoop, insertKey, put1, mdbxCursorPut, show fullDb true = [] from rfl, hv]
  · have := hc.stored true (by simp)
    rw [update_self, denote_list (by decide)] at this
    simp at this

end BackMdb
end ReOpenLDAP
