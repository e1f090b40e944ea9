import ReOpenLDAP.BackMdb.IdlKeys
import ReOpenLDAP.Lib.Run

/-!
# BackMdb.IdlHistory

Runs of `mdb_idl_insert_keys` and `mdb_idl_delete_keys` on one index database. The state of a run is
the database and, for each key, the IDs inserted under it and not deleted since (`live`).

`mdb_idl_delete_keys` drops a range of two adjacent IDs when either of them is deleted
(`Collapses`), and so loses the other one; every other deletion takes away the one ID at most.
-/

namespace ReOpenLDAP
namespace BackMdb

open List

/-- A range of two adjacent IDs, one of which is `id`. -/
def Collapses (id : Nat) (ds : List Nat) : Prop :=
  ∃ lo, ds = [0, lo, lo + 1] ∧ (id = lo ∨ id = lo + 1)

/-- What the pass over one key does: a list loses the ID, a range is left alone, dropped, or
shortened by one at the end that is deleted. -/
theorem deleteKey_cases {ds : List Nat} (id : Nat) (hwf : WellFormed ds) :
    (0 ∉ ds ∧ deleteKey id ds = DupSort.erase (fun y => y) id ds) ∨
    (∃ lo hi, ds = [0, lo, hi] ∧ id ≠ lo ∧ id ≠ hi ∧ deleteKey id ds = ds) ∨
    (Collapses id ds ∧ deleteKey id ds = []) ∨
    (∃ hi, ds = [0, id, hi] ∧ id + 1 < hi ∧ deleteKey id ds = [0, id + 1, hi]) ∨
    (∃ lo, ds = [0, lo, id] ∧ lo + 1 < id ∧ deleteKey id ds = [0, lo, id - 1]) := by
  cases hwf with
  | list hs h0 _ =>
    refine .inl ⟨h0, ?_⟩
    cases ds with
    | nil => rfl
    | cons first rest => simp [deleteKey, head_ne_zero h0]
  | @range lo hi hlo hlt =>
    right
    by_cases hout : id ≠ lo ∧ id ≠ hi
    · refine .inl ⟨lo, hi, rfl, hout.1, hout.2, ?_⟩
      simp [deleteKey, hout]
    · by_cases hadj : hi = lo + 1
      · subst hadj
        refine .inr (.inl ⟨⟨lo, rfl, by omega⟩, ?_⟩)
        by_cases hid : id = lo
        · simp [deleteKey, hid]
        · simp [deleteKey, show id = lo + 1 by omega]
      · by_cases hid : id = lo
        · subst hid
          refine .inr (.inr (.inl ⟨hi, rfl, by omega, ?_⟩))
          have hput := putCurrent_lo id (show 0 < id + 1 by omega) (show id + 1 < hi by omega)
          simp [deleteKey, hput, show ¬ hi ≤ id + 1 by omega]
        · obtain rfl : id = hi := by omega
          refine .inr (.inr (.inr ⟨lo, rfl, by omega, ?_⟩))
          have hput := putCurrent_hi id hlo (show lo < id - 1 by omega)
          simp [deleteKey, hid, hput, show ¬ id - 1 ≤ lo by omega]

theorem deleteKey_wellFormed {ds : List Nat} (id : Nat) (hwf : WellFormed ds) :
    WellFormed (deleteKey id ds) := by
  rcases deleteKey_cases id hwf with ⟨h0, hd⟩ | ⟨lo, hi, rfl, -, -, hd⟩ | ⟨-, hd⟩ |
    ⟨hi, rfl, hlt, hd⟩ | ⟨lo, rfl, hlt, hd⟩ <;> rw [hd]
  · cases hwf with
    | list hs _ hlen =>
      refine .list (DupSort.erase_sortedBy hs) (fun h => h0 (DupSort.mem_erase.mp h).1) ?_
      exact (length_filter_le _ _).trans hlen
    | range => simp at h0
  · exact hwf
  · exact .list DupSort.sortedBy_nil (by simp) (by decide)
  · exact .range (by omega) (by omega)
  · cases hwf with
    | list _ h0 _ => simp at h0
    | range hlo _ => exact .range hlo (by omega)

theorem deleteKey_keeps {id x : Nat} {ds : List Nat} (hwf : WellFormed ds) (hc : ¬ Collapses id ds)
    (hx : x ∈ denote ds) (hne : x ≠ id) : x ∈ denote (deleteKey id ds) := by
  rcases deleteKey_cases id hwf with ⟨h0, hd⟩ | ⟨lo, hi, rfl, -, -, hd⟩ | ⟨hc', -⟩ |
    ⟨hi, rfl, hlt, hd⟩ | ⟨lo, rfl, hlt, hd⟩
  · rw [hd, denote_list fun h => h0 (DupSort.mem_erase.mp h).1]
    exact DupSort.mem_erase.mpr ⟨(denote_list h0).mp hx, hne⟩
  · rwa [hd]
  · exact absurd hc' hc
  · have := denote_range.mp hx
    rw [hd]
    exact denote_range.mpr (by omega)
  · have := denote_range.mp hx
    rw [hd]
    exact denote_range.mpr (by omega)

theorem denote_nil : denote [] = ∅ := by simp [denote, mdbIdlFetchKey]

theorem deleteKey_of_collapses {id : Nat} {ds : List Nat} (h : Collapses id ds) : deleteKey id ds = [] := by
  obtain ⟨lo, rfl, rfl | rfl⟩ := h <;> simp [deleteKey]

theorem deleteKey_deleteKey {id : Nat} {ds : List Nat} (hwf : WellFormed ds) :
    deleteKey id (deleteKey id ds) = deleteKey id ds := by
  rcases deleteKey_cases id hwf with ⟨h0, hd⟩ | ⟨lo, hi, rfl, -, -, hd⟩ | ⟨-, hd⟩ |
    ⟨hi, rfl, hlt, hd⟩ | ⟨lo, rfl, hlt, hd⟩
  · have h0' : 0 ∉ deleteKey id ds := by
      rw [hd]
      exact fun h => h0 (DupSort.mem_erase.mp h).1
    rcases deleteKey_cases id (deleteKey_wellFormed id hwf) with ⟨-, hdd⟩ |
      ⟨_, _, he, _⟩ | ⟨⟨_, he, _⟩, _⟩ | ⟨_, he, _⟩ | ⟨_, he, _⟩
    · rw [hdd, hd]
      simp [DupSort.erase]
    all_goals simp [he] at h0'
  · rw [hd, hd]
  · rw [hd]
    rfl
  · rw [hd]
    simp [deleteKey, show ¬ id = hi by omega]
  · rw [hd]
    simp [deleteKey, show ¬ id = lo by omega, show ¬ id = id - 1 by omega]

variable {κ : Type*} [DecidableEq κ]

theorem deleteKeys_apply {id : Nat} {keys : List κ} {db : IndexDb κ} (hwf : WellFormedDb db) (k : κ) :
    mdbIdlDeleteKeys keys id db k = if k ∈ keys then deleteKey id (db k) else db k := by
  induction keys generalizing db with
  | nil => simp [mdbIdlDeleteKeys]
  | cons k0 ks ih =>
    have hwf' := hwf.update (k := k0) (deleteKey_wellFormed id (hwf k0))
    have hstep : mdbIdlDeleteKeys (k0 :: ks) id db =
        mdbIdlDeleteKeys ks id (Function.update db k0 (deleteKey id (db k0))) := rfl
    rw [hstep, ih hwf']
    by_cases hk : k = k0
    · subst hk
      simp [deleteKey_deleteKey (hwf k)]
    · simp [hk]

theorem deleteKeys_wellFormed {id : Nat} {keys : List κ} {db : IndexDb κ} (hwf : WellFormedDb db) :
    WellFormedDb (mdbIdlDeleteKeys keys id db) := by
  intro k
  rw [deleteKeys_apply hwf]
  split
  · exact deleteKey_wellFormed id (hwf k)
  · exact hwf k

/-! ## Runs -/

/-- An index database, and for each key the IDs inserted and not deleted since. -/
structure IndexState (κ : Type*) where
  db : IndexDb κ
  live : κ → Set Nat

inductive Call (κ : Type*) where
  | insert (nextid : Nat) (keys : List κ) (id : Nat)
  | delete (keys : List κ) (id : Nat)

inductive CallStep : IndexState κ → Call κ → IndexState κ → Prop where
  | insert {s : IndexState κ} {nextid id : Nat} {keys : List κ} {db' : IndexDb κ} : 0 < id →
      mdbIdlInsertKeys nextid keys id s.db = .ok db' →
      CallStep s (.insert nextid keys id) ⟨db', fun k => {x | x ∈ s.live k ∨ (k ∈ keys ∧ x = id)}⟩
  | delete {s : IndexState κ} {id : Nat} {keys : List κ} :
      CallStep s (.delete keys id) ⟨mdbIdlDeleteKeys keys id s.db,
        fun k => {x | x ∈ s.live k ∧ ¬ (k ∈ keys ∧ x = id)}⟩

/-- A call that reaches neither defect: an insertion keeps its ID from key to key, and a deletion
collapses no range whose other ID is live. -/
def SafeCall (s : IndexState κ) : Call κ → Prop
  | .insert _ keys id => KeepsId s.db id keys
  | .delete keys id => ∀ k ∈ keys, Collapses id (s.db k) → s.live k ⊆ {id}

structure Sound (s : IndexState κ) : Prop where
  wf : WellFormedDb s.db
  live : ∀ k, s.live k ⊆ denote (s.db k)

theorem delete_live_iff {s : IndexState κ} {keys : List κ} {id : Nat} (hs : Sound s) :
    (∀ k x, x ∈ s.live k → ¬ (k ∈ keys ∧ x = id) → x ∈ denote (mdbIdlDeleteKeys keys id s.db k)) ↔
      SafeCall s (.delete keys id) := by
  constructor
  · intro hall k hk hc x hx
    by_contra hne
    have := hall k x hx fun h => hne h.2
    rw [deleteKeys_apply hs.wf, if_pos hk, deleteKey_of_collapses hc, denote_nil] at this
    exact this
  · intro hsafe k x hx hne
    rw [deleteKeys_apply hs.wf]
    split
    · next hk =>
      have hxid : x ≠ id := fun e => hne ⟨hk, e⟩
      exact deleteKey_keeps (hs.wf k) (fun hc => hxid (hsafe k hk hc hx)) (hs.live k hx) hxid
    · exact hs.live k hx

theorem sound_step {s s' : IndexState κ} {c : Call κ} (hs : Sound s) (h : CallStep s c s' ∧ SafeCall s c) :
    Sound s' := by
  obtain ⟨hstep, hsafe⟩ := h
  cases hstep with
  | insert hid hok =>
    have hc := insertKeys_complete hs.wf hid hsafe hok
    refine ⟨hc.wf, fun k x hx => ?_⟩
    rcases hx with hx | ⟨hk, rfl⟩
    · exact hc.kept k (hs.live k hx)
    · exact hc.stored k hk
  | delete =>
    refine ⟨deleteKeys_wellFormed hs.wf, fun k x hx => ?_⟩
    exact (delete_live_iff hs).mpr hsafe k x hx.1 hx.2

/-- Exactly the safe deletions leave every live ID in place, and over every run of safe calls each
key denotes at least its live IDs. -/
theorem live_subset_denote {s : IndexState κ} (hs : Sound s) :
    (∀ keys id, (∀ k x, x ∈ s.live k → ¬ (k ∈ keys ∧ x = id) → x ∈ denote (mdbIdlDeleteKeys keys id s.db k)) ↔
      SafeCall s (.delete keys id)) ∧
    ∀ calls s', Steps (fun s c s' => CallStep s c s' ∧ SafeCall s c) s calls s' →
      ∀ k, s'.live k ⊆ denote (s'.db k) :=
  ⟨fun _ _ => delete_live_iff hs, fun _ _ h => (h.invariant Sound (fun _ _ _ => sound_step) hs).live⟩

def emptyIndex (κ : Type*) : IndexState κ := ⟨fun _ => [], fun _ => ∅⟩

omit [DecidableEq κ] in
theorem emptyIndex_sound : Sound (emptyIndex κ) :=
  ⟨fun _ => .list DupSort.sortedBy_nil (by simp [emptyIndex]) (by simp [emptyIndex]),
    fun _ => Set.empty_subset _⟩

theorem live_subset_denote_insert_delete : ∃ s' : IndexState Unit,
    Steps (fun s c s' => CallStep s c s' ∧ SafeCall s c) (emptyIndex Unit)
      [.insert 1 [()] 1, .delete [()] 1] s' ∧ ∀ k, s'.live k ⊆ denote (s'.db k) := by
  have hins : CallStep (emptyIndex Unit) (.insert 1 [()] 1) _ :=
    .insert (by decide) (rfl : _ = Except.ok (Function.update (fun _ => []) () [1]))
  have hkeep : KeepsId (emptyIndex Unit).db 1 [()] := by
    intro pre k post he _ k' hk'
    have hlen := congrArg List.length he
    have := length_pos_of_mem hk'
    simp only [length_append, length_cons, length_nil] at hlen
    omega
  obtain ⟨s', hrun⟩ : ∃ s', Steps (fun s c s' => CallStep s c s' ∧ SafeCall s c) (emptyIndex Unit)
      [.insert 1 [()] 1, .delete [()] 1] s' := by
    refine ⟨_, .cons ⟨hins, hkeep⟩ (.single ⟨.delete, ?_⟩)⟩
    intro k _ hc
    obtain ⟨lo, he, _⟩ := hc
    simp at he
  exact ⟨s', hrun, (live_subset_denote emptyIndex_sound).2 _ _ hrun⟩

theorem insertKey_room {ds : List Nat} (nextid id : Nat) (hs : Increasing ds) (h0 : 0 ∉ ds)
    (hlen : ds.length < MDB_IDL_DB_MAX) (hnext : id ≠ nextid) :
    insertKey nextid ⟨id, false⟩ ds = .ok (⟨id, false⟩, DupSort.insert (fun y => y) id ds) := by
  have hput : put1 ⟨id, false⟩ ds = .ok (⟨id, false⟩, DupSort.insert (fun y => y) id ds) := by
    unfold put1 mdbxCursorPut
    cases hl : ds.getLast? with
    | none => simp [List.getLast?_eq_none_iff.mp hl, DupSort.insert]
    | some last =>
      by_cases hmem : id ∈ ds
      · simp [hmem, DupSort.insert_of_mem hs hmem]
      · simp [hmem]
  cases ds with
  | nil => exact hput
  | cons first rest =>
    simp only [insertKey, ne_eq, head_ne_zero h0, not_false_eq_true, if_true, not_le.mpr hlen, if_false,
      Bool.false_or, beq_eq_false_iff_ne.mpr hnext]
    exact hput

theorem insert_step {s : IndexState Unit} {nextid id : Nat} {v' : InsertVars} {ds' : List Nat} (hid : 0 < id)
    (h : insertKey nextid ⟨id, false⟩ (s.db ()) = .ok (v', ds')) :
    CallStep s (.insert nextid [()] id) ⟨fun _ => ds', fun _ => {x | x ∈ s.live () ∨ x = id}⟩ := by
  have hok : mdbIdlInsertKeys nextid [()] id s.db = .ok (fun _ => ds') := by
    simp only [mdbIdlInsertKeys, insertLoop, h, Except.ok.injEq]
    funext u
    simp
  have := CallStep.insert hid hok
  simpa using this

theorem delete_step {s : IndexState Unit} (id : Nat) :
    CallStep s (.delete [()] id) ⟨fun _ => deleteKey id (s.db ()), fun _ => {x | x ∈ s.live () ∧ x ≠ id}⟩ := by
  have hdb : mdbIdlDeleteKeys [()] id s.db = fun _ => deleteKey id (s.db ()) := by
    funext u
    simp [mdbIdlDeleteKeys]
  have := @CallStep.delete _ _ s id [()]
  rw [hdb] at this
  simpa using this

theorem fill_run (n : Nat) (hn : n ≤ MDB_IDL_DB_MAX) :
    ∃ calls s, Steps CallStep (emptyIndex Unit) calls s ∧ s.db () = List.range' 1 n := by
  induction n with
  | zero => exact ⟨[], _, .refl, rfl⟩
  | succ n ih =>
    obtain ⟨calls, s, hrun, hdb⟩ := ih (by omega)
    have hkey := insertKey_room 0 (n + 1) (range'_increasing 1 n)
      (by simp [mem_range'_1]) (by rw [length_range']; omega) (by omega)
    have hlt : ∀ y ∈ List.range' 1 n, y < n + 1 := by
      simp only [mem_range'_1]
      omega
    rw [DupSort.insert_of_forall_lt hlt, ← hdb] at hkey
    refine ⟨_, _, hrun.trans (.single (insert_step (by omega) hkey)), ?_⟩
    simp only [hdb, List.range'_concat]
    congr 2
    omega

theorem shrink_run (n : Nat) (hn : n < MDB_IDL_DB_MAX) :
    ∃ calls s, Steps CallStep (emptyIndex Unit) calls s ∧ s.db () = [0, n + 1, MDB_IDL_DB_MAX + 1] ∧
      MDB_IDL_DB_MAX + 1 ∈ s.live () := by
  induction n with
  | zero =>
    obtain ⟨calls, s, hrun, hdb⟩ := fill_run MDB_IDL_DB_MAX le_rfl
    have h0 : 0 ∉ s.db () := by simp [hdb, mem_range'_1]
    have hlen : (s.db ()).length = MDB_IDL_DB_MAX := by simp [hdb]
    have hinc : Increasing (s.db ()) := hdb ▸ range'_increasing _ _
    have hhead : (s.db ()).head? = some 1 := by
      rw [hdb]
      simp [List.head?_range', MDB_IDL_DB_MAX]
    have hlast : (s.db ()).getLast? = some MDB_IDL_DB_MAX := by
      rw [hdb]
      exact getLast?_range'_succ 1 (MDB_IDL_DB_MAX - 1)
    obtain ⟨v', -, hkey⟩ := insertKey_full 0 ⟨MDB_IDL_DB_MAX + 1, false⟩ (.list hinc h0 hlen.le)
      (by simp) h0 hlen.ge hhead hlast
    refine ⟨_, _, hrun.trans (.single (insert_step (by simp) hkey)), ?_, by simp⟩
    simp
  | succ n ih =>
    obtain ⟨calls, s, hrun, hdb, hlive⟩ := ih (by omega)
    refine ⟨_, _, hrun.trans (.single (delete_step (n + 1))), ?_, hlive, by omega⟩
    have hne : ¬ MDB_IDL_DB_MAX + 1 ≤ n + 1 + 1 := by omega
    have hput := putCurrent_lo (n + 1) (show 0 < n + 1 + 1 by omega)
      (show n + 1 + 1 < MDB_IDL_DB_MAX + 1 by omega)
    simp [hdb, deleteKey, hne, hput]

/-- Insert 1 to 65536 under one key, then delete 1 to 65535: the last deletion drops the key and
with it 65536, which is live. -/
theorem delete_run_loses_live : ∃ calls s, Steps CallStep (emptyIndex Unit) calls s ∧
    65536 ∈ s.live () ∧ 65536 ∉ denote (s.db ()) := by
  obtain ⟨calls, s, hrun, hdb, hlive⟩ := shrink_run 65534 (by decide)
  refine ⟨_, _, hrun.trans (.single (delete_step 65535)), ⟨hlive, by decide⟩, ?_⟩
  have hc : Collapses 65535 (s.db ()) := ⟨65535, hdb, .inl rfl⟩
  simp [deleteKey_of_collapses hc, denote_nil]

end BackMdb
end ReOpenLDAP
