import ReOpenLDAP.Lib.Ascii
import ReOpenLDAP.Lib.DupSort
import Mathlib.Order.Interval.Set.Basic

/-!
# BackMdb.Idl

ID lists of back-mdb: the in-memory form (`IDL`) and the form an index database stores them in.

An index database is a libmdbx table with sorted duplicates (`MDBX_DUPSORT | MDBX_DUPFIXED |
MDBX_INTEGERDUP`): the data items of a key are IDs in increasing order. A key whose first item is
not 0 lists its IDs; a key whose first item is 0 is a range, and its other two items are the
bounds. `mdbIdlFetchKey` reads a key into an `IDL`, and `denote` is the set of IDs a key stands for.
-/

namespace ReOpenLDAP
namespace BackMdb

abbrev Byte := Fin 256

/-- Entry IDs are unsigned 64-bit integers, here of type `Nat`; `NOID` is all ones. -/
def NOID : Nat := 2 ^ 64 - 1

def MDB_IDL_DB_MAX : Nat := 2 ^ 16 - 1

def MDB_IDL_UM_MAX : Nat := 2 ^ 17 - 1

def MDB_IDL_RANGE_SIZE : Nat := 3

/-- The return codes of libmdbx and of the functions over it that the code tells apart. Success
is `Except.ok`. -/
inductive Rc where
  | notfound
  | keyexist
  | ekeymismatch
  /-- The function's own `-1`. -/
  | bad
  /-- Any other error of the database. -/
  | io (code : Nat)
deriving DecidableEq

/-- An ID list in memory. `ids[0] == NOID` marks a range with bounds `ids[1]` and `ids[2]`;
otherwise `ids[0]` is the number of IDs that follow. -/
inductive IDL where
  | list (ids : List Nat)
  | range (lo hi : Nat)
deriving DecidableEq

namespace IDL

/-- The IDs an `IDL` stands for. -/
def denote : IDL → Set Nat
  | list ids => {x | x ∈ ids}
  | range lo hi => Set.Icc lo hi

@[simp] theorem mem_denote_list {ids : List Nat} {x : Nat} : x ∈ (list ids).denote ↔ x ∈ ids := Iff.rfl

@[simp] theorem mem_denote_range {lo hi x : Nat} : x ∈ (range lo hi).denote ↔ lo ≤ x ∧ x ≤ hi := Iff.rfl

end IDL

/-- `mdb_idl_fetch_key` on a key whose data items are `ds`, once the cursor is on it. -/
def mdbIdlFetchKey (ds : List Nat) : Except Rc IDL :=
  match ds with
  | [] => .error .notfound
  | first :: _ =>
    -- On disk, a range is denoted by 0 in the first element
    if first = 0 then
      if ds.length ≠ MDB_IDL_RANGE_SIZE then .error .bad
      else .ok (.range (ds.getD 1 0) (ds.getD 2 0))
    else .ok (.list ds)

def denote (ds : List Nat) : Set Nat :=
  match mdbIdlFetchKey ds with
  | .ok ids => ids.denote
  | .error _ => ∅

/-- Strictly increasing IDs: the order of an `MDBX_INTEGERDUP` table. -/
abbrev Increasing (ds : List Nat) : Prop := DupSort.SortedBy (fun x : Nat => x) ds

/-- The stored forms: at most `MDB_IDL_DB_MAX` explicit IDs, none of them 0, or a range. Both
bounds of a range are data items of one key, so they differ. -/
inductive WellFormed : List Nat → Prop where
  | list {ds : List Nat} : Increasing ds → 0 ∉ ds → ds.length ≤ MDB_IDL_DB_MAX → WellFormed ds
  | range {lo hi : Nat} : 0 < lo → lo < hi → WellFormed [0, lo, hi]

theorem denote_range {lo hi x : Nat} : x ∈ denote [0, lo, hi] ↔ lo ≤ x ∧ x ≤ hi := by
  simp [denote, mdbIdlFetchKey, MDB_IDL_RANGE_SIZE]

theorem denote_list {ds : List Nat} (h : 0 ∉ ds) {x : Nat} : x ∈ denote ds ↔ x ∈ ds := by
  cases ds with
  | nil => simp [denote, mdbIdlFetchKey]
  | cons first rest =>
    have hf : first ≠ 0 := fun e => h (by simp [e])
    simp [denote, mdbIdlFetchKey, hf]

theorem fetchKey_eq {ds : List Nat} (hwf : WellFormed ds) (hne : ds ≠ []) :
    (0 ∉ ds ∧ mdbIdlFetchKey ds = .ok (.list ds)) ∨
    (∃ lo hi, ds = [0, lo, hi] ∧ 0 < lo ∧ lo < hi ∧ mdbIdlFetchKey ds = .ok (.range lo hi)) := by
  cases hwf with
  | list _ h0 _ =>
    refine .inl ⟨h0, ?_⟩
    cases ds with
    | nil => exact absurd rfl hne
    | cons first rest =>
      have hf : first ≠ 0 := fun e => h0 (by simp [e])
      simp [mdbIdlFetchKey, hf]
  | @range lo hi hlo hlt => exact .inr ⟨lo, hi, rfl, hlo, hlt, by simp [mdbIdlFetchKey, MDB_IDL_RANGE_SIZE]⟩

end BackMdb
end ReOpenLDAP
