import ReOpenLDAP.BackMdb.Idl
import ReOpenLDAP.Lib.Run

/-!
# BackMdb.NextId

`mdb_next_id` and the bound that searches take from it. `_mi_nextid` is the ID handed out last, 0 before
the first add of a process; a search cuts open ranges off at it, or at the last key of id2entry while it
is 0. Over every history of adds (committed or not), deletes and restarts no entry is above that bound.
-/

namespace ReOpenLDAP
namespace BackMdb

/-- The keys of id2entry in order, and `_mi_nextid`. -/
structure Id2Entry where
  ids : List Nat
  nextid : Nat

/-- `MDBX_LAST` on id2entry. -/
def Id2Entry.lastEntry (s : Id2Entry) : Except Rc Nat :=
  match s.ids.getLast? with
  | none => .error .notfound
  | some id => .ok id

/-- `mdb_next_id`: the new ID, also left in `_mi_nextid`. -/
def mdbNextId (s : Id2Entry) : Nat :=
  match s.lastEntry with
  | .error _ => 1
  | .ok id => id + 1

inductive IdAct where
  | add
  /-- The add fails after `mdb_next_id` and its transaction is aborted. -/
  | addAborted
  | delete (id : Nat)
  | restart
deriving DecidableEq

def idStep (s : Id2Entry) : IdAct → Id2Entry
  | .add => ⟨s.ids ++ [mdbNextId s], mdbNextId s⟩
  | .addAborted => { s with nextid := mdbNextId s }
  | .delete id => { s with ids := s.ids.erase id }
  | .restart => { s with nextid := 0 }

structure Id2Entry.Inv (s : Id2Entry) : Prop where
  increasing : Increasing s.ids
  pos : ∀ id ∈ s.ids, 0 < id
  nextid : s.nextid ≠ 0 → ∀ id ∈ s.ids, id ≤ s.nextid

theorem lt_mdbNextId {s : Id2Entry} (h : s.Inv) : ∀ id ∈ s.ids, id < mdbNextId s := by
  intro id hid
  have hne : s.ids ≠ [] := List.ne_nil_of_mem hid
  have hle := h.increasing.le_getLast hne hid
  simp only [mdbNextId, Id2Entry.lastEntry, List.getLast?_eq_getLast_of_ne_nil hne]
  omega

theorem mdbNextId_pos (s : Id2Entry) : 0 < mdbNextId s := by
  unfold mdbNextId
  split <;> omega

theorem mdbNextId_le {s : Id2Entry} {b : Nat} (hb : 0 < b) (h : ∀ id ∈ s.ids, id < b) : mdbNextId s ≤ b := by
  unfold mdbNextId Id2Entry.lastEntry
  cases hl : s.ids.getLast? with
  | none => exact hb
  | some id => exact h id (List.mem_of_getLast? hl)

theorem idStep_inv {s s' : Id2Entry} {a : IdAct} (h : s.Inv) (hs : idStep s a = s') : s'.Inv := by
  subst hs
  have hlt := lt_mdbNextId h
  cases a with
  | add =>
    refine ⟨List.pairwise_append.mpr ⟨h.increasing, by simp, fun x hx y hy => ?_⟩, fun id hid => ?_,
      fun _ id hid => ?_⟩
    · rw [List.mem_singleton.mp hy]
      exact hlt x hx
    · rcases List.mem_append.mp hid with hid | hid
      · exact h.pos id hid
      · rw [List.mem_singleton.mp hid]
        exact mdbNextId_pos s
    · rcases List.mem_append.mp hid with hid | hid
      · exact (hlt id hid).le
      · exact (List.mem_singleton.mp hid).le
  | addAborted => exact ⟨h.increasing, h.pos, fun _ id hid => (hlt id hid).le⟩
  | delete id =>
    exact ⟨h.increasing.sublist List.erase_sublist, fun x hx => h.pos x (List.mem_of_mem_erase hx),
      fun hn x hx => h.nextid hn x (List.mem_of_mem_erase hx)⟩
  | restart => exact ⟨h.increasing, h.pos, fun hn => absurd rfl hn⟩

end BackMdb
end ReOpenLDAP
