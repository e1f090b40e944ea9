import ReOpenLDAP.Libreldap.LdifRecord

/-!
# Libreldap.LdifMods

The block of the modifications: what is in it after some of them, and what is found in it at the end.
-/

namespace ReOpenLDAP
namespace Libreldap
namespace LdifRecord

open Ascii List

theorem put_append {α : Type} {xs ys : List α} {y : α} {i : ℕ} (hi : i = xs.length) (x : α) :
    put (xs ++ y :: ys) i x = .ok (xs ++ x :: ys) := by
  subst hi
  rw [put, if_pos (by simp), set_append_right _ _ (le_refl _), Nat.sub_self]
  rfl

/-- A modification. The pointer to its values is left out if it is `deferred`. -/
structure Group where
  op : ℕ
  type : Option (List Octet)
  deferred : Bool
  vals : List (Option (List Octet))

namespace Group

def cells (g : Group) : List Cell := .null :: g.vals.map Cell.value

/-- The modification, with its null pointer at `p`. -/
def mod (p : ℕ) (g : Group) : LDAPMod := ⟨g.op, g.type.map cstr, if g.deferred then none else some (p + 1)⟩

def listed (g : Group) : Listed := ⟨g.op, g.type.map cstr, if g.deferred then none else some g.vals⟩

def push (g : Group) (v : Option (List Octet)) : Group := { g with vals := g.vals ++ [v] }

@[simp] theorem cells_push (g : Group) (v : Option (List Octet)) : (g.push v).cells = g.cells ++ [Cell.value v] := by
  simp [cells, push]

@[simp] theorem length_cells (g : Group) : g.cells.length = g.vals.length + 1 := by simp [cells]

end Group

/-- The pointers that have been written from `bvl - 1` on. -/
def cellsOf (gs : List Group) : List Cell := gs.flatMap Group.cells

@[simp] theorem cellsOf_nil : cellsOf [] = [] := rfl

@[simp] theorem cellsOf_cons (g : Group) (gs : List Group) : cellsOf (g :: gs) = g.cells ++ cellsOf gs := rfl

@[simp] theorem cellsOf_append (gs hs : List Group) : cellsOf (gs ++ hs) = cellsOf gs ++ cellsOf hs := flatMap_append

theorem length_cellsOf (gs : List Group) : (cellsOf gs).length = gs.length + (gs.map fun g => g.vals.length).sum := by
  induction gs with
  | nil => rfl
  | cons g gs ih =>
    rw [cellsOf_cons, length_append, ih, Group.length_cells, length_cons, map_cons, sum_cons]
    omega

/-- The modifications, with the null pointer of the first at `p`. -/
def modsFrom : (p : ℕ) → List Group → List LDAPMod
  | _, [] => []
  | p, g :: gs => g.mod p :: modsFrom (p + g.cells.length) gs

theorem modsFrom_append (p : ℕ) (gs hs : List Group) :
    modsFrom p (gs ++ hs) = modsFrom p gs ++ modsFrom (p + (cellsOf gs).length) hs := by
  induction gs generalizing p with
  | nil => rfl
  | cons g gs ih =>
    rw [cons_append, modsFrom, ih, modsFrom, cellsOf_cons, length_append, Nat.add_assoc]
    rfl

@[simp] theorem length_modsFrom (p : ℕ) (gs : List Group) : (modsFrom p gs).length = gs.length := by
  induction gs generalizing p with
  | nil => rfl
  | cons g gs ih => rw [modsFrom, length_cons, ih, length_cons]

/-- There are `cap` pointers from `bvl - 1` on. -/
def filled (nmods cap : ℕ) (gs : List Group) : Mods where
  lm := (modsFrom nmods gs).map some ++ List.replicate (nmods - gs.length) none
  ptrs := (List.range gs.length).map Cell.mod ++ List.replicate (nmods - gs.length) Cell.free ++
    (cellsOf gs ++ List.replicate (cap - (cellsOf gs).length) Cell.free)
  j := gs.length
  k := (cellsOf gs).length

section

variable {nmods cap : ℕ} {gs : List Group}

theorem allocMods_eq (nmods lines : ℕ) : allocMods nmods lines = filled nmods (lines + nmods + 1) [] := by
  have hsum : nmods + 1 + (lines + nmods) = nmods + (lines + nmods + 1) := by omega
  have hptrs : List.replicate (nmods + 1 + (lines + nmods)) Cell.free =
      List.replicate nmods Cell.free ++ List.replicate (lines + nmods + 1) Cell.free := by
    rw [hsum, replicate_append_replicate]
  simp only [allocMods, filled, hptrs]
  rfl

theorem putBvl_filled {g : Group} (hcap : (cellsOf (gs ++ [g])).length < cap) (hlen : gs.length < nmods) (v : Option (List Octet)) :
    putBvl nmods (.value v) (filled nmods cap (gs ++ [g])) = .ok (filled nmods cap (gs ++ [g.push v])) := by
  obtain ⟨c, hc⟩ : ∃ c, cap - (cellsOf (gs ++ [g])).length = c + 1 := ⟨cap - (cellsOf (gs ++ [g])).length - 1, by omega⟩
  have hc' : cap - (cellsOf (gs ++ [g.push v])).length = c := by
    simp only [cellsOf_append, cellsOf_cons, cellsOf_nil, Group.cells_push, length_append, length_singleton,
      length_nil] at hc ⊢
    omega
  have hmods : modsFrom nmods (gs ++ [g.push v]) = modsFrom nmods (gs ++ [g]) := by
    rw [modsFrom_append, modsFrom_append]
    rfl
  have hlength : (gs ++ [g.push v]).length = (gs ++ [g]).length := by simp
  simp only [putBvl, filled, hc, hc', hmods, hlength, replicate_succ]
  rw [← append_assoc, put_append]
  · simp [bind, Except.bind, pure, Except.pure, Nat.add_assoc]
  · simp only [length_append, length_map, length_range, length_replicate, length_singleton]
    omega

theorem newMod_filled (hcap : (cellsOf gs).length < cap) (hlen : gs.length < nmods) (op : ℕ) (type : Option (List Octet))
    (deferred : Bool) :
    newMod nmods op type deferred (filled nmods cap gs) = .ok (filled nmods cap (gs ++ [⟨op, type, deferred, []⟩])) := by
  obtain ⟨c, hc⟩ : ∃ c, cap - (cellsOf gs).length = c + 1 := ⟨cap - (cellsOf gs).length - 1, by omega⟩
  obtain ⟨r, hr⟩ : ∃ r, nmods - gs.length = r + 1 := ⟨nmods - gs.length - 1, by omega⟩
  have hc' : cap - ((cellsOf gs).length + 1) = c := by omega
  have hr' : nmods - (gs.length + 1) = r := by omega
  have hbvl : putBvl nmods .null (filled nmods cap gs) = .ok { filled nmods cap gs with
      ptrs := (List.range gs.length).map Cell.mod ++ List.replicate (r + 1) Cell.free ++ (cellsOf gs ++ Cell.null :: List.replicate c Cell.free)
      k := (cellsOf gs).length + 1 } := by
    simp only [putBvl, filled, hc, hr, replicate_succ (n := c)]
    rw [← append_assoc, put_append]
    · simp [bind, Except.bind, pure, Except.pure]
    · simp only [length_append, length_map, length_range, length_replicate]
      omega
  rw [newMod, hbvl]
  simp only [bind, Except.bind, filled, hr, replicate_succ]
  rw [put_append (by simp)]
  simp only [append_assoc, cons_append]
  rw [put_append (by simp)]
  simp [pure, Except.pure, modsFrom_append, modsFrom, Group.mod, Group.cells, range_succ, hc', hr', Nat.add_assoc]

theorem valuesAt_append (vs : List (Option (List Octet))) (cells : List Cell) :
    valuesAt (vs.map Cell.value ++ Cell.null :: cells) = some vs := by
  induction vs with
  | nil => rfl
  | cons v vs ih => rw [map_cons, cons_append, valuesAt, ih, Option.map_some]

theorem cellsOf_null (gs : List Group) (cells : List Cell) : ∃ cells', cellsOf gs ++ Cell.null :: cells = .null :: cells' := by
  cases gs with
  | nil => exact ⟨cells, rfl⟩
  | cons g gs => exact ⟨_, rfl⟩

/-- What `closeMods` leaves. -/
structure Closed (nmods : ℕ) (gs : List Group) (o : Mods) : Prop where
  lm : ∃ rest, o.lm = (modsFrom nmods gs).map some ++ rest
  mods : ∃ rest, o.ptrs = (List.range gs.length).map Cell.mod ++ Cell.null :: rest
  bvl : ∃ rest, o.ptrs.drop nmods = cellsOf gs ++ Cell.null :: rest

theorem Closed.listedMod {o : Mods} {pre post : List Group} {g : Group} (h : Closed nmods (pre ++ g :: post) o) :
    listedMod o.ptrs (g.mod (nmods + (cellsOf pre).length)) = some g.listed := by
  rw [LdifRecord.listedMod, Group.mod, Group.listed]
  cases g.deferred with
  | true => rfl
  | false =>
    obtain ⟨rest, hrest⟩ := h.bvl
    obtain ⟨cells, hcells⟩ := cellsOf_null post rest
    have hdrop : o.ptrs.drop (nmods + (cellsOf pre).length + 1) = g.vals.map Cell.value ++ Cell.null :: cells := by
      rw [Nat.add_assoc, ← drop_drop, hrest, cellsOf_append, cellsOf_cons, Group.cells, append_assoc, append_assoc,
        hcells, ← drop_drop, drop_left]
      rfl
    simp only [Bool.false_eq_true, if_false, hdrop, valuesAt_append, Option.map_some]

theorem Closed.modsAt {o : Mods} {pre post : List Group} (h : Closed nmods (pre ++ post) o) (rest : List Cell) :
    modsAt o ((List.range' pre.length post.length).map Cell.mod ++ Cell.null :: rest) = some (post.map Group.listed) := by
  induction post generalizing pre with
  | nil => rfl
  | cons g post ih =>
    have hlm : o.lm[pre.length]? = some (some (g.mod (nmods + (cellsOf pre).length))) := by
      obtain ⟨lm, hlm⟩ := h.lm
      rw [hlm, modsFrom_append, map_append, append_assoc, List.getElem?_append_right (by simp)]
      simp [modsFrom]
    have hpost := @ih (pre ++ [g]) (by rwa [append_assoc, singleton_append])
    rw [length_append, length_singleton] at hpost
    rw [length_cons, List.range'_succ, map_cons, cons_append, LdifRecord.modsAt, hlm, hpost]
    simp only [Option.join_some, bind, Option.bind, h.listedMod, map_cons, pure]

theorem Closed.listed {o : Mods} (h : Closed nmods gs o) : listed o = some (gs.map Group.listed) := by
  obtain ⟨rest, hrest⟩ := h.mods
  have hat := @Closed.modsAt _ o [] gs h rest
  rw [length_nil, ← range_eq_range'] at hat
  rw [LdifRecord.listed, hrest, hat]

theorem closeMods_filled (hcap : (cellsOf gs).length < cap) (hlen : gs.length ≤ nmods) :
    ∃ o, closeMods nmods (filled nmods cap gs) = .ok o ∧ Closed nmods gs o := by
  obtain ⟨c, hc⟩ : ∃ c, cap - (cellsOf gs).length = c + 1 := ⟨cap - (cellsOf gs).length - 1, by omega⟩
  have hbvl : put (filled nmods cap gs).ptrs (nmods + (filled nmods cap gs).k) .null =
      .ok ((List.range gs.length).map Cell.mod ++ List.replicate (nmods - gs.length) Cell.free ++
        (cellsOf gs ++ Cell.null :: List.replicate c Cell.free)) := by
    simp only [filled, hc, replicate_succ]
    rw [← append_assoc, put_append, append_assoc]
    simp only [length_append, length_map, length_range, length_replicate]
    omega
  simp only [closeMods, hbvl, bind, Except.bind]
  obtain hlt | heq := Nat.lt_or_eq_of_le hlen
  · obtain ⟨r, hr⟩ : ∃ r, nmods - gs.length = r + 1 := ⟨nmods - gs.length - 1, by omega⟩
    rw [hr, replicate_succ, append_assoc, cons_append, put_append (by simp [filled])]
    refine ⟨_, rfl, ⟨⟨_, rfl⟩, ⟨_, rfl⟩, ⟨List.replicate c Cell.free, ?_⟩⟩⟩
    rw [← cons_append, ← append_assoc, drop_left' (by simp; omega)]
  · -- the pointer behind the modifications is the one in front of the values
    obtain ⟨cells, hcells⟩ := cellsOf_null gs (List.replicate c Cell.free)
    rw [heq, Nat.sub_self, replicate_zero, List.append_nil, hcells, put_append (by simp [filled, heq])]
    refine ⟨_, rfl, ⟨⟨_, rfl⟩, ⟨cells, by rw [heq]⟩, ⟨List.replicate c Cell.free, ?_⟩⟩⟩
    rw [hcells, drop_left' (by simp)]

end

end LdifRecord
end Libreldap
end ReOpenLDAP
