import Mathlib.Algebra.Order.Ring.Int

/-!
# Slapd.SortVals

`slap_sort_vals`: quicksort on the indices of the values, and insertion sort where there are few.

The entries of `ix` are indices of values; `nvals` is `n`. `match` is the sign of the `int`.
-/

namespace ReOpenLDAP
namespace Slapd

inductive SortFault where
  | outOfBounds
  | stackOverflow
  /-- `l + ir` is not an `int`. -/
  | intOverflow
  | endless
deriving DecidableEq

namespace SortVals

abbrev Ix (n : Nat) := Nat → Fin n

def SMALL : Nat := 8

/-- `sizeof(int) * 16` -/
def istackSize : Nat := 64

def exch {n : Nat} (ix : Ix n) (x y : Nat) : Ix n := Function.update (Function.update ix x (ix y)) y (ix x)

section

-- `COMP`: the result code of the match, and `match`
variable {n : Nat} (comp : Fin n → Fin n → Nat × Ordering)

/-- The inner loop of the insertion sort, from `i + 1 = k` on: where it ends, `i + 1` there, and the last match. -/
def shift (a : Fin n) (last : Nat × Ordering) : Nat → Ix n → Nat × Ix n × Nat × Ordering
  | 0, ix => (0, ix, last)
  | i + 1, ix =>
    let c := comp (ix i) a
    if c.2 = .gt then shift a c i (Function.update ix (i + 1) (ix i)) else (i + 1, ix, c)

/-- The insertion sort of `m` values from `j` on. There is an `i` if it ends with `match == 0`. -/
def insertLoop : (m j : Nat) → (last : Nat × Ordering) → Ix n → Except SortFault (Ix n × (Nat × Ordering) × Option Nat)
  | 0, _, last, ix => .ok (ix, last, none)
  | m + 1, j, last, ix =>
    if n ≤ j then .error .outOfBounds
    else
      let a := ix j
      let (i1, ix, last) := shift comp a last j ix
      let ix := Function.update ix i1 a
      if last.2 = .eq then .ok (ix, last, some (i1 - 1)) else insertLoop m (j + 1) last ix

/-- `do i++ while (match < 0)` -/
def scanUp (a : Fin n) (ix : Ix n) (i : Nat) : Except SortFault (Nat × Nat × Ordering) :=
  if i + 1 < n then
    let c := comp (ix (i + 1)) a
    if c.2 = .lt then scanUp a ix (i + 1) else .ok (i + 1, c)
  else .error .outOfBounds
termination_by n - i

/-- `while (match > 0) j--` -/
def scanDown (a : Fin n) (ix : Ix n) : (j : Nat) → (last : Nat × Ordering) → Except SortFault (Nat × Nat × Ordering)
  | 0, last => if last.2 = .gt then .error .outOfBounds else .ok (0, last)
  | j + 1, last => if last.2 = .gt then scanDown a ix j (comp (ix j) a) else .ok (j + 1, last)

/-- The loop of the partition: `i`, `j` and the last match. `fuel` is more than the rounds there are. -/
def partitionLoop (a : Fin n) : (fuel : Nat) → (i j : Nat) → Ix n → Except SortFault (Nat × Nat × Ix n × Nat × Ordering)
  | 0, _, _, _ => .error .endless
  | fuel + 1, i, j, ix =>
    match scanUp comp a ix i with
    | .error f => .error f
    | .ok (i, c) =>
      match scanDown comp a ix j c with
      | .error f => .error f
      | .ok (j, c) =>
        if j < i then .ok (i, j, ix, c.1, .gt)
        else if c.2 = .eq then .ok (i, j, ix, c)
        else partitionLoop a fuel i j (exch ix i j)

/-- The values at `l`, `l + 1` and `ir` in order. There is an `i` if two of them are equal. -/
def median (l ir : Nat) (ix : Ix n) : Ix n × (Nat × Ordering) × Option Nat :=
  let ix := exch ix ((l + ir) / 2) (l + 1)
  let c := comp (ix l) (ix ir)
  if c.2 = .eq then (ix, c, some ir)
  else
    let ix := if c.2 = .gt then exch ix l ir else ix
    let c := comp (ix (l + 1)) (ix ir)
    if c.2 = .eq then (ix, c, some ir)
    else
      let ix := if c.2 = .gt then exch ix (l + 1) ir else ix
      let c := comp (ix l) (ix (l + 1))
      if c.2 = .eq then (ix, c, some l)
      else (if c.2 = .gt then exch ix l (l + 1) else ix, c, none)

/-- The loop over the ranges: the current one, and those on the stack. The result is `ix`, the last match, and `i` if that is 0. -/
def sortLoop : (fuel : Nat) → (l ir : Nat) → (istack : List (Nat × Nat)) → (rc : Nat) → Ix n →
    Except SortFault (Ix n × (Nat × Ordering) × Option Nat)
  | 0, _, _, _, _, _ => .error .endless
  | fuel + 1, l, ir, istack, rc, ix =>
    if ir - l < SMALL then
      match insertLoop comp (ir - l) (l + 1) (rc, .gt) ix with
      | .error f => .error f
      | .ok (ix, last, some i) => .ok (ix, last, some i)
      | .ok (ix, last, none) =>
        match istack with
        | [] => .ok (ix, last, none)
        | (l, ir) :: istack => sortLoop fuel l ir istack last.1 ix
    else if n ≤ ir then .error .outOfBounds
    else if 2 ^ 31 ≤ l + ir then .error .intOverflow
    else
      match median comp l ir ix with
      | (ix, last, some i) => .ok (ix, last, some i)
      | (ix, _, none) =>
        match partitionLoop comp (ix (l + 1)) n (l + 1) ir ix with
        | .error f => .error f
        | .ok (i, j, ix, last) =>
          if last.2 = .eq then .ok (ix, last, some (l + 1))
          else
            let ix := exch ix (l + 1) j
            -- `jstack += 2`
            if istackSize ≤ 2 * istack.length + 2 then .error .stackOverflow
            else if j - l < ir - i + 1 then sortLoop fuel l j ((i, ir) :: istack) last.1 ix
            else sortLoop fuel i ir ((l, j) :: istack) last.1 ix

end

def LDAP_TYPE_OR_VALUE_EXISTS : Nat := 0x14

/-- What `slap_sort_vals` returns and leaves in its arguments. -/
structure Result (n : Nat) (ν : Type*) where
  rc : Nat
  vals : Fin n → ν
  nvals : Option (Fin n → ν)
  dup : Option (Fin n)

/-- `slap_sort_vals`. `mr` is `ordered_value_match` with the equality rule; `nvals` is none if the values are their own normalized
values. As an `int` the number of the values is negative from `2 ^ 31` on. -/
def slapSortVals {n : Nat} {ν : Type*} (mr : ν → ν → Nat × Ordering) (sortedVal : Bool) (vals : Fin n → ν)
    (nvals : Option (Fin n → ν)) : Except SortFault (Result n ν) :=
  if h : 1 < n ∧ n < 2 ^ 31 then
    let cv := nvals.getD vals
    match sortLoop (fun a b => mr (cv a) (cv b)) (2 * n) 0 (n - 1) [] 0
      (fun i => ⟨i % n, Nat.mod_lt i (by omega)⟩) with
    | .error f => .error f
    | .ok (ix, (rc, m), i) =>
      let dup := if m = .eq then i.map ix else none
      let move := fun (v : Fin n → ν) (k : Fin n) => v (ix k)
      if rc = 0 ∧ m ≠ .eq ∧ sortedVal then .ok ⟨rc, move vals, nvals.map move, dup⟩
      else .ok ⟨if rc = 0 ∧ m = .eq then LDAP_TYPE_OR_VALUE_EXISTS else rc, vals, nvals, dup⟩
  else .ok ⟨0, vals, nvals, none⟩

end SortVals
end Slapd
end ReOpenLDAP
