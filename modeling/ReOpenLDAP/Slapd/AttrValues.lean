import ReOpenLDAP.Lib.InPlace
import ReOpenLDAP.Lib.Slot
import ReOpenLDAP.Slapd.Mods

/-!
# Slapd.AttrValues

The values of one attribute, as arrays: the search for a value, and new values. `Slapd.Mods` has the same functions for
lists of attributes that are neither sorted nor numbered.

A result `none` is undefined behaviour or a failed assertion.
-/

namespace ReOpenLDAP
namespace Slapd
namespace AttrVals

open InPlace Slot List

/-- What the functions use of an attribute type: its equality rule, which compares a stored value with an asserted one,
and its flags. -/
structure AttrType where
  normalize : Option (List Char → Option (List Char))
  smr_match : List Char → List Char → Ordering
  orderedVal : Bool
  orderedSib : Bool
  sortedVal : Bool

/-- `Attribute`. `nvals` is `none` when `a_nvals == a_vals`, `sorted` is the flag `SLAP_ATTR_SORTED_VALS`. -/
structure Values where
  numvals : Nat
  vals : List (List Char)
  nvals : Option (List (List Char))
  sorted : Bool
deriving DecidableEq

def Values.norms (a : Values) : List (List Char) := a.nvals.getD a.vals

def splitIndex : List Char → Option (List Char × List Char)
  | '{' :: v => if '}' ∈ v then some (v.takeWhile (· ≠ '}'), (v.dropWhile (· ≠ '}')).tail) else none
  | _ => none

def numericStringValidate (s : List Char) : Bool := s ≠ [] && s.all fun c => c.isDigit || c = ' '

def numericIndex (v : List Char) : Option (List Char × List Char) := (splitIndex v).filter fun p => numericStringValidate p.1

def octetStringOrderingMatch (value asserted : List Char) : Ordering :=
  if value < asserted then .lt else if asserted < value then .gt else .eq

/-- `ordered_value_match` of a stored value and an assertion. -/
def orderedValueMatch (t : AttrType) (v1 v2 : List Char) : Ordering :=
  if t.orderedVal || t.orderedSib then
    match numericIndex v1, numericIndex v2 with
    | some (ns1, bv1), some (ns2, bv2) =>
      let m := octetStringOrderingMatch ns1 ns2
      if m ≠ .eq ∨ bv2 = [] then m else t.smr_match bv1 bv2
    | some (_, bv1), none => t.smr_match bv1 v2
    | none, some (_, bv2) => t.smr_match v1 bv2
    | none, none => t.smr_match v1 v2
  else t.smr_match v1 v2

inductive Valfind where
  | found (slot : Nat)
  | missing (slot : Nat)
  | invalidSyntax
deriving DecidableEq

def Valfind.ofPair : Bool × Nat → Valfind
  | (true, i) => .found i
  | (false, i) => .missing i

/-- The linear search among the first `n` values. -/
def linearLoop (f : List Char → Ordering) (xs : List (List Char)) (n i : Nat) : Option (Bool × Nat) :=
  if _h : i < n then
    match xs[i]? with
    | none => none
    | some x => if f x = .eq then some (true, i) else linearLoop f xs n (i + 1)
  else some (false, i)
termination_by n - i

def AttrType.norm (t : AttrType) (normalized : Bool) (val : List Char) : Option (List Char) :=
  if normalized then some val
  else
    match t.normalize with
    | none => some val
    | some f => f val

def valueMatch (t : AttrType) (a : Values) (cval s : List Char) : Ordering :=
  if a.sorted then t.smr_match s cval else orderedValueMatch t s cval

def attrValfind (t : AttrType) (a : Values) (normalized : Bool) (val : List Char) : Option Valfind :=
  match t.norm normalized val with
  | none => some .invalidSyntax
  | some cval =>
    if a.sorted ∧ a.numvals ≠ 0 then (slotLoop (valueMatch t a cval) a.norms 0 a.numvals).map Valfind.ofPair
    else (linearLoop (valueMatch t a cval) a.norms a.numvals 0).map Valfind.ofPair

def cells (vals : List (List Char)) : List (Option (List Char)) := vals.map some ++ [none, none]

def ofCells (a : List (Option (List Char))) : List (List Char) := (a.takeWhile Option.isSome).reduceOption

/-- Moves the values from `slot` on, and the terminator, and stores `v` there. -/
def insertVal (vals : List (List Char)) (numvals slot : Nat) (v : List Char) : Option (List (List Char)) := do
  let a ← shiftUp (cells vals) slot (numvals + 1 - slot)
  let a ← store a slot (some v)
  some (ofCells a)

def Values.insert (a : Values) (slot : Nat) (val nval : List Char) : Option Values :=
  match a.nvals with
  | none => do
    let vals ← insertVal a.vals a.numvals slot nval
    some { a with numvals := a.numvals + 1, vals }
  | some ns => do
    let vals ← insertVal a.vals a.numvals slot val
    let nvals ← insertVal ns a.numvals slot nval
    some { a with numvals := a.numvals + 1, vals, nvals }

/-- The loop over the new values: its return code, `none` for success, and the attribute then. -/
def addSorted (t : AttrType) (a : Values) : List (List Char × List Char) → Option (Option ModRc × Values)
  | [] => some (none, a)
  | (val, nval) :: rest => do
    match ← attrValfind t a true nval with
    | .found _ => some (some .typeOrValueExists, a)
    | .invalidSyntax => some (some .invalidSyntax, a)
    | .missing slot => addSorted t (← a.insert slot val nval) rest

def attrValadd (t : AttrType) (a : Values) (vals : List (List Char)) (nvals : Option (List (List Char))) :
    Option (Option ModRc × Values) :=
  let v2 := nvals.getD vals
  -- two arrays cannot be made of one that has values
  if v2.length ≠ vals.length ∨ (a.nvals = none ∧ a.vals ≠ [] ∧ nvals ≠ none) then none
  else
    let a := { a with nvals := nvals.map fun _ => a.nvals.getD [] }
    if a.sorted ∧ a.numvals ≠ 0 then addSorted t a (vals.zip v2)
    else
      some (none, { a with
        numvals := a.numvals + vals.length
        vals := a.vals ++ vals
        nvals := a.nvals.map (· ++ v2) })

def attrAlloc (t : AttrType) : Values := ⟨0, [], none, t.sortedVal⟩

/-- `attr_merge`. The state is the attribute of the description in the entry. -/
def attrMerge (t : AttrType) (righteous : Bool) (attr : Option Values) (vals : List (List Char))
    (nvals : Option (List (List Char))) : Option (Option ModRc × Values) :=
  match attr with
  | none => attrValadd t (attrAlloc t) vals nvals
  | some a =>
    let nvals := if righteous ∧ a.vals ≠ [] ∧ a.nvals = none ∧ nvals = some vals then none else nvals
    if (nvals = none ∧ a.nvals = none) ∨ (nvals ≠ none ∧ (a.vals = [] ∨ a.nvals ≠ none)) then
      attrValadd t a vals nvals
    else none

/-! ## What the search finds -/

section

variable {t : AttrType} {a : Values} {normalized : Bool} {val cval : List Char}

theorem linearLoop_spec (f : List Char → Ordering) (done rest : List (List Char)) (hdone : ∀ x ∈ done, f x ≠ .eq) :
    linearLoop f (done ++ rest) (done ++ rest).length done.length =
      some (match (done ++ rest).findIdx? fun x => f x = .eq with
        | some i => (true, i)
        | none => (false, (done ++ rest).length)) := by
  induction rest generalizing done with
  | nil =>
    have hnone : ((done ++ []).findIdx? fun x => decide (f x = Ordering.eq)) = none :=
      List.findIdx?_eq_none_iff.mpr (by simpa using hdone)
    rw [linearLoop, dif_neg (by simp), hnone, List.append_nil]
  | cons x rest ih =>
    rw [linearLoop, dif_pos (by simp), getElem?_middle]
    dsimp only
    by_cases hx : f x = .eq
    · have hfirst : ((done ++ x :: rest).findIdx? fun x => f x = .eq) = some done.length := by
        rw [List.findIdx?_append, List.findIdx?_eq_none_iff.mpr (by simpa using hdone)]
        simp [List.findIdx?_cons, hx]
      rw [if_pos hx, hfirst]
    · have hnext := ih (done ++ [x]) (List.forall_mem_append.mpr ⟨hdone, List.forall_mem_singleton.mpr hx⟩)
      rw [← append_cons, show (done ++ [x]).length = done.length + 1 from length_append] at hnext
      rw [if_neg hx]
      exact hnext

def firstMatch (t : AttrType) (a : Values) (cval : List Char) : Option Nat :=
  a.norms.findIdx? fun s => valueMatch t a cval s = .eq

/-- What `attr_valfind` should give for the value as it is compared. -/
def Finds (t : AttrType) (a : Values) (cval : List Char) : Valfind → Prop
  | .found i => firstMatch t a cval = some i
  | .missing slot => firstMatch t a cval = none ∧ (a.sorted = true → Splits (valueMatch t a cval) a.norms slot)
  | .invalidSyntax => False

theorem found_finds (hp : Probes (valueMatch t a cval) a.norms) {r : Bool × Nat} (h : Found (valueMatch t a cval) a.norms r) :
    Finds t a cval (Valfind.ofPair r) := by
  obtain ⟨found, i⟩ := r
  cases found with
  | true =>
    obtain ⟨x, hx, heq⟩ := h
    refine List.findIdx?_eq_some_iff_getElem.mpr ?_
    obtain ⟨hlt, rfl⟩ := List.getElem?_eq_some_iff.mp hx
    refine ⟨hlt, decide_eq_true heq, fun j hj => ?_⟩
    have hj' : j < (a.norms.take i).length := by
      rw [length_take]
      omega
    have hbefore := hp.before hx (by simp [heq]) _ (getElem_mem hj')
    rw [getElem_take] at hbefore
    simp [hbefore]
  | false =>
    have hnot := Splits.not_eq h
    exact ⟨List.findIdx?_eq_none_iff.mpr (by simpa using hnot), fun _ => h⟩

theorem attrValfind_finds (hlen : a.numvals = a.norms.length)
    (hp : a.sorted = true → Probes (valueMatch t a cval) a.norms) (hn : t.norm normalized val = some cval) :
    ∃ r, attrValfind t a normalized val = some r ∧ Finds t a cval r := by
  unfold attrValfind
  rw [hn]
  dsimp only
  by_cases hs : a.sorted = true ∧ a.numvals ≠ 0
  · have hne : a.norms ≠ [] := fun h => hs.2 (by rw [hlen, h, length_nil])
    obtain ⟨r, hr, hfound⟩ := slotLoop_found (hp hs.1) hne
    rw [if_pos hs, hlen, hr]
    exact ⟨_, rfl, found_finds (hp hs.1) hfound⟩
  · have hloop := linearLoop_spec (valueMatch t a cval) [] a.norms (forall_mem_nil _)
    rw [List.nil_append, length_nil] at hloop
    rw [if_neg hs, hlen, hloop]
    refine ⟨_, rfl, ?_⟩
    cases hfirst : a.norms.findIdx? fun s => valueMatch t a cval s = .eq with
    | some i => exact hfirst
    | none =>
      refine ⟨hfirst, fun hsorted => ?_⟩
      have hnil : a.norms = [] := List.length_eq_zero_iff.mp (by
        rw [← hlen]
        exact not_not.mp fun h => hs ⟨hsorted, h⟩)
      rw [hnil]
      exact ⟨Nat.le_refl _, forall_mem_nil _, forall_mem_nil _⟩

theorem attrValfind_invalid (hn : t.norm normalized val = none) : attrValfind t a normalized val = some .invalidSyntax := by
  unfold attrValfind
  rw [hn]

end

section

theorem ofCells_spec (vals : List (List Char)) (rest : List (Option (List Char))) :
    ofCells (vals.map some ++ none :: rest) = vals := by
  unfold ofCells
  rw [takeWhile_append_of_pos (by simp)]
  simp [List.reduceOption]

theorem insertVal_spec (pre mid : List (List Char)) (v : List Char) :
    insertVal (pre ++ mid) (pre ++ mid).length pre.length v = some (pre ++ v :: mid) := by
  obtain ⟨y, hy⟩ := shiftUp_spec (pre.map some) (mid.map some ++ [none]) [] none
  have hcells : cells (pre ++ mid) = pre.map some ++ (mid.map some ++ [none] ++ [none]) := by simp [cells]
  have hcount : (pre ++ mid).length + 1 - pre.length = (mid.map some ++ [none]).length := by
    simp only [length_append, length_map, length_singleton]
    omega
  rw [length_map] at hy
  have hstore : store (pre.map some ++ y :: (mid.map some ++ [none] ++ [])) pre.length (some v) =
      some ((pre ++ v :: mid).map some ++ none :: []) := by
    have hmid := store_middle (pre.map some) (mid.map some ++ [none] ++ []) y (some v)
    rw [length_map] at hmid
    rw [hmid]
    simp
  unfold insertVal
  simp only [hcells, hcount, hy, hstore, Option.bind_eq_bind, Option.bind_some, ofCells_spec]

end

end AttrVals
end Slapd
end ReOpenLDAP
