import ReOpenLDAP.BackMdb.Dn
import ReOpenLDAP.Lib.Sweep

/-!
# Slapd.Sets

The sets of strings of the access rules: `slap_set_join`, `set_chase`, `set_parents` and `set_parent`.
-/

namespace ReOpenLDAP
namespace Slapd
namespace Sets

open Ascii Sweep

section

variable {β : Type*} [DecidableEq β]

/-- `rset[i] = rset[--rlast]`: the last value comes to the place of one that goes, if there is one behind it. -/
def moveLast (l : List β) : List β := l.getLast?.toList ++ l.dropLast

omit [DecidableEq β] in
theorem moveLast_concat (l : List β) (last : β) : moveLast (l ++ [last]) = last :: l := by simp [moveLast]

omit [DecidableEq β] in
theorem moveLast_perm (l : List β) : (moveLast l).Perm l := by
  rcases List.eq_nil_or_concat l with rfl | ⟨init, last, rfl⟩
  · exact .refl _
  · rw [List.concat_eq_append, moveLast_concat]
    exact (List.perm_append_singleton last init).symm

/-- The loop over `rset`. A value that `set` has is freed. -/
def unionLoop (set : List β) : List β → List β
  | [] => set
  | v :: rset => if v ∈ set then unionLoop set (moveLast rset) else unionLoop (set ++ [v]) rset
termination_by rset => rset.length
decreasing_by
  · rw [(moveLast_perm rset).length_eq]
    exact Nat.lt_succ_self _
  · exact Nat.lt_succ_self _

def interLoop (sset : List β) : List β → List β
  | [] => []
  | v :: set => if v ∈ sset then v :: interLoop sset set else interLoop sset (moveLast set)
termination_by set => set.length
decreasing_by
  · exact Nat.lt_succ_self _
  · rw [(moveLast_perm set).length_eq]
    exact Nat.lt_succ_self _

/-- What `|` makes of two sets. -/
def setUnion (lset rset : Option (List β)) : List β :=
  match lset, rset with
  | none, none => []
  | some [], none => []
  | none, some rset => rset
  | some [], some rset => rset
  | some lset, none => lset
  | some lset, some rset => unionLoop lset rset

/-- What `&` makes of two sets. -/
def setIntersect (lset rset : Option (List β)) : List β :=
  let lset := lset.getD []
  let rset := rset.getD []
  if lset = [] ∨ rset = [] then [] else if lset.length < rset.length then interLoop rset lset else interLoop lset rset

theorem unionLoop_spec (set rset : List β) : Grown set rset (unionLoop set rset) := by
  induction set, rset using unionLoop.induct with
  | case1 set =>
    rw [unionLoop]
    exact .same (by simp)
  | case2 set v rset hv ih =>
    obtain ⟨fresh, heq, hnd, hmem⟩ := ih
    rw [unionLoop, if_pos hv]
    refine ⟨fresh, heq, hnd, fun x => ?_⟩
    rw [hmem, (moveLast_perm rset).mem_iff, List.mem_cons]
    refine ⟨fun hx => ⟨.inr hx.1, hx.2⟩, fun hx => ⟨hx.1.resolve_left ?_, hx.2⟩⟩
    rintro rfl
    exact hx.2 hv
  | case3 set v rset hv ih =>
    obtain ⟨fresh, heq, hnd, hmem⟩ := ih
    rw [unionLoop, if_neg hv]
    refine ⟨v :: fresh, by rw [heq, List.append_assoc]; rfl, List.nodup_cons.mpr ⟨fun h => ?_, hnd⟩, fun x => ?_⟩
    · exact ((hmem v).mp h).2 (by simp)
    · rw [List.mem_cons, hmem, List.mem_cons, List.mem_append, List.mem_singleton]
      by_cases hx : x = v
      · exact iff_of_true (.inl hx) ⟨.inl hx, hx ▸ hv⟩
      · simp [hx]

theorem setUnion_spec {lset : List β} (h : lset ≠ []) (rset : Option (List β)) :
    Grown lset (rset.getD []) (setUnion (some lset) rset) := by
  cases rset with
  | none =>
    have heq : setUnion (some lset) none = lset := by
      cases lset with
      | nil => exact absurd rfl h
      | cons v lset => rfl
    rw [heq]
    exact .same (by simp)
  | some rset =>
    have heq : setUnion (some lset) (some rset) = unionLoop lset rset := by
      cases lset with
      | nil => exact absurd rfl h
      | cons v lset => rfl
    rw [heq]
    exact unionLoop_spec lset rset

@[simp] theorem setUnion_nil (rset : List β) : setUnion (some []) (some rset) = rset := by
  cases rset <;> rfl

@[simp] theorem mem_setUnion (lset rset : List β) (x : β) : x ∈ setUnion (some lset) (some rset) ↔ x ∈ lset ∨ x ∈ rset := by
  by_cases h : lset = []
  · simp [h]
  · exact (setUnion_spec h (some rset)).mem_iff x

theorem mem_interLoop (sset set : List β) (x : β) : x ∈ interLoop sset set ↔ x ∈ set ∧ x ∈ sset := by
  induction set using interLoop.induct sset with
  | case1 => simp [interLoop]
  | case2 v set hv ih =>
    rw [interLoop, if_pos hv, List.mem_cons, List.mem_cons, ih]
    refine ⟨?_, fun ⟨hx, hs⟩ => hx.imp_right fun h => ⟨h, hs⟩⟩
    rintro (rfl | ⟨hx, hs⟩)
    · exact ⟨.inl rfl, hv⟩
    · exact ⟨.inr hx, hs⟩
  | case3 v set hv ih =>
    rw [interLoop, if_neg hv, ih, (moveLast_perm set).mem_iff, List.mem_cons]
    refine and_congr_left fun hs => (or_iff_right ?_).symm
    rintro rfl
    exact hv hs

@[simp] theorem mem_setIntersect (lset rset : List β) (x : β) :
    x ∈ setIntersect (some lset) (some rset) ↔ x ∈ lset ∧ x ∈ rset := by
  unfold setIntersect
  simp only [Option.getD_some]
  split_ifs with hnil hlen
  · rcases hnil with rfl | rfl <;> simp
  · exact mem_interLoop rset lset x
  · rw [mem_interLoop, and_comm]

/-! ## Chasing -/

/-- What the gatherer finds for an attribute and a name. All of it comes from finitely many values. -/
structure Directory (δ β : Type*) where
  gather : δ → β → Option (List β)
  values : Finset β
  mem_values : ∀ desc name vals, gather desc name = some vals → ∀ v ∈ vals, v ∈ values

def Directory.found {δ β : Type*} (dir : Directory δ β) (desc : δ) (name : β) : List β := (dir.gather desc name).getD []

def Directory.Step {δ β : Type*} (dir : Directory δ β) (desc : δ) (a b : β) : Prop := b ∈ dir.found desc a

variable {δ : Type*} (dir : Directory δ β) (desc : δ)

/-- One round of a loop of `set_chase`. -/
def chaseRound (nset : List β) (name : β) : List β :=
  match dir.gather desc name with
  | none => nset
  | some vals => setUnion (some nset) (some vals)

/-- `set_chase`. The second loop goes along the set that it makes longer; `fuel` is for its rounds. -/
def setChase (fuel : ℕ) (set : Option (List β)) (closure : Bool) : Option (List β) :=
  match set with
  | none => some []
  | some [] => some []
  | some set =>
    let nset := set.foldl (chaseRound dir desc) []
    if closure then sweep (chaseRound dir desc) fuel 0 nset else some nset

def firstFound (set : List β) : List β := ((set.map (dir.found desc)).find? (· ≠ [])).getD []

theorem chaseRound_grown {nset : List β} (h : nset ≠ []) (name : β) : Grown nset (dir.found desc name) (chaseRound dir desc nset name) := by
  rw [chaseRound, Directory.found]
  cases dir.gather desc name with
  | none => exact .same (by simp)
  | some vals => exact setUnion_spec h (some vals)

theorem chaseRound_nil (name : β) : chaseRound dir desc [] name = dir.found desc name := by
  rw [chaseRound, Directory.found]
  cases dir.gather desc name with
  | none => rfl
  | some vals => exact setUnion_nil vals

theorem foldl_grown {nset : List β} (h : nset ≠ []) (set : List β) :
    Grown nset (set.flatMap (dir.found desc)) (set.foldl (chaseRound dir desc) nset) := by
  induction set generalizing nset with
  | nil => exact .same (by simp)
  | cons name set ih =>
    have hone := chaseRound_grown dir desc h name
    exact hone.trans (ih (hone.ne_nil h))

theorem foldl_found (set : List β) :
    (∀ x, x ∈ set.foldl (chaseRound dir desc) [] ↔ ∃ s ∈ set, dir.Step desc s x) ∧
      ((set.foldl (chaseRound dir desc) []).Nodup ↔ (firstFound dir desc set).Nodup) := by
  induction set with
  | nil => simp [firstFound]
  | cons name set ih =>
    rw [List.foldl_cons, chaseRound_nil]
    by_cases hnil : dir.found desc name = []
    · have hfirst : firstFound dir desc (name :: set) = firstFound dir desc set := by simp [firstFound, hnil]
      rw [hnil, hfirst]
      refine ⟨fun x => (ih.1 x).trans ?_, ih.2⟩
      rw [List.exists_mem_cons_iff]
      refine (or_iff_right fun h => ?_).symm
      rw [Directory.Step, hnil] at h
      exact absurd h List.not_mem_nil
    · have hfirst : firstFound dir desc (name :: set) = dir.found desc name := by simp [firstFound, hnil]
      have hg := foldl_grown dir desc hnil set
      rw [hfirst]
      refine ⟨fun x => (hg.mem_iff x).trans ?_, hg.nodup_iff⟩
      rw [List.exists_mem_cons_iff, List.mem_flatMap]
      rfl

def chaseRounds (set : List β) : ℕ := (set.foldl (chaseRound dir desc) []).length + dir.values.card + 1

theorem chase_closure_reach (set : List β) {fuel : ℕ} (hfuel : chaseRounds dir desc set ≤ fuel) :
    ∃ nset, setChase dir desc fuel (some set) true = some nset ∧ (∀ x, x ∈ nset ↔ ∃ s ∈ set, Relation.TransGen (dir.Step desc) s x) ∧
      (nset.Nodup ↔ (firstFound dir desc set).Nodup) := by
  match set with
  | [] => exact ⟨[], rfl, by simp, by simp [firstFound]⟩
  | name :: set =>
    obtain ⟨hmem, hnd⟩ := foldl_found dir desc (name :: set)
    generalize hstart : (name :: set).foldl (chaseRound dir desc) [] = start at hmem hnd
    have hvalues : ∀ v x, x ∈ dir.found desc v → x ∈ dir.values := by
      intro v x hx
      rw [Directory.found] at hx
      cases hv : dir.gather desc v with
      | none =>
        rw [hv] at hx
        exact absurd hx List.not_mem_nil
      | some vals =>
        rw [hv] at hx
        exact dir.mem_values desc v vals hv x hx
    have hroom : start.length + missing dir.values start < fuel := by
      have hcard : missing dir.values start ≤ dir.values.card := Finset.card_filter_le _ _
      rw [chaseRounds, hstart] at hfuel
      omega
    obtain ⟨nset, heq, hnd', hreach⟩ := @sweep_spec β start _ _ _ _ (fun l v hl => chaseRound_grown dir desc hl v) hvalues fuel hroom
    refine ⟨nset, ?_, fun x => ?_, hnd'.trans hnd⟩
    · have hchase : setChase dir desc fuel (some (name :: set)) true =
          sweep (chaseRound dir desc) fuel 0 ((name :: set).foldl (chaseRound dir desc) []) := rfl
      rw [hchase, hstart]
      exact heq
    · rw [hreach]
      constructor
      · rintro ⟨s, hs, hsx⟩
        obtain ⟨s', hs', hstep⟩ := (hmem s).mp hs
        exact ⟨s', hs', .head' hstep hsx⟩
      · rintro ⟨s', hs', hsx⟩
        obtain ⟨s, hstep, hrest⟩ := Relation.TransGen.head'_iff.mp hsx
        exact ⟨s, (hmem s).mpr ⟨s', hs', hstep⟩, hrest⟩

/-- The closure ends, with exactly the values that one or more attribute steps reach from the set. It has no value twice
exactly if the first values found have none twice. -/
theorem set_chase_closure (set : Option (List β)) : ∃ enough, ∀ fuel, enough ≤ fuel → ∃ nset, setChase dir desc fuel set true = some nset ∧
    (∀ x, x ∈ nset ↔ ∃ s ∈ set.getD [], Relation.TransGen (dir.Step desc) s x) ∧
    (nset.Nodup ↔ (firstFound dir desc (set.getD [])).Nodup) := by
  cases set with
  | none => exact ⟨0, fun fuel _ => ⟨[], rfl, by simp, by simp [firstFound]⟩⟩
  | some set => exact ⟨chaseRounds dir desc set, fun fuel hfuel => chase_closure_reach dir desc set hfuel⟩

theorem chase_step_found (set : List β) (fuel : ℕ) :
    ∃ nset, setChase dir desc fuel (some set) false = some nset ∧ ∀ x, x ∈ nset ↔ ∃ s ∈ set, dir.Step desc s x := by
  match set with
  | [] => exact ⟨[], rfl, by simp⟩
  | name :: set => exact ⟨_, rfl, (foldl_found dir desc (name :: set)).1⟩

end

abbrev Str := List Octet

def concatValue (a b : Str) : Str := if a = [] then b else if b = [] then a else a ++ b

@[simp] theorem concatValue_eq (a b : Str) : concatValue a b = a ++ b := by
  unfold concatValue
  split_ifs with ha hb
  · rw [ha, List.nil_append]
  · rw [hb, List.append_nil]
  · rfl

def addNew (set : List Str) (bv : Str) : List Str := if bv ∈ set then set else set ++ [bv]

/-- What `+` makes of two sets. -/
def setConcat (lset rset : Option (List Str)) : List Str :=
  let lset := lset.getD []
  let rset := rset.getD []
  if rset.length = 0 ∨ lset.length = 0 then []
  else lset.foldl (fun set a => rset.foldl (fun set b => addNew set (concatValue a b)) set) []

theorem mem_foldl_addNew {γ : Type*} (f : γ → Str) (l : List γ) (set : List Str) (x : Str) :
    x ∈ l.foldl (fun set b => addNew set (f b)) set ↔ x ∈ set ∨ ∃ b ∈ l, x = f b := by
  induction l generalizing set with
  | nil => simp
  | cons b l ih =>
    have hone : x ∈ addNew set (f b) ↔ x ∈ set ∨ x = f b := by
      unfold addNew
      split_ifs with hb
      · exact ⟨.inl, fun h => h.elim id fun heq => heq ▸ hb⟩
      · simp
    rw [List.foldl_cons, ih, hone, List.exists_mem_cons_iff, or_assoc]

theorem mem_foldl_concat (lset rset set : List Str) (x : Str) :
    x ∈ lset.foldl (fun set a => rset.foldl (fun set b => addNew set (concatValue a b)) set) set ↔
      x ∈ set ∨ ∃ a ∈ lset, ∃ b ∈ rset, x = a ++ b := by
  induction lset generalizing set with
  | nil => simp
  | cons a lset ih =>
    rw [List.foldl_cons, ih, mem_foldl_addNew, List.exists_mem_cons_iff, or_assoc]
    simp only [concatValue_eq]

@[simp] theorem mem_setConcat (lset rset : List Str) (x : Str) :
    x ∈ setConcat (some lset) (some rset) ↔ ∃ a ∈ lset, ∃ b ∈ rset, x = a ++ b := by
  unfold setConcat
  simp only [Option.getD_some]
  split_ifs with hnil
  · rcases hnil with hnil | hnil <;> simp [List.length_eq_zero_iff.mp hnil]
  · simpa using mem_foldl_concat lset rset [] x

/-- `slap_set_join` where no flag is set. An operator that it does not know gives no array. -/
def slapSetJoin (lset : Option (List Str)) (op : Octet) (rset : Option (List Str)) : Option (List Str) :=
  if op = ascii '|' then some (setUnion lset rset)
  else if op = ascii '&' then some (setIntersect lset rset)
  else if op = ascii '+' then some (setConcat lset rset)
  else none

open BackMdb (dnParent)

theorem dnParent_length_lt {dn : Str} (h : dn ≠ []) : (dnParent dn).length < dn.length := by
  rw [dnParent, List.length_tail]
  exact lt_of_le_of_lt (Nat.sub_le_sub_right (List.dropWhile_suffix _).length_le 1) (Nat.pred_lt_self (List.length_pos_of_ne_nil h))

def levels (pbv : Str) : ℕ := if h : pbv = [] then 0 else levels (dnParent pbv) + 1
termination_by pbv.length
decreasing_by exact dnParent_length_lt h

/-- `vals`: the DN and those above it. -/
def upwards : ℕ → Str → List Str
  | 0, _ => []
  | level + 1, bv => bv :: upwards level (dnParent bv)

def setParents : Option (List Str) → List Str
  | none => []
  | some set => set.foldl (fun nset dn => setUnion (some nset) (some (upwards (levels dn + 1) dn))) []

/-- `set_parent`. The level is an `int`, one below 1 goes nowhere. -/
def setParent (level : ℤ) : Option (List Str) → List Str
  | none => []
  | some set => set.foldl (fun nset dn => addNew nset (dnParent^[level.toNat] dn)) []

@[simp] theorem mem_setParent (level : ℤ) (set : List Str) (x : Str) :
    x ∈ setParent level (some set) ↔ ∃ dn ∈ set, x = dnParent^[level.toNat] dn := by
  rw [setParent, mem_foldl_addNew]
  simp

theorem mem_upwards (level : ℕ) (bv x : Str) : x ∈ upwards level bv ↔ ∃ k < level, x = dnParent^[k] bv := by
  induction level generalizing bv with
  | zero => simp [upwards]
  | succ level ih =>
    rw [upwards, List.mem_cons, ih]
    constructor
    · rintro (rfl | ⟨k, hk, rfl⟩)
      · exact ⟨0, Nat.succ_pos level, rfl⟩
      · exact ⟨k + 1, Nat.succ_lt_succ hk, rfl⟩
    · rintro ⟨k, hk, rfl⟩
      cases k with
      | zero => exact .inl rfl
      | succ k => exact .inr ⟨k, Nat.lt_of_succ_lt_succ hk, rfl⟩

theorem parent_levels (dn : Str) : dnParent^[levels dn] dn = [] := by
  induction dn using levels.induct with
  | case1 => simp [levels]
  | case2 dn h ih =>
    rw [levels, dif_neg h]
    exact ih

theorem parent_of_le {k : ℕ} {dn : Str} (h : levels dn ≤ k) : dnParent^[k] dn = [] := by
  obtain ⟨more, rfl⟩ := Nat.exists_eq_add_of_le' h
  rw [Function.iterate_add_apply, parent_levels]
  exact Function.iterate_fixed rfl more

theorem mem_all_upwards (dn x : Str) : x ∈ upwards (levels dn + 1) dn ↔ ∃ k, x = dnParent^[k] dn := by
  rw [mem_upwards]
  refine ⟨fun ⟨k, _, hx⟩ => ⟨k, hx⟩, fun ⟨k, hx⟩ => ?_⟩
  by_cases hk : k < levels dn + 1
  · exact ⟨k, hk, hx⟩
  · exact ⟨levels dn, Nat.lt_succ_self _, by rw [hx, parent_of_le (by omega), parent_levels]⟩

@[simp] theorem mem_setParents (set : List Str) (x : Str) : x ∈ setParents (some set) ↔ ∃ dn ∈ set, ∃ k, x = dnParent^[k] dn := by
  have hfold : ∀ nset, x ∈ set.foldl (fun nset dn => setUnion (some nset) (some (upwards (levels dn + 1) dn))) nset ↔
      x ∈ nset ∨ ∃ dn ∈ set, ∃ k, x = dnParent^[k] dn := by
    induction set with
    | nil => simp
    | cons dn set ih =>
      intro nset
      rw [List.foldl_cons, ih, mem_setUnion, mem_all_upwards, List.exists_mem_cons_iff, or_assoc]
  rw [setParents, hfold]
  simp

/-- A gatherer that finds the value `1` twice for each name. -/
def twice : Directory Unit ℕ := ⟨fun _ _ => some [1, 1], {1}, by simp⟩

/-- It is there twice in the closure too. -/
theorem set_chase_twice : setChase twice () 3 (some [0]) true = some [1, 1] ∧ ¬ [1, 1].Nodup := by
  have hloop : sweep (chaseRound twice ()) 3 0 [1, 1] = some [1, 1] := by
    have hround : chaseRound twice () [1, 1] 1 = [1, 1] := by
      simp [chaseRound, twice, setUnion, unionLoop, moveLast]
    simp [sweep, hround]
  exact ⟨hloop, by decide⟩

end Sets
end Slapd
end ReOpenLDAP
