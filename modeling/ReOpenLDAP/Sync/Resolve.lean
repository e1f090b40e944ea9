import ReOpenLDAP.Slapd.Mods

/-!
# Sync.Resolve

A modification that comes late is resolved against the newer ones in the accesslog.
-/

namespace ReOpenLDAP
namespace Sync

open Slapd List

variable {δ ν : Type}

/-- `sml_numvals` -/
def numvals (m : Modification δ ν) : Nat := (m.values.getD []).length

/-- A modification with `sml_flags`: `SLAP_MOD_INTERNAL` is to become a soft delete. -/
structure Modifications (δ ν : Type) where
  mod : Modification δ ν
  internal : Bool
deriving DecidableEq

structure ResolveSchema (δ ν : Type) where
  modifiersName : δ
  modifyTimestamp : δ
  entryCSN : δ
  singleValue : δ → Bool
  equality : δ → Option (EqualityRule ν)

section

variable [DecidableEq δ]

def isOpattr (sch : ResolveSchema δ ν) (d : δ) : Bool := d = sch.modifiersName ∨ d = sch.modifyTimestamp ∨ d = sch.entryCSN

def modDup (op : ModOp) (m : Modification δ ν) : Modifications δ ν :=
  if numvals m = 0 then ⟨⟨op, m.desc, none, none⟩, false⟩
  else ⟨{ m with op := op, nvalues := m.nvalues.map (List.take (numvals m)) }, false⟩

/-- `mods_dup`. `older` is `match < 0`. -/
def modsDup (sch : ResolveSchema δ ν) (older : Bool) : List (Modification δ ν) → List (Modifications δ ν)
  | [] => []
  | m :: ms =>
    if older ∧ isOpattr sch m.desc then modsDup sch older ms
    else if older ∧ m.op = .replace then ⟨⟨.delete, m.desc, none, none⟩, false⟩ :: modDup .add m :: modsDup sch older ms
    else modDup m.op m :: modsDup sch older ms

end

/-- A value of `reqMod`: without a colon, without an attribute, with one that `slap_bv2ad` does not know, or an attribute with
the sign of an operation and perhaps a value. -/
inductive LogLine (δ ν : Type) where
  | junk
  | sep
  | unknown
  | line (desc : δ) (sign : Char) (value : Option ν)
deriving DecidableEq

def opSign : ModOp → Char
  | .add => '+'
  | .delete => '-'
  | .replace => '='
  | .increment => '#'
  | _ => '?'

def signOp : Char → Option ModOp
  | '+' => some .add
  | '-' => some .delete
  | '=' => some .replace
  | '#' => some .increment
  | _ => none

def logMod (m : Modification δ ν) : List (LogLine δ ν) :=
  match m.values with
  | some vals => vals.map fun v => .line m.desc (opSign m.op) (some v)
  | none => if m.op = .delete ∨ m.op = .replace then [.line m.desc (opSign m.op) none] else []

/-- The values of `reqMod` in the accesslog. -/
def logMods [DecidableEq δ] : List (Modification δ ν) → List (LogLine δ ν)
  | [] => []
  | [m] => logMod m
  | m :: m' :: ms => logMod m ++ (if m.desc = m'.desc ∧ m.op = m'.op then [.sep] else []) ++ logMods (m' :: ms)

/-- The attributes that `syncrepl_accesslog_mods` treats apart. -/
structure LogSchema (δ : Type) where
  contextCSN : δ
  dynamic : δ → Bool
  excluded : δ → Bool

def fillMod (m : Modification δ ν) : Option ν → Modification δ ν
  | some v => { m with values := some (m.values.getD [] ++ [v]) }
  | none => m

/-- The loop of `syncrepl_accesslog_mods`: the modifications that are done, and the one that is filled. -/
def accesslogLoop [DecidableEq δ] (lsch : LogSchema δ) (done : List (Modification δ ν)) (mod : Option (Modification δ ν)) :
    List (LogLine δ ν) → Option (List (Modification δ ν))
  | [] => some (done ++ mod.toList)
  | .junk :: ls => accesslogLoop lsch done mod ls
  | .sep :: ls => accesslogLoop lsch (done ++ mod.toList) none ls
  | .unknown :: _ => none
  | .line d sign value :: ls =>
    if lsch.dynamic d then accesslogLoop lsch done mod ls
    else if d = lsch.contextCSN then none
    else if lsch.excluded d then accesslogLoop lsch done mod ls
    else
      match signOp sign, mod with
      | none, mod => accesslogLoop lsch done mod ls
      | some op, some m =>
        if d = m.desc ∧ op = m.op then accesslogLoop lsch done (some (fillMod m value)) ls
        else accesslogLoop lsch (done ++ [m]) (some (fillMod ⟨op, d, none, none⟩ value)) ls
      | some op, none => accesslogLoop lsch done (some (fillMod ⟨op, d, none, none⟩ value)) ls

/-- `syncrepl_accesslog_mods`. Its return code is not looked at when conflicts are resolved. -/
def syncreplAccesslogMods [DecidableEq δ] (lsch : LogSchema δ) (ls : List (LogLine δ ν)) : List (Modification δ ν) :=
  (accesslogLoop lsch [] none ls).getD []

/-! ## The resolution -/

section

variable [DecidableEq δ] [DecidableEq ν]

/-- `compare_vals`: `m1` loses the values of `m2`. -/
def compareVals (m1 m2 : Modification δ ν) : Modification δ ν :=
  (m2.nvalues.getD (m2.values.getD [])).foldl
    (fun m v =>
      let bv1 := if m2.nvalues.isSome then m.nvalues.getD [] else m.values.getD []
      let mask := bv1.map fun w => decide (w ≠ v)
      { m with values := m.values.map (masked mask), nvalues := m.nvalues.map (masked mask) })
    m1

/-- `compare_vals`, and the drop of a modification that has no values left. -/
def cancelVals (m1 : Modifications δ ν) (m2 : Modification δ ν) : Option (Modifications δ ν) :=
  let m := compareVals m1.mod m2
  if numvals m = 0 then none else some { m1 with mod := m }

def resolveDelete (m1 : Modifications δ ν) (m2 : Modification δ ν) : Option (Modifications δ ν) :=
  if m2.op = .replace ∨ numvals m2 = 0 then none
  else if m1.mod.op = .delete then
    if numvals m1.mod = 0 then some { m1 with internal := true } else cancelVals m1 m2
  else if m1.mod.op = .add then cancelVals m1 m2
  else some m1

def resolveAdd (singleValue : Bool) (m1 : Modifications δ ν) (m2 : Modification δ ν) : Option (Modifications δ ν) :=
  let r :=
    if m1.mod.op = .delete then if numvals m1.mod = 0 then none else cancelVals m1 m2
    else some m1
  r.bind fun m1 => if singleValue then none else cancelVals m1 m2

/-- One round of the inner loop of `syncrepl_resolve_cb`. -/
def resolveMod (sch : ResolveSchema δ ν) (m2 : Modification δ ν) (m1 : Modifications δ ν) : Option (Modifications δ ν) :=
  if m1.mod.desc ≠ m2.desc then some m1
  else
    let r := if m2.op = .delete ∨ m2.op = .replace then resolveDelete m1 m2 else some m1
    r.bind fun m1 => if m2.op = .add ∨ m2.op = .replace then resolveAdd (sch.singleValue m2.desc) m1 m2 else some m1

/-- `syncrepl_resolve_cb` with the modifications of a logged operation. -/
def syncreplResolveCb (sch : ResolveSchema δ ν) (newmods : List (Modification δ ν)) (oldmods : List (Modifications δ ν)) :
    List (Modifications δ ν) :=
  newmods.foldl (fun oldmods m2 => oldmods.filterMap (resolveMod sch m2)) oldmods

end

/-- What a logged operation gives: no normalized values, and no add without values. -/
def Logged (ms : List (Modification δ ν)) : Prop := ∀ m ∈ ms, m.nvalues = none ∧ (m.op = .add → numvals m ≠ 0)

theorem logged_append {ms ms' : List (Modification δ ν)} (h : Logged ms) (h' : Logged ms') : Logged (ms ++ ms') := by
  intro m hm
  obtain hm | hm := List.mem_append.mp hm
  · exact h m hm
  · exact h' m hm

def AddsValue (ls : List (LogLine δ ν)) : Prop := ∀ d, LogLine.line d '+' none ∉ ls

theorem addsValue_logMod (m : Modification δ ν) : AddsValue (logMod m) := by
  intro d hmem
  unfold logMod at hmem
  split at hmem
  · simp at hmem
  · split_ifs at hmem with hop
    · obtain hop | hop := hop <;> simp [hop, opSign] at hmem
    · simp at hmem

section

variable [DecidableEq δ]

theorem addsValue_logMods (ms : List (Modification δ ν)) : AddsValue (logMods ms) := by
  intro d
  induction ms with
  | nil => simp [logMods]
  | cons m ms ih =>
    cases ms with
    | nil => exact addsValue_logMod m d
    | cons m' ms =>
      simp only [logMods, mem_append, not_or]
      refine ⟨⟨addsValue_logMod m d, ?_⟩, ih⟩
      split_ifs <;> simp

theorem signOp_add {sign : Char} (h : signOp sign = some .add) : sign = '+' := by
  unfold signOp at h
  split at h <;> simp_all

omit [DecidableEq δ] in
theorem logged_fillMod {sign : Char} {op : ModOp} {value : Option ν} {m : Modification δ ν} (hsign : signOp sign = some op)
    (hadd : sign = '+' → value ≠ none) (hop : m.op = op) (hnone : m.nvalues = none) : Logged [fillMod m value] := by
  intro m' hm'
  rw [List.mem_singleton.mp hm']
  cases value with
  | some v => exact ⟨hnone, fun _ => by simp [fillMod, numvals]⟩
  | none =>
    refine ⟨hnone, fun h => absurd rfl (hadd (signOp_add ?_))⟩
    rw [hsign, ← hop]
    exact congrArg some h

theorem logged_loop {lsch : LogSchema δ} {ls : List (LogLine δ ν)} {done ms : List (Modification δ ν)}
    {mod : Option (Modification δ ν)} (hls : AddsValue ls) (hdone : Logged (done ++ mod.toList))
    (h : accesslogLoop lsch done mod ls = some ms) : Logged ms := by
  induction ls generalizing done mod with
  | nil =>
    cases h
    exact hdone
  | cons l ls ih =>
    have hrest : AddsValue ls := fun d hmem => hls d (mem_cons_of_mem _ hmem)
    cases l with
    | junk => exact ih hrest hdone h
    | sep => exact ih hrest (by simpa using hdone) h
    | unknown => cases h
    | line d sign value =>
      have hadd : sign = '+' → value ≠ none := by
        rintro rfl rfl
        exact hls d (mem_cons_self ..)
      unfold accesslogLoop at h
      split_ifs at h
      · exact ih hrest hdone h
      · exact ih hrest hdone h
      · cases hsign : signOp sign with
        | none =>
          simp only [hsign] at h
          exact ih hrest hdone h
        | some op =>
          cases mod with
          | none =>
            simp only [hsign] at h
            refine ih hrest ?_ h
            exact logged_append (by simpa using hdone) (logged_fillMod hsign hadd rfl rfl)
          | some m =>
            obtain ⟨hold, hlast⟩ : Logged done ∧ Logged [m] :=
              ⟨fun m' hm' => hdone m' (mem_append_left _ hm'), fun m' hm' => hdone m' (mem_append_right _ hm')⟩
            simp only [hsign] at h
            split_ifs at h with hsame
            · refine ih hrest ?_ h
              exact logged_append hold (logged_fillMod hsign hadd hsame.2.symm (hlast m (mem_singleton_self m)).1)
            · refine ih hrest ?_ h
              exact logged_append hdone (logged_fillMod hsign hadd rfl rfl)

theorem logged_accesslogMods (lsch : LogSchema δ) (ms : List (Modification δ ν)) :
    Logged (syncreplAccesslogMods lsch (logMods ms)) := by
  unfold syncreplAccesslogMods
  cases h : accesslogLoop lsch [] none (logMods ms) with
  | none => exact fun m hm => absurd hm not_mem_nil
  | some ms' => exact logged_loop (addsValue_logMods ms) (fun m hm => absurd hm not_mem_nil) h

end
end Sync
end ReOpenLDAP
