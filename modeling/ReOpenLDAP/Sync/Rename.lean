import ReOpenLDAP.Sync.ModCells
import ReOpenLDAP.Sync.Resolve

/-!
# Sync.Rename

The provider's entry in place of the local one, when its name has changed.

The DNs are read already, and the checks of `mdb_modrdn` that are about the parents and about access have passed.
-/

namespace ReOpenLDAP
namespace Sync

open Slapd

/-- The RDN of `e_name`, that of `e_nname`, the parent of `e_nname`, and the attributes. -/
structure NamedEntry (ρ π δ ν : Type) where
  rdn : ρ
  nrdn : ρ
  pdn : π
  attrs : List (Attr δ ν)
deriving DecidableEq

/-- How an RDN is read: by `ldap_bv2rdn`, and as what is before and behind the first `=`. -/
structure RdnReader (ρ δ ν : Type) where
  bv2rdn : ρ → List (δ × ν)
  desc : ρ → δ
  val : ρ → ν

structure RenameSchema (δ ν : Type) extends DiffSchema δ ν where
  entryCSN : δ

/-- `badPointer`: a pointer is followed that is null, or not set. -/
inductive RenameRc where
  | namingViolation
  | invalidSyntax
  | badPointer
  | abort
  | modify (rc : ModRc)
deriving DecidableEq

/-- The fields of `dninfo` that are set when the entry is renamed. -/
structure DnInfo (π δ : Type) where
  nnewSup : Option π
  delOldRdn : Bool
  oldDesc : δ
  newDesc : δ
  oldNcount : Nat
deriving DecidableEq

variable {ρ π δ ν : Type} [DecidableEq ρ] [DecidableEq π] [DecidableEq δ] [DecidableEq ν]

/-- `attr_valfind` on a normalized value; it fails where there is no rule. -/
def hasValue (sch : ModSchema δ ν) (a : Attr δ ν) (val : ν) : Bool :=
  match sch.equality a.desc with
  | none => false
  | some mr =>
    match attrValfind mr a true val with
    | .ok _ => true
    | .error _ => false

def attrPos (attrs : List (Attr δ ν)) (desc : δ) : Nat := attrs.findIdx (·.desc = desc)

def dnInfo (sch : RenameSchema δ ν) (rd : RdnReader ρ δ ν) (old new : NamedEntry ρ π δ ν) : DnInfo π δ where
  nnewSup := if old.pdn = new.pdn then none else some new.pdn
  delOldRdn :=
    match attrFind new.attrs (rd.desc old.nrdn) with
    | none => true
    | some a =>
      attrPos old.attrs (rd.desc old.nrdn) != attrPos new.attrs (rd.desc old.nrdn) ||
        !hasValue sch.toModSchema a (rd.val old.nrdn)
  oldDesc := rd.desc old.nrdn
  newDesc := rd.desc new.nrdn
  oldNcount := (attrFind old.attrs (rd.desc old.nrdn)).elim 0 (·.vals.length)

def renamed (old new : NamedEntry ρ π δ ν) : Bool := old.rdn ≠ new.rdn || old.pdn ≠ new.pdn

/-- The modifications of `dni.mods`. -/
def dnMods (sch : RenameSchema δ ν) (isCtx : Bool) (old new : NamedEntry ρ π δ ν) : Option (List (Modification δ ν)) :=
  syncreplDiffEntry sch.toDiffSchema isCtx old.attrs new.attrs (new.attrs.map replaceMod)

def rdnMod (sch : ModSchema δ ν) (op : ModOp) (ava : δ × ν) : Except RenameRc (Modification δ ν) :=
  match sch.equality ava.1 with
  -- only the new RDN is looked at
  | none => .error (if op = .softadd then .namingViolation else .badPointer)
  | some mr =>
    match mr.normalize with
    | none => .ok ⟨op, ava.1, some [ava.2], none⟩
    | some f =>
      match f ava.2 with
      -- likewise
      | none => .error (if op = .softadd then .invalidSyntax else .badPointer)
      | some n => .ok ⟨op, ava.1, some [ava.2], some [n]⟩

def slapModrdn2mods (sch : ModSchema δ ν) (newRdn oldRdn : List (δ × ν)) (deleteOldRdn : Bool) :
    Except RenameRc (List (Modification δ ν)) := do
  let adds ← newRdn.mapM (rdnMod sch .softadd)
  let dels ← if deleteOldRdn then oldRdn.mapM (rdnMod sch .delete) else pure []
  return dels.reverse ++ adds.reverse

def swapRemove {α : Type} (i : Nat) (xs : List α) : List α :=
  match xs.getLast? with
  | none => []
  | some z => (xs.set i z).dropLast

def dropValue (val : ν) (mod : Modification δ ν) : Modification δ ν :=
  match (mod.values.getD []).findIdx? (· = val) with
  | none => mod
  | some i => { mod with values := mod.values.map (swapRemove i), nvalues := mod.nvalues.map (swapRemove i) }

/-- `m2->sml_values[0]`, where `m2` is the first modification of the kind. -/
def rdnValue (modlist : List (Modification δ ν)) (desc : δ) (op : ModOp) : Option ν :=
  (modlist.find? fun m2 => m2.desc = desc ∧ m2.op = op).bind fun m2 => (m2.values.getD []).head?

/-- The loop for `oldDesc`; with it comes `got_replace`. -/
def dropOld (modlist : List (Modification δ ν)) (dni : DnInfo π δ) :
    List (Modification δ ν) → Except RenameRc (List (Modification δ ν) × Bool)
  | [] => .ok ([], false)
  | mod :: mods =>
    let next := (dropOld modlist dni mods).map fun r => (mod :: r.1, r.2)
    if mod.desc ≠ dni.oldDesc then next
    else if mod.op = .replace ∧ dni.oldDesc ≠ dni.newDesc then next
    else if numvals mod ≤ 1 ∧ dni.oldNcount = 1 ∧ (mod.op = .delete ∨ mod.op = .replace) then .ok (mods, mod.op = .replace)
    else if mod.op ≠ .delete ∨ numvals mod = 0 then next
    else
      match rdnValue modlist dni.oldDesc .delete with
      | none => .error .badPointer
      | some val =>
        let mod := dropValue val mod
        .ok (if numvals mod = 0 then mods else mod :: mods, false)

/-- The loop for `newDesc`. It looks for the value under `oldDesc`. -/
def dropNew (modlist : List (Modification δ ν)) (dni : DnInfo π δ) :
    List (Modification δ ν) → Except RenameRc (List (Modification δ ν))
  | [] => .ok []
  | mod :: mods =>
    if mod.desc ≠ dni.newDesc ∨ mod.op ≠ .add then (dropNew modlist dni mods).map (mod :: ·)
    else if numvals mod = 1 then .ok mods
    else if numvals mod = 0 then .ok (mod :: mods)
    else
      match rdnValue modlist dni.oldDesc .softadd with
      | none => .error .badPointer
      | some val => .ok (dropValue val mod :: mods)

def opattrs (sch : RenameSchema δ ν) : List δ := [sch.entryCSN, sch.modifiersName, sch.modifyTimestamp]

def pullOps : List δ → List (Modification δ ν) → List (Modification δ ν) × List (Modification δ ν)
  | [], mods => ([], mods)
  | desc :: descs, mods =>
    let r := pullOps descs (mods.eraseP (·.desc = desc))
    ((mods.find? (·.desc = desc)).toList ++ r.1, r.2)

/-- The branch of `syncrepl_entry` for a renamed entry: the modifications of the modrdn, and those of the modify. -/
def syncreplRename (sch : RenameSchema δ ν) (rd : RdnReader ρ δ ν) (dni : DnInfo π δ) (mods : List (Modification δ ν))
    (old new : NamedEntry ρ π δ ν) : Except RenameRc (List (Modification δ ν) × List (Modification δ ν)) := do
  let modlist ← slapModrdn2mods sch.toModSchema (rd.bv2rdn new.rdn) (rd.bv2rdn old.rdn) dni.delOldRdn
  let (mods, gotReplace) ← if dni.delOldRdn then dropOld modlist dni mods else pure (mods, false)
  let mods ← if gotReplace then pure mods else dropNew modlist dni mods
  match pullOps (opattrs sch) mods with
  -- `m2` has not been set
  | ([], _) => throw .badPointer
  | (ops, []) => return (modlist ++ ops, [])
  | (ops, mods) => return (modlist, mods ++ ops)

/-- What `slap_mods_opattrs` takes from the operation: its CSN, its identity and its time. -/
structure OpAttrs (ν : Type) where
  csn : Option ν
  name : ν
  nname : ν
  timestamp : ν

/-- `slap_mods_opattrs`; there is nothing to take if `lastmod` is off. -/
def slapModsOpattrs (sch : RenameSchema δ ν) (l : Option (OpAttrs ν)) (mods : List (Modification δ ν)) :
    List (Modification δ ν) :=
  match l with
  | none => mods
  | some l =>
    let got := fun desc => mods.any fun mod =>
      decide ((mod.op = .add ∨ mod.op = .softadd ∨ mod.op = .addIfNotPresent ∨ mod.op = .replace) ∧ mod.desc = desc)
    mods ++ (if got sch.entryCSN then [] else l.csn.toList.map fun csn => ⟨.replace, sch.entryCSN, some [csn], none⟩) ++
      (if got sch.modifiersName then [] else [⟨.replace, sch.modifiersName, some [l.name], some [l.nname]⟩]) ++
      (if got sch.modifyTimestamp then [] else [⟨.replace, sch.modifyTimestamp, some [l.timestamp], none⟩])

/-- `mdb_modify_internal` on an entry. -/
def mdbModify (sch : RenameSchema δ ν) (e : NamedEntry ρ π δ ν) (mods : List (Modification δ ν)) :
    Except RenameRc (NamedEntry ρ π δ ν) :=
  match modifyInternal sch.toModSchema e.attrs mods with
  | .error rc => .error (.modify rc)
  | .ok attrs => .ok { e with attrs := attrs }

/-- `mdb_modrdn`; the suffix entry is not renamed. -/
def mdbModrdn (sch : RenameSchema δ ν) (isSuffix : Bool) (l : Option (OpAttrs ν)) (e : NamedEntry ρ π δ ν) (rdn nrdn : ρ)
    (nnewSup : Option π) (modlist : List (Modification δ ν)) : Except RenameRc (NamedEntry ρ π δ ν) :=
  if isSuffix then .error .namingViolation
  else mdbModify sch { e with rdn := rdn, nrdn := nrdn, pdn := nnewSup.getD e.pdn } (slapModsOpattrs sch l modlist)

/-- `syncrepl_entry` with a newer version of a local entry. -/
def syncreplReplace (sch : RenameSchema δ ν) (rd : RdnReader ρ δ ν) (isCtx : Bool) (l : Option (OpAttrs ν))
    (old new : NamedEntry ρ π δ ν) : Except RenameRc (NamedEntry ρ π δ ν) :=
  match dnMods sch isCtx old new with
  | none => .error .abort
  | some mods =>
    if renamed old new then do
      let dni := dnInfo sch rd old new
      let (modlist, mods) ← syncreplRename sch rd dni mods old new
      let e ← mdbModrdn sch isCtx l old new.rdn new.nrdn dni.nnewSup modlist
      if mods = [] then return e else mdbModify sch e mods
    else if mods = [] then .ok old
    else mdbModify sch old mods

def Replaced (sch : RenameSchema δ ν) (rd : RdnReader ρ δ ν) (isCtx : Bool) (l : Option (OpAttrs ν))
    (old new : NamedEntry ρ π δ ν) : Prop :=
  ∃ e, syncreplReplace sch rd isCtx l old new = .ok e ∧ e.rdn = new.rdn ∧ e.nrdn = new.nrdn ∧ e.pdn = new.pdn ∧
    ∀ d, SameValues e.attrs new.attrs d

end Sync
end ReOpenLDAP
