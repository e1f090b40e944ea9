import ReOpenLDAP.BackMdb.Dn2id
import ReOpenLDAP.BackMdb.NextId

/-!
# BackMdb.Update

`mdb_add`, `mdb_delete` and `mdb_modrdn` as far as they read and write dn2id and the keys of id2entry.
An operation that fails aborts its transaction, so its tables are those before. Left out are the checks
that may only refuse a request (access, referrals, aliases, glue, assertions) and the entry's
attributes with their indices. The normalized name of a renamed entry is built from the normalized
names of its parts.

`sub` is the subtraction of `mdb_dn2id_delete`: `subSubs` in the code.
-/

namespace ReOpenLDAP
namespace BackMdb

inductive LdapError where
  | alreadyExists
  | referral
  | noSuchObject
  | notAllowedOnNonleaf
  | namingViolation
  | other
deriving DecidableEq

structure Tables where
  dn2id : Dn2id
  id2entry : List Nat

def Tables.empty : Tables := ⟨fun _ => [], []⟩

/-- Whether `mdb_id2entry` returns an entry: under an empty suffix there is a glue entry of ID 0. -/
def hasEntry (suffix : List Byte) (s : Tables) (id : Nat) : Bool :=
  decide (id ∈ s.id2entry) || (decide (id = 0) && decide (suffix = []))

/-- What `mdb_dn2entry` returns. -/
structure Dn2entry where
  rc : Option Rc
  e : Option DnEntry
  nsubs : Nat
  mc : Option (Nat × DiskNode)

def mdbDn2entry (suffix : List Byte) (s : Tables) (dn : List Byte) (matched : Bool) : Dn2entry :=
  let r := mdbDn2id suffix s.dn2id dn
  match r.rc with
  | some rc =>
    let e := if matched && hasEntry suffix s r.id then some ⟨r.id, r.nmatched, r.matched⟩ else none
    ⟨some rc, e, r.nsubs, r.mc⟩
  | none =>
    if hasEntry suffix s r.id then ⟨none, some ⟨r.id, dn, r.matched⟩, r.nsubs, r.mc⟩
    else ⟨some .notfound, none, r.nsubs, r.mc⟩

def slapEntryRoot : DnEntry := ⟨0, [], []⟩

def parentDn (suffix ndn : List Byte) : List Byte := if ndn = suffix then [] else dnParent ndn

def properName (p : Option DnEntry) (dn : List Byte) : List Byte :=
  match p with
  | none => dn
  | some p => if p.nname ≠ [] ∧ p.name ≠ dnParent dn then buildNewDn p.name (dnRdn dn) else dn

/-- `mdb_add` of the entry with the names `ndn` and `dn`. -/
def mdbAdd (suffix : List Byte) (s : Tables) (ndn dn : List Byte) : Except LdapError Tables :=
  let pdn := parentDn suffix ndn
  -- get entry or parent
  let r := mdbDn2entry suffix s ndn true
  match r.rc with
  | none => .error .alreadyExists
  | some .notfound =>
    let p := r.e.getD slapEntryRoot
    if pdn ≠ p.nname then .error .referral
    else
      let eid := mdbNextId ⟨s.id2entry, 0⟩
      -- after the last ID, `++id` is 0, and `MDBX_APPEND` refuses it as a key of id2entry
      if eid = 2 ^ 64 then .error .other
      else
        match mdbDn2idAdd suffix s.dn2id p.id 1 true ⟨eid, ndn, properName r.e dn⟩ with
        | .error .keyexist => .error .alreadyExists
        | .error _ => .error .other
        | .ok db => .ok ⟨db, s.id2entry ++ [eid]⟩
  | some _ => .error .other

def mdbDelete (sub : Nat → Nat → Except Rc Nat) (suffix : List Byte) (s : Tables) (ndn : List Byte) :
    Except LdapError Tables :=
  let pdn := parentDn suffix ndn
  -- get parent
  match (mdbDn2entry suffix s pdn true).rc with
  | some .notfound => .error .referral
  | some _ => .error .other
  | none =>
    -- get entry
    match mdbDn2entry suffix s ndn false with
    | ⟨none, some e, _, mc⟩ =>
      -- Can't do it if we have kids
      match mdbDn2idChildren s.dn2id e.id with
      | .ok _ => .error .notAllowedOnNonleaf
      | .error .notfound =>
        match mc with
        | none => .error .other
        | some mc =>
          match mdbDn2idDelete sub s.dn2id mc e.id 1 with
          | .error _ => .error .other
          | .ok db => .ok ⟨db, s.id2entry.erase e.id⟩
      | .error _ => .error .other
    | ⟨some .notfound, _, _, _⟩ => .error .referral
    | _ => .error .other

/-- The new superior of `mdb_modrdn`: `np`, and the DNs (normalized and pretty) under which the entry
gets its new name. -/
def newParent (suffix : List Byte) (s : Tables) (e : DnEntry) (pNdn pDn : List Byte)
    (newSup : Option (List Byte)) : Except LdapError (Option DnEntry × List Byte × List Byte) :=
  -- newSuperior == oldParent?
  match (if newSup = some pNdn then none else newSup) with
  | none => .ok (none, pNdn, pDn)
  | some npNdn =>
    if npNdn ≠ [] then
      -- newSuperior == entry being moved?, if so ==> ERROR
      if dnIsSuffix npNdn e.nname then .error .noSuchObject
      else
        match mdbDn2entry suffix s npNdn false with
        | ⟨none, some np, _, _⟩ => .ok (some np, npNdn, np.name)
        | ⟨some .notfound, _, _, _⟩ => .error .noSuchObject
        | _ => .error .other
    else
      -- no parent, modrdn entry directly under root
      .ok (none, [], [])

/-- `mdb_modrdn` of the entry with the names `ndn` and `dn` -/
def mdbModrdn (sub : Nat → Nat → Except Rc Nat) (suffix : List Byte) (s : Tables)
    (ndn dn nnewrdn newrdn : List Byte) (newSup : Option (List Byte)) : Except LdapError Tables :=
  if ndn = suffix then .error .namingViolation
  else
    let pNdn := dnParent ndn
    match mdbDn2entry suffix s pNdn false with
    | ⟨none, some p, _, _⟩ =>
      -- get entry
      match mdbDn2entry suffix s ndn false with
      | ⟨none, some e, nsubs, some mc⟩ =>
        match newParent suffix s e pNdn (dnParent dn) newSup with
        | .error rc => .error rc
        | .ok (np, newParentNdn, newParentDn) =>
          -- Build target dn and make sure target entry doesn't exist already.
          let newNdn := buildNewDn newParentNdn nnewrdn
          let newDn := buildNewDn newParentDn newrdn
          let r := mdbDn2id suffix s.dn2id newNdn
          -- Allow rename to same DN
          if r.rc = none ∧ r.id ≠ e.id then .error .alreadyExists
          else if r.rc ≠ none ∧ r.rc ≠ some .notfound then .error .other
          else
            -- delete old DN
            match mdbDn2idDelete sub s.dn2id mc e.id (if np.isSome then nsubs else 0) with
            | .error _ => .error .other
            | .ok db =>
              -- add new DN
              match mdbDn2idAdd suffix db (np.getD p).id nsubs np.isSome ⟨e.id, newNdn, newDn⟩ with
              | .error _ => .error .other
              | .ok db => .ok { s with dn2id := db }
      | ⟨none, some _, _, none⟩ => .error .other
      | ⟨some .notfound, _, _, _⟩ => .error .referral
      | _ => .error .other
    | ⟨some .notfound, _, _, _⟩ => .error .referral
    | _ => .error .other

/-! ## What a successful operation did -/

variable {s s' : Tables} {suffix dn ndn : List Byte}

theorem mdbDn2entry_ok {matched : Bool} {e : DnEntry} {nsubs : Nat}
    {mc : Option (Nat × DiskNode)} (h : mdbDn2entry suffix s dn matched = ⟨none, some e, nsubs, mc⟩) :
    (mdbDn2id suffix s.dn2id dn).rc = none ∧ (mdbDn2id suffix s.dn2id dn).id = e.id ∧ e.nname = dn ∧
      hasEntry suffix s e.id = true ∧ (mdbDn2id suffix s.dn2id dn).nsubs = nsubs ∧
      (mdbDn2id suffix s.dn2id dn).mc = mc := by
  unfold mdbDn2entry at h
  cases hrc : (mdbDn2id suffix s.dn2id dn).rc with
  | some rc => simp [hrc] at h
  | none =>
    simp only [hrc] at h
    split_ifs at h with he
    · simp only [Dn2entry.mk.injEq, Option.some.injEq, true_and] at h
      obtain ⟨rfl, hns, hmc⟩ := h
      exact ⟨rfl, rfl, rfl, he, hns, hmc⟩
    · simp at h

theorem mdbAdd_ok (h : mdbAdd suffix s ndn dn = .ok s') : (mdbDn2entry suffix s ndn true).rc = some .notfound ∧
    parentDn suffix ndn = ((mdbDn2entry suffix s ndn true).e.getD slapEntryRoot).nname ∧
    mdbNextId ⟨s.id2entry, 0⟩ ≠ 2 ^ 64 ∧
    ∃ db, mdbDn2idAdd suffix s.dn2id ((mdbDn2entry suffix s ndn true).e.getD slapEntryRoot).id 1 true
        ⟨mdbNextId ⟨s.id2entry, 0⟩, ndn, properName (mdbDn2entry suffix s ndn true).e dn⟩ = .ok db ∧
      s' = ⟨db, s.id2entry ++ [mdbNextId ⟨s.id2entry, 0⟩]⟩ := by
  unfold mdbAdd at h
  cases hrc : (mdbDn2entry suffix s ndn true).rc with
  | none => simp [hrc] at h
  | some rc =>
    simp only [hrc] at h
    cases rc with
    | notfound =>
      simp only at h
      split_ifs at h with hp hid
      refine ⟨rfl, not_not.mp hp, hid, ?_⟩
      split at h
      · cases h
      · cases h
      · next db hdb => exact ⟨db, hdb, (Except.ok.inj h).symm⟩
    | keyexist => cases h
    | ekeymismatch => cases h
    | bad => cases h
    | io _ => cases h

theorem mdbDelete_ok {sub : Nat → Nat → Except Rc Nat} (h : mdbDelete sub suffix s ndn = .ok s') :
    ∃ e nsubs mc db, mdbDn2entry suffix s ndn false = ⟨none, some e, nsubs, some mc⟩ ∧
      mdbDn2idChildren s.dn2id e.id = .error .notfound ∧ mdbDn2idDelete sub s.dn2id mc e.id 1 = .ok db ∧
      s' = ⟨db, s.id2entry.erase e.id⟩ := by
  unfold mdbDelete at h
  simp only at h
  split at h
  · cases h
  · cases h
  · split at h
    · next e nsubs mc he =>
      split at h
      · cases h
      · next hc =>
        split at h
        · cases h
        · next mc =>
          split at h
          · cases h
          · next db hdb => exact ⟨e, nsubs, mc, db, he, hc, hdb, (Except.ok.inj h).symm⟩
      · cases h
    · cases h
    · cases h

/-- The three ways to a new name: the entry stays under its parent, it moves under `np`, or the request
names the root as the new superior. -/
theorem newParent_ok {pNdn pDn : List Byte} {e : DnEntry} {newSup : Option (List Byte)}
    {np : Option DnEntry} (h : newParent suffix s e pNdn pDn newSup = .ok (np, ndn, dn)) :
    ((newSup = none ∨ newSup = some pNdn) ∧ np = none ∧ ndn = pNdn ∧ dn = pDn) ∨
    (∃ npNdn n nsubs mc, newSup = some npNdn ∧ npNdn ≠ pNdn ∧ npNdn ≠ [] ∧ dnIsSuffix npNdn e.nname = false ∧
      mdbDn2entry suffix s npNdn false = ⟨none, some n, nsubs, mc⟩ ∧ np = some n ∧ ndn = npNdn ∧ dn = n.name) ∨
    (newSup = some [] ∧ pNdn ≠ [] ∧ np = none ∧ ndn = [] ∧ dn = []) := by
  unfold newParent at h
  split at h
  · next hsup =>
    cases h
    refine .inl ⟨?_, rfl, rfl, rfl⟩
    split_ifs at hsup with he
    · exact .inr he
    · exact .inl hsup
  · next npNdn hsup =>
    have hne : newSup ≠ some pNdn := by
      intro he
      rw [if_pos he] at hsup
      cases hsup
    rw [if_neg hne] at hsup
    have hpn : npNdn ≠ pNdn := by
      intro he
      rw [hsup, he] at hne
      exact hne rfl
    split_ifs at h with hempty hsuffix
    · split at h
      · next n nsubs mc hn =>
        simp only [Except.ok.injEq, Prod.mk.injEq] at h
        obtain ⟨hnp, hndn, hdn⟩ := h
        exact .inr (.inl ⟨npNdn, n, nsubs, mc, hsup, hpn, hempty, by simpa using hsuffix, hn, hnp.symm, hndn.symm,
          hdn.symm⟩)
      · cases h
      · cases h
    · cases h
      have hnil : npNdn = [] := not_not.mp hempty
      rw [hnil] at hsup hpn
      exact .inr (.inr ⟨hsup, hpn.symm, rfl, rfl, rfl⟩)

theorem mdbModrdn_ok {sub : Nat → Nat → Except Rc Nat} {nnewrdn newrdn : List Byte}
    {newSup : Option (List Byte)} (h : mdbModrdn sub suffix s ndn dn nnewrdn newrdn newSup = .ok s') :
    ndn ≠ suffix ∧ ∃ p pnsubs pmc e nsubs mc np newParentNdn newParentDn db₁ db₂,
      mdbDn2entry suffix s (dnParent ndn) false = ⟨none, some p, pnsubs, pmc⟩ ∧
      mdbDn2entry suffix s ndn false = ⟨none, some e, nsubs, some mc⟩ ∧
      newParent suffix s e (dnParent ndn) (dnParent dn) newSup = .ok (np, newParentNdn, newParentDn) ∧
      ((mdbDn2id suffix s.dn2id (buildNewDn newParentNdn nnewrdn)).rc = none →
        (mdbDn2id suffix s.dn2id (buildNewDn newParentNdn nnewrdn)).id = e.id) ∧
      mdbDn2idDelete sub s.dn2id mc e.id (if np.isSome then nsubs else 0) = .ok db₁ ∧
      mdbDn2idAdd suffix db₁ (np.getD p).id nsubs np.isSome
        ⟨e.id, buildNewDn newParentNdn nnewrdn, buildNewDn newParentDn newrdn⟩ = .ok db₂ ∧
      s' = { s with dn2id := db₂ } := by
  unfold mdbModrdn at h
  split_ifs at h with hsuffix
  refine ⟨hsuffix, ?_⟩
  simp only at h
  split at h
  · next p pnsubs pmc hp =>
    split at h
    · next e nsubs mc he =>
      split at h
      · cases h
      · next np newParentNdn newParentDn hnew =>
        split at h
        · cases h
        · next hex =>
          split at h
          · cases h
          · split at h
            · cases h
            · next db₁ hdel =>
              split at h
              · cases h
              · next db₂ hadd =>
                refine ⟨p, pnsubs, pmc, e, nsubs, mc, np, newParentNdn, newParentDn, db₁, db₂, hp, he, hnew, ?_, hdel,
                  hadd, (Except.ok.inj h).symm⟩
                intro hrc
                by_contra hne
                exact hex ⟨hrc, hne⟩
    · cases h
    · cases h
    · cases h
  · cases h
  · cases h

inductive Request where
  | add (ndn : Dn) (dn : List Byte)
  | delete (ndn : Dn)
  | modrdn (ndn : Dn) (dn : List Byte) (nnewrdn newrdn : Rdn) (newSup : Option Dn)

def Request.run (sub : Nat → Nat → Except Rc Nat) (suffix : List Byte) (s : Tables) :
    Request → Except LdapError Tables
  | add ndn dn => mdbAdd suffix s (ndn.str suffix) dn
  | delete ndn => mdbDelete sub suffix s (ndn.str suffix)
  | modrdn ndn dn nnewrdn newrdn newSup =>
    mdbModrdn sub suffix s (ndn.str suffix) dn nnewrdn.bytes newrdn.bytes (newSup.map (Dn.str suffix))

def Performs (suffix : List Byte) (s : Tables) (q : Request) (s' : Tables) : Prop :=
  q.run subSubs suffix s = .ok s'

end BackMdb
end ReOpenLDAP
