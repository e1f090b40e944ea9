import ReOpenLDAP.BackMdb.Filter
import ReOpenLDAP.BackMdb.Scope
import ReOpenLDAP.Sync.SessionLog

/-!
# Sync.Notify

How a write reaches the persistent searches. `syncprov_op_mod` looks before the write which searches see the entry,
`syncprov_op_response` looks again after it and queues one message for each search.

Searches are named by their addresses: a search that was unlinked from `si_ops` stays allocated while an operation
holds a match on it.
-/

namespace ReOpenLDAP
namespace Sync

open BackMdb SyncCookie

/-- `LDAP_SYNC_*` -/
inductive SyncMode where
  | newCookie
  | add
  | modify
  | delete
deriving DecidableEq

/-- `Entry`: what `attr_find` gives for the attributes that are read by name, and the attributes as a filter sees them. -/
structure SyncEntry where
  id : Nat
  name : List Byte
  ndn : List Byte
  uuid : Option { u : List Byte // u.length = 16 }
  referral : Bool
  contextCsn : Option (List Csn)
  attrs : List (AttributeDescription × List Value)

/-- `struct syncops`: the search and the bits of `s_flags`. `eid` is `none` for `NOID`. -/
structure SyncOp where
  sid : Int
  reqNdn : List Byte
  base : List Byte
  eid : Option Nat
  scope : Scope
  filter : BackMdb.Filter
  abandoned : Bool
  detached : Bool
  wroteBase : Bool
  findBase : Bool
  fixFilter : Bool
  lostBase : Bool
  dead : Bool
  playback : Bool
  opSearch : Bool
  opMatch : Bool
  inuse : Nat

/-- `struct resinfo`, with the messages that share it. -/
structure ResInfo where
  entry : Option SyncEntry
  dn : List Byte
  ndn : List Byte
  uuid : Option { u : List Byte // u.length = 16 }
  csn : Option Csn
  isref : Bool
  cookie : Option (List Csn)
  list : List (Nat × SyncMode)

/-- `struct opcookie` -/
structure OpCookie where
  smatches : List Nat
  se : Option SyncEntry
  sdn : List Byte
  sndn : List Byte
  suuid : Option { u : List Byte // u.length = 16 }
  sctxcsn : Option Csn
  osid : Int
  rsid : Int
  sreference : Bool
  info : Option ResInfo

/-- `struct syncprov_info_t`, and the searches its list points to. -/
structure Provider where
  heap : Nat → SyncOp
  ops : List Nat
  cookie : SyncCookie

/-- What does not change while the overlay is open: the suffix, whether there is a session log, the checking mode, and
how the items of a search's filter evaluate. An item gives no `LDAP_SUCCESS`. -/
structure NotifyConfig where
  contextdn : List Byte
  logs : Bool
  check : Bool
  leaf : Nat → SyncEntry → BackMdb.Filter → BackMdb.Compare
  leaf_ne : ∀ i e f, leaf i e f ≠ .success

/-- The database: entries by their DN, and the entry a base search with dereferencing returns. -/
structure EntryDb where
  get : List Byte → Option SyncEntry
  deref : List Byte → Option SyncEntry

/-- `Operation`. `relay` is the SID of the consumer that applies the operation, `ctxUpdate` the contextCSN values
of an update by a consumer, `commit` what `slap_get_commit_csn` returns. -/
structure WriteOp where
  tag : Tag
  ndn : List Byte
  newSup : Option (List Byte)
  newRdn : List Byte
  entry : SyncEntry
  csn : Option Csn
  relay : Option Int
  dontReplicate : Bool
  ctxUpdate : Option (List Csn)
  commit : Option Csn

structure Pass where
  si : Provider
  opc : OpCookie

namespace SyncOp

/-- The scope switch of `syncprov_findbase`. -/
def inScope (so : SyncOp) (fdn : List Byte) : Bool :=
  match so.scope with
  | .base => fdn = so.base
  | .onelevel => dnParent fdn = so.base
  | .subtree => dnIsSuffix fdn so.base
  | .children => dnIsSuffix fdn so.base && fdn ≠ so.base

/-- `syncprov_findbase`: `none` if the base is gone, otherwise whether `fdn` is in scope. -/
def findbase (db : EntryDb) (fdn : List Byte) (so : SyncOp) : SyncOp × Option Bool :=
  if so.findBase then
    let so := { so with findBase := false }
    match db.deref so.reqNdn with
    | none => (so, none)
    | some b =>
      match so.eid with
      | none => ({ so with eid := some b.id, base := b.ndn }, some false)
      | some id => if b.id = id ∧ b.ndn = so.base then (so, some (so.inScope fdn)) else (so, none)
  else (so, some (so.inScope fdn))

def effFilter (so : SyncOp) : BackMdb.Filter :=
  if so.fixFilter then
    match so.filter with
    | .and (.cons _ fs) => fs.head
    | f => f
  else so.filter

def released (so : SyncOp) : SyncOp := { so with inuse := so.inuse - 1, opMatch := decide (0 < so.inuse - 1) }

def written (so : SyncOp) (ndn : List Byte) : SyncOp := { so with wroteBase := decide (ndn = so.base) || so.wroteBase }

def queued (so : SyncOp) : SyncOp where
  __ := so
  findBase := so.wroteBase || so.findBase
  wroteBase := false
  playback := so.playback || so.detached

end SyncOp

namespace Provider

def set (si : Provider) (i : Nat) (so : SyncOp) : Provider := { si with heap := Function.update si.heap i so }

/-- `is_syncops_abandoned`, or `PS_DEAD` -/
def gone (si : Provider) (i : Nat) : Bool := i ∉ si.ops || (si.heap i).abandoned || (si.heap i).dead

/-- `syncprov_unlink_syncop` with `OS_REF_OP_SEARCH` -/
def unlinkSearch (si : Provider) (i : Nat) : Option Provider :=
  if (si.heap i).opSearch then
    some { si.set i { si.heap i with opSearch := false } with ops := si.ops.erase i }
  else none

/-- `syncprov_unlink_syncop` with `OS_REF_OP_MATCH` -/
def unlinkMatch (si : Provider) (i : Nat) : Option Provider :=
  if (si.heap i).opMatch ∧ 0 < (si.heap i).inuse then some (si.set i (si.heap i).released) else none

/-- The switch at `kill_locked`. -/
def killLocked (si : Provider) (i : Nat) : Option Provider :=
  match (si.heap i).playback, (si.heap i).detached with
  | true, false => none
  | true, true => some si
  | false, _ => si.unlinkSearch i

/-- The search through `opc->smatches` for this one, and the list without it. -/
def takeMatch (si : Provider) (i : Nat) : List Nat → Option (Bool × List Nat)
  | [] => some (false, [])
  | sm :: sms =>
    if (si.heap sm).opMatch ∧ 0 < (si.heap sm).inuse then
      if sm = i then some (true, sms)
      else (takeMatch si i sms).map fun r => (r.1, sm :: r.2)
    else none

end Provider

namespace WriteOp

/-- The DN that the passes look at: `o_req_ndn`, or the new DN after a rename. -/
def fdn (op : WriteOp) (saveit : Bool) : List Byte :=
  if op.tag = .modrdn ∧ saveit = false then buildNewDn (op.newSup.getD (dnParent op.ndn)) op.newRdn else op.ndn

def osid (op : WriteOp) : Int := op.csn.elim (-1) fun c => c.sid

def rsid (op : WriteOp) : Int := op.relay.getD (-1)

end WriteOp

section

variable (cfg : NotifyConfig)

instance (ck : SyncCookie) : Decidable ck.Verified :=
  inferInstanceAs (Decidable ((ck.csns.Pairwise fun a b => a.1 < b.1) ∧
    ∀ p ∈ ck.csns, p.1 = p.2.sid ∧ p.1 ≤ SLAP_SYNC_SID_MAX))

/-- The part of `syncprov_qresp` that makes the shared information of the first message. -/
def newInfo (opc : OpCookie) (mode : SyncMode) : Option ResInfo :=
  match opc.se with
  | some e =>
    if opc.sctxcsn = none ∧ ¬ (mode = .add ∨ mode = .modify ∨ mode = .newCookie) then none
    else some ⟨some e, e.name, e.ndn, e.uuid, opc.sctxcsn, opc.sreference, none, []⟩
  | none =>
    if opc.sctxcsn = none ∧ ¬ (mode = .newCookie ∨ mode = .delete) then none
    else some ⟨none, opc.sdn, opc.sndn, opc.suuid, opc.sctxcsn, opc.sreference, none, []⟩

/-- The cookie of a `LDAP_SYNC_NEW_COOKIE` message, with the checks before it is composed. -/
def composeCookie (ck : SyncCookie) (sctxcsn : Option Csn) (mode : SyncMode) (ri : ResInfo) : Option ResInfo :=
  if mode = .newCookie ∧ ri.cookie = none then
    if cfg.check ∧ ¬ (ck.Verified ∧ ∀ c, sctxcsn = some c → ∃ p ∈ ck.csns, p.2 = c) then none
    else some { ri with cookie := some (ck.csns.map Prod.snd) }
  else some ri

def shareInfo (opc : OpCookie) (mode : SyncMode) : Option (OpCookie × ResInfo) :=
  match opc.info with
  | some ri => some (opc, ri)
  | none => (newInfo opc mode).map fun ri => ({ opc with se := none }, ri)

/-- `syncprov_qresp` -/
def qresp (st : Pass) (i : Nat) (mode : SyncMode) : Option Pass :=
  if st.si.gone i then some st
  else
    match shareInfo st.opc mode with
    | none => none
    | some (opc, ri) =>
      (composeCookie cfg st.si.cookie opc.sctxcsn mode { ri with list := (i, mode) :: ri.list }).map fun ri =>
        ⟨st.si.set i (st.si.heap i).queued, { opc with info := some ri }⟩

/-- `test_filter` with the filter of a search. -/
def searchTest (i : Nat) (so : SyncOp) (e : SyncEntry) : BackMdb.Compare := BackMdb.testFilter (cfg.leaf i e) so.effFilter

def visitSave (late : Nat → Bool) (e : SyncEntry) (st : Pass) (i : Nat) (fscope : Bool) : Option Pass :=
  let so := st.si.heap i
  if fscope ∧ late i then
    ((st.si.set i { so with abandoned := true }).killLocked i).map fun si => { st with si := si }
  else if fscope ∧ searchTest cfg i so e = .true then
    if so.opSearch ∧ (so.inuse = 0 → so.opMatch = false) then
      some ⟨st.si.set i { so with inuse := so.inuse + 1, opMatch := true },
        { st.opc with smatches := i :: st.opc.smatches }⟩
    else none
  else some st

def notify (op : WriteOp) (st : Pass) (i : Nat) (fscope found : Bool) (rc : BackMdb.Compare) : Option Pass :=
  if fscope ∧ rc = .true then
    if found then
      if op.tag = .modify ∨ op.tag = .extended ∨ op.tag = .modrdn then qresp cfg st i .modify else none
    else if op.tag = .add then qresp cfg st i .add
    else none
  else if found then
    if op.tag = .delete then qresp cfg st i .delete else none
  else if (fscope = false ∧ rc = .success) ∨ (fscope = true ∧ rc ≠ .true ∧ rc ≠ .success) then
    if op.tag = .modify ∨ op.tag = .extended ∨ op.tag = .add then qresp cfg st i .newCookie else none
  else none

def visitSend (op : WriteOp) (late : Nat → Bool) (e : SyncEntry) (st : Pass) (i : Nat) (fscope : Bool) : Option Pass :=
  let so := (st.si.heap i).written op.ndn
  let si := st.si.set i so
  match si.takeMatch i st.opc.smatches with
  | none => none
  | some (found, smatches) =>
    let opc := { st.opc with smatches := smatches }
    if fscope ∧ late i then
      ((si.set i { so with abandoned := true }).killLocked i).map fun si => ⟨si, opc⟩
    else
      let rc := if fscope then searchTest cfg i so e else .success
      (notify cfg op ⟨si, opc⟩ i fscope found rc).bind fun st =>
        if found then (st.si.unlinkMatch i).map fun si => { st with si := si } else some st

/-- One round of `syncprov_matchops`. `late` says which searches are abandoned after the first check of the round. -/
def visitSearch (op : WriteOp) (saveit : Bool) (db : EntryDb) (late : Nat → Bool) (e : SyncEntry) (st : Pass) (i : Nat) :
    Option Pass :=
  let so := st.si.heap i
  if st.si.gone i then some st
  else if so.opSearch = false then none
  -- Don't send ops back to the originator
  else if op.tag ≠ .delete ∧ 0 < st.opc.osid ∧ st.opc.osid = so.sid then some st
  -- Don't send ops back to the messenger
  else if 0 < st.opc.rsid ∧ st.opc.rsid = so.sid then some st
  else
    match so.findbase db (op.fdn saveit) with
    | (so, none) =>
      ((st.si.set i { so with dead := true, lostBase := true }).killLocked i).map fun si => { st with si := si }
    | (so, some fscope) =>
      let st := { st with si := st.si.set i so }
      if saveit then visitSave cfg late e st i fscope else visitSend cfg op late e st i fscope

/-- The entry that a pass looks at, as `overlay_entry_get_ov` finds it. -/
def WriteOp.target (op : WriteOp) (saveit : Bool) (db : EntryDb) : Option SyncEntry :=
  if op.tag = .add then some op.entry else db.get (op.fdn saveit)

def noteEntry (op : WriteOp) (saveit : Bool) (e : SyncEntry) (opc : OpCookie) : OpCookie :=
  let opc := if saveit then opc else { opc with se := some e }
  if saveit ∨ op.tag = .add then
    { opc with sdn := e.name, sndn := e.ndn, sreference := e.referral, suuid := e.uuid <|> opc.suuid }
  else if op.tag = .modrdn then { opc with sdn := e.name, sndn := e.ndn }
  else opc

/-- `syncprov_matchops` -/
def matchops (op : WriteOp) (saveit : Bool) (db : EntryDb) (late : Nat → Bool) (st : Pass) : Option Pass :=
  match op.target saveit db with
  | none => some st
  | some e =>
    let e := if saveit then e else st.opc.se.getD e
    st.si.ops.foldlM (visitSearch cfg op saveit db late e) { st with opc := noteEntry op saveit e st.opc }

/-! ## The callbacks -/

/-- `syncprov_op_mod`, without the lock on the entry. -/
def opMod (op : WriteOp) (db : EntryDb) (late : Nat → Bool) (si : Provider) : Option Pass :=
  let opc : OpCookie := ⟨[], none, [], [], none, none, op.osid, op.rsid, false, none⟩
  if op.dontReplicate then some ⟨si, opc⟩
  else if (si.ops ≠ [] ∨ cfg.logs) ∧ op.tag ≠ .add then matchops cfg op true db late ⟨si, opc⟩
  else some ⟨si, opc⟩

/-- `slap_cookie_merge_csnset` on the values that pass `slap_csn_verify_full`, and whether one of them was new. -/
def mergeCsnset (ck : SyncCookie) (vals : List Csn) : SyncCookie × Bool :=
  vals.foldl (fun r v => let m := r.1.slapCookieMergeCsn v.sid v; (m.1, r.2 || m.2 = .gt)) (ck, false)

def withCookie (st : Pass) (ck : SyncCookie) : Pass := { st with si := { st.si with cookie := ck } }

/-- `syncprov_new_ctxcsn_and_mayrwunlock` -/
def newCtxcsn (st : Pass) (vals : List Csn) (changed : Bool) : Option Pass :=
  let (ck, forward) := mergeCsnset st.si.cookie vals
  if forward || changed then st.si.ops.foldlM (fun st i => qresp cfg st i .newCookie) (withCookie st ck)
  else some (withCookie st ck)

/-- The update of `si_cookie` with the CSN that was committed. -/
def commitCsn (ck : SyncCookie) : Option Csn → SyncCookie × Bool
  | none => (ck, false)
  | some c => let m := ck.slapCookieMergeCsn c.sid c; (m.1, m.2 = .gt)

def addContext (op : WriteOp) (st : Pass) (changed : Bool) : Option Pass :=
  if op.tag = .add ∧ op.ndn = cfg.contextdn then
    match op.entry.contextCsn with
    | some vals => newCtxcsn cfg st vals changed
    | none => some st
  else some st

/-- The end of `syncprov_op_response`: handle any persistent searches. -/
def dispatch (op : WriteOp) (db : EntryDb) (late : Nat → Bool) (st : Pass) : Option Pass :=
  if st.si.ops = [] then some st
  else if op.tag = .delete then st.opc.smatches.foldlM (fun st i => qresp cfg st i .delete) st
  else matchops cfg op false db late st

/-- `syncprov_op_response` after a successful operation, without the session log and the checkpoint. -/
def opResponse (op : WriteOp) (db : EntryDb) (late : Nat → Bool) (st : Pass) : Option Pass :=
  let (ck, changed) := commitCsn st.si.cookie op.commit
  let st := withCookie st ck
  -- Don't do any processing for consumer contextCSN updates
  if op.tag = .modify ∧ op.ctxUpdate.isSome then newCtxcsn cfg st (op.ctxUpdate.getD []) changed
  else if op.dontReplicate then some st
  else
    (addContext cfg op st changed).bind fun st =>
      dispatch cfg op db late { st with opc := { st.opc with sctxcsn := if changed then op.commit else none } }

end
end Sync
end ReOpenLDAP
