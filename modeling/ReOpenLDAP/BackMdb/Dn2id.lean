import ReOpenLDAP.BackMdb.Dn
import Mathlib.Data.List.Lex
import Mathlib.Data.Prod.Lex

/-!
# BackMdb.Dn2id

The dn2id database. Under an entry's ID it holds the entry's own record, with its RDN and the ID of
its parent, and a record for each child, with the child's RDN, its ID and the number of entries in
its subtree. The high bit of `nrdnlen` is set in the children's records, so the own record is first.

libmdbx is an ordered multimap here, and its reads and writes do not fail. `MDBX_APPEND` is not
modelled: it makes a call fail that is allowed here, so every run of the code is a run of the model.
-/

namespace ReOpenLDAP
namespace BackMdb

def SLAP_LDAPDN_MAXLEN : Nat := 8192

/-- `diskNode`. The entry ID is the parent's in an own record; `nsubs` is stored in children's
records only. RDNs are shorter than 2^15, as DNs are limited to 8192 bytes. -/
structure DiskNode where
  child : Bool
  nrdn : List Byte
  rdn : List Byte
  entryID : Nat
  nsubs : Nat
deriving DecidableEq

namespace DiskNode

/-- What `mdb_dup_compare` compares: `nrdnlen` with its high bit, then the normalized RDN. -/
abbrev Key := Bool ×ₗ Nat ×ₗ List Byte

def mkKey (child : Bool) (nrdn : List Byte) : Key := toLex (child, toLex (nrdn.length, nrdn))

def key (d : DiskNode) : Key := mkKey d.child d.nrdn

/-- The last `sizeof(ID)` bytes of the record. -/
def lastID (d : DiskNode) : Nat := if d.child then d.nsubs else d.entryID

def setLastID (d : DiskNode) (id : Nat) : DiskNode :=
  if d.child then { d with nsubs := id } else { d with entryID := id }

end DiskNode

abbrev Dn2id := Nat → List DiskNode

namespace Dn2id

/-- `MDBX_SET`: the first data item of a key. -/
def set (db : Dn2id) (id : Nat) : Except Rc DiskNode :=
  match db id with
  | [] => .error .notfound
  | d :: _ => .ok d

/-- `MDBX_GET_BOTH` -/
def getBoth (db : Dn2id) (id : Nat) (k : DiskNode.Key) : Except Rc DiskNode :=
  match DupSort.find DiskNode.key k (db id) with
  | none => .error .notfound
  | some d => .ok d

/-- `mdbx_cursor_put` with `MDBX_NODUPDATA` -/
def putNodup (db : Dn2id) (id : Nat) (d : DiskNode) : Except Rc Dn2id :=
  match DupSort.find DiskNode.key d.key (db id) with
  | some _ => .error .keyexist
  | none => .ok (Function.update db id (DupSort.insert DiskNode.key d (db id)))

/-- `mdbx_cursor_put` with `MDBX_CURRENT`, on the item that compares equal. -/
def putCurrent (db : Dn2id) (id : Nat) (d : DiskNode) : Dn2id :=
  Function.update db id (DupSort.insert DiskNode.key d (db id))

/-- `mdbx_cursor_del` on the item with that key. -/
def del (db : Dn2id) (id : Nat) (k : DiskNode.Key) : Dn2id :=
  Function.update db id (DupSort.erase DiskNode.key k (db id))

end Dn2id

/-- An entry as far as dn2id is concerned: `e_id`, `e_nname` and `e_name`. -/
structure DnEntry where
  id : Nat
  nname : List Byte
  name : List Byte
deriving DecidableEq

namespace DnEntry

/-- The RDN that `mdb_dn2id_add` stores, which is the whole DN of the suffix entry. -/
def nrdn (suffix : List Byte) (e : DnEntry) : List Byte :=
  if dnRdnlen suffix e.nname ≠ 0 then e.nname.take (dnRdnlen suffix e.nname) else e.nname

def rdn (suffix : List Byte) (e : DnEntry) : List Byte :=
  if dnRdnlen suffix e.nname ≠ 0 then e.name.take (dnRdnlen suffix e.name) else e.name

end DnEntry

/-- The loop that corrects the count of `nid` and of all its superiors. A way up of more than `NOID`
steps meets an ID twice, and the loop of the source does not end. -/
def adjustSuperiors (adjust : Nat → Except Rc Nat) : Nat → Dn2id → Nat → Except Rc Dn2id
  | 0, _, _ => .error .bad
  | fuel + 1, db, nid =>
    -- Get parent's RDN
    match db.set nid with
    | .error rc => .error rc
    | .ok d =>
      let nid := d.lastID
      -- Get parent's node under grandparent
      match db.getBoth nid (DiskNode.mkKey (!d.child) d.nrdn) with
      | .error rc => .error rc
      | .ok p =>
        match adjust p.lastID with
        | .error rc => .error rc
        | .ok subs =>
          let db := db.putCurrent nid (p.setLastID subs)
          if nid = 0 then .ok db else adjustSuperiors adjust fuel db nid

/-- `subs += nsubs` on unsigned 64-bit integers. -/
def addSubs (nsubs subs : Nat) : Except Rc Nat := .ok ((subs + nsubs) % 2 ^ 64)

/-- `subs -= nsubs` on unsigned 64-bit integers. -/
def subSubs (nsubs subs : Nat) : Except Rc Nat := .ok ((subs + 2 ^ 64 - nsubs) % 2 ^ 64)

/-- `subs -= nsubs` where an underflow is an error. -/
def subSubsChecked (nsubs subs : Nat) : Except Rc Nat :=
  if nsubs ≤ subs then .ok (subs - nsubs) else .error .bad

/-- `dummy`, the own record of ID 0. -/
def dummyRoot : DiskNode := ⟨false, [], [], 0, 0⟩

def makeDummyRoot (db : Dn2id) (pid : Nat) : Dn2id :=
  if pid = 0 then
    match db.putNodup 0 dummyRoot with
    | .ok db => db
    | .error _ => db
  else db

def mdbDn2idAdd (suffix : List Byte) (db : Dn2id) (pid nsubs : Nat) (upsub : Bool) (e : DnEntry) :
    Except Rc Dn2id :=
  let nrdn := e.nrdn suffix
  let rdn := e.rdn suffix
  let db := makeDummyRoot db pid
  -- Add our child node under parent's key
  match db.putNodup pid ⟨true, nrdn, rdn, e.id, nsubs⟩ with
  | .error rc => .error rc
  | .ok db =>
    -- Add our own node
    match db.putNodup e.id ⟨false, nrdn, rdn, pid, 0⟩ with
    | .error rc => .error rc
    | .ok db =>
      -- Add our subtree count to all superiors
      if upsub = true ∧ pid ≠ 0 then adjustSuperiors (addSubs nsubs) NOID db pid else .ok db

/-- `mdb_dn2id_delete`, with the cursor on the record `mc.2` of the entry under its parent `mc.1`. The
parent's key keeps its own record, so after the deletion the cursor still tells the parent's ID.
`sub` is the subtraction. -/
def mdbDn2idDelete (sub : Nat → Nat → Except Rc Nat) (db : Dn2id) (mc : Nat × DiskNode) (id nsubs : Nat) :
    Except Rc Dn2id :=
  -- Delete our ID from the parent's list
  let db := db.del mc.1 mc.2.key
  -- Delete our ID from the tree
  match db.set id with
  | .error rc => .error rc
  | .ok d =>
    let db := db.del id d.key
    -- Delete our subtree count from all superiors
    if nsubs ≠ 0 ∧ mc.1 ≠ 0 then adjustSuperiors (sub nsubs) NOID db mc.1 else .ok db

/-- What `mdb_dn2id` returns: its code (`none` for 0), `*id`, `*nsubs`, `*matched`, `*nmatched`, and where
it leaves the cursor. -/
structure Dn2idResult where
  rc : Option Rc
  id : Nat
  nsubs : Nat
  matched : List Byte
  nmatched : List Byte
  mc : Option (Nat × DiskNode)
deriving DecidableEq

def Dn2idResult.failed (r : Dn2idResult) (rc : Rc) : Dn2idResult :=
  { r with rc := some rc, nsubs := 0, mc := none }

/-- A record of the next RDN has been found below `r.id`; `nmatched` is the DN up to this RDN. -/
def Dn2idResult.found (r : Dn2idResult) (d : DiskNode) (nmatched : List Byte) : Dn2idResult where
  rc := none
  id := d.entryID
  nsubs := d.nsubs
  matched := if r.id = 0 then d.rdn else d.rdn ++ comma :: r.matched
  nmatched := nmatched
  mc := some (r.id, d)

def dn2idStart : Dn2idResult := ⟨none, 0, 0, [], [], none⟩

/-- The loop of `mdb_dn2id`: the RDN `tmp` of the DN has `len` bytes at position `off`. -/
def dn2idLoop (db : Dn2id) (dn : List Byte) : Nat → Nat → Nat → Dn2idResult → Dn2idResult
  | 0, _, _, r => r.failed .bad
  | fuel + 1, off, len, r =>
    match db.getBoth r.id (DiskNode.mkKey true ((dn.drop off).take len)) with
    | .error rc => r.failed rc
    | .ok d =>
      let r := r.found d (dn.drop off)
      if 0 < off then
        -- a DN that starts with a comma: the code asks for the same RDN again
        if off = 1 then dn2idLoop db dn fuel off len r
        else
          let ptr := rdnStart dn (off - 1)
          dn2idLoop db dn fuel ptr (off - ptr - 1) r
      else r

/-- `mdb_dn2id`. A non-empty DN ends in the backend's suffix. -/
def mdbDn2id (suffix : List Byte) (db : Dn2id) (dn : List Byte) : Dn2idResult :=
  if dn = [] then dn2idStart
  else
    let off := if suffix ≠ [] then dn.length - suffix.length else rdnStart dn dn.length
    dn2idLoop db dn (dn.length + 1) off (dn.length - off) dn2idStart

/-- `mdb_dn2id_children`: `MDBX_NOTFOUND` if the entry has no children. -/
def mdbDn2idChildren (db : Dn2id) (id : Nat) : Except Rc Unit :=
  match db.set id with
  | .error rc => .error rc
  | .ok _ => if (db id).length < 2 then .error .notfound else .ok ()

/-- The loop of `mdb_id2name`: the names so far, pretty and normalized. An RDN of 1024 bytes fails
the assertion, and a longer name than the buffers hold is written over their end: both are `bad`. -/
def id2nameLoop (db : Dn2id) : Nat → Nat → List Byte → List Byte → Except Rc (List Byte × List Byte)
  | 0, _, _, _ => .error .bad
  | fuel + 1, id, name, nname =>
    if id = 0 then .ok (name, nname)
    else
      match db.set id with
      | .error rc => .error rc
      | .ok d =>
        if 1024 ≤ d.nrdn.length ∨ 1024 ≤ d.rdn.length then .error .bad
        else
          let sep := if nname = [] then [] else [comma]
          let name := name ++ sep ++ d.rdn
          let nname := nname ++ sep ++ d.nrdn
          if SLAP_LDAPDN_MAXLEN ≤ name.length ∨ SLAP_LDAPDN_MAXLEN ≤ nname.length then .error .bad
          else id2nameLoop db fuel d.lastID name nname

def mdbId2name (db : Dn2id) (id : Nat) : Except Rc (List Byte × List Byte) :=
  id2nameLoop db (NOID + 1) id [] []

end BackMdb
end ReOpenLDAP
