import ReOpenLDAP.BackMdb.IdlSets
import ReOpenLDAP.BackMdb.Update

/-!
# BackMdb.Scope

The loop of `mdb_search` over the entries that the filter is tested on, without aliases, paged results
and limits. It takes one of two ways.

Both assemble the DN of an entry from the RDNs they passed. The arrays of the code have fixed sizes: to write
behind the end of one, and to fail an assertion, is `Rc.bad` here.
-/

namespace ReOpenLDAP
namespace BackMdb

def MAXRDNS : Nat := SLAP_LDAPDN_MAXLEN / 4

inductive Scope where
  | base
  | onelevel
  | subtree
  | children
deriving DecidableEq

/-- `ID2`. The base of the search has no `mval`; the superiors that were met have their own records. -/
structure ID2 where
  mid : Nat
  mval : Option DiskNode
deriving DecidableEq

def mdbId2lSearch (ids : List ID2) (id : Nat) : Nat := Search.search id (ids.map ID2.mid)

/-- The element that the callers of `mdb_id2l_search` look at: it is there and has this ID. -/
def id2lFind (ids : List ID2) (id : Nat) : Option ID2 :=
  match ids[mdbId2lSearch ids id - 1]? with
  | some d => if d.mid = id then some d else none
  | none => none

/-- `mdb_id2l_insert`, which fails on a duplicate and on a full list. -/
def mdbId2lInsert (ids : List ID2) (d : ID2) : Option (List ID2) :=
  if (id2lFind ids d.mid).isSome then none
  else if MDB_IDL_UM_MAX ≤ ids.length then none
  else some (ids.insertIdx (mdbId2lSearch ids d.mid - 1) d)

/-- "This node is in scope, add parent chain to scope": the loop ends at the first failure. -/
def addChain : List ID2 → List ID2 → List ID2
  | scopes, [] => scopes
  | scopes, d :: ds =>
    match mdbId2lInsert scopes d with
    | some scopes => addChain scopes ds
    | none => scopes

/-- The members of `IdScopes` that `mdb_idscopes` sets. `rdns` are the records with the RDNs, in the
order they were found. -/
structure IdScopes where
  scopes : List ID2
  nscope : Nat
  rdns : List DiskNode
deriving DecidableEq

/-- The record that a round of `mdb_idscopes` works on. -/
def ownRecord (db : Dn2id) (id : Nat) : Option DiskNode → Except Rc DiskNode
  | some d => .ok d
  | none => db.set id

/-- The position of `id`, which was at `x` before `scopes` got its new elements. -/
def checkAgain (scopes : List ID2) (id x : Nat) : Nat :=
  if scopes[x - 1]?.map ID2.mid = some id then x else mdbId2lSearch scopes id

/-- The loop of `mdb_idscopes`. `cached` is the record that was found in `scopes` (`rc` is 1 then), and it
stays when the next superior is not in `scopes`. The fuel is the free part of `isc->rdns`. -/
def idscopesLoop (db : Dn2id) (scope : Scope) (self : Nat) (scopes : List ID2) :
    Nat → Nat → Option DiskNode → List ID2 → List DiskNode → Except Rc IdScopes
  | fuel, id, cached, sctmp, rdns =>
    if id = 0 then .ok ⟨scopes, 0, rdns⟩
    else
      match ownRecord db id cached with
      | .error rc => .error rc
      | .ok d =>
        match fuel with
        | 0 => .error .bad
        | fuel + 1 =>
          let rdns := rdns ++ [d]
          -- remember our chain of parents
          match (if cached.isNone ∧ id ≠ self then mdbId2lInsert sctmp ⟨id, some d⟩ else some sctmp) with
          | none => .error .bad
          | some sctmp =>
            -- If we didn't advance, some parent is missing
            if d.lastID = id then .error .notfound
            else
              match id2lFind scopes d.lastID with
              | some ⟨_, none⟩ =>
                .ok ⟨addChain scopes sctmp,
                  checkAgain (addChain scopes sctmp) d.lastID (mdbId2lSearch scopes d.lastID), rdns⟩
              | some ⟨_, some c⟩ =>
                if scope = Scope.onelevel then .ok ⟨scopes, 0, rdns⟩
                else idscopesLoop db scope self scopes fuel d.lastID (some c) sctmp rdns
              | none =>
                if scope = Scope.onelevel then .ok ⟨scopes, 0, rdns⟩
                else idscopesLoop db scope self scopes fuel d.lastID (if cached.isSome then some d else none) sctmp rdns

def mdbIdscopes (db : Dn2id) (scope : Scope) (scopes : List ID2) (id : Nat) : Except Rc IdScopes :=
  match id2lFind scopes id with
  | some _ => .ok ⟨scopes, mdbId2lSearch scopes id, []⟩
  | none => idscopesLoop db scope id scopes MAXRDNS id none [] []

/-- The DN of an entry: RDNs from the entry up, and the DN of the entry above them. Without such an entry
the last separator goes away. -/
def assembleDn (top : Bool) (rdns : List (List Byte)) (pdn : List Byte) : List Byte :=
  if top then (rdns.flatMap (· ++ [comma])).dropLast else rdns.flatMap (· ++ [comma]) ++ pdn

def childEntry (id : Nat) (rdns : List DiskNode) (pdn pndn : List Byte) : DnEntry where
  id := id
  nname := assembleDn (pdn = []) (rdns.map DiskNode.nrdn) pndn
  name := assembleDn (pdn = []) (rdns.map DiskNode.rdn) pdn

inductive Outcome where
  | examined (e : DnEntry)
  | skipped
  | notfound
deriving DecidableEq

def Outcome.entries : Outcome → List DnEntry
  | .examined e => [e]
  | _ => []

/-- What the loop does with one candidate, and `isc.scopes` after it. -/
def candidateStep (s : Tables) (base : DnEntry) (scope : Scope) (scopes : List ID2) (id : Nat) :
    Except Rc (List ID2 × Outcome) :=
  if id = base.id then
    if scope = .base ∨ scope = .subtree then .ok (scopes, .examined base) else .ok (scopes, .skipped)
  else if scope = .base then .ok (scopes, .skipped)
  else
    match mdbIdscopes s.dn2id scope scopes id with
    | .error .notfound => .ok (scopes, .notfound)
    | .error rc => .error rc
    | .ok isc =>
      if isc.nscope = 0 then .ok (isc.scopes, .skipped)
      else if id ∉ s.id2entry then .ok (isc.scopes, .notfound)
      else
        match isc.scopes[isc.nscope - 1]? with
        | none => .error .bad
        | some top =>
          -- child of base, just append RDNs to base->e_name
          if top.mid = base.id then .ok (isc.scopes, .examined (childEntry id isc.rdns base.name base.nname))
          else
            match mdbId2name s.dn2id top.mid with
            | .error rc => .error rc
            | .ok (pdn, pndn) => .ok (isc.scopes, .examined (childEntry id isc.rdns pdn pndn))

def candidateListLoop (s : Tables) (base : DnEntry) (scope : Scope) : List Nat → List ID2 → Except Rc (List DnEntry)
  | [], _ => .ok []
  | id :: ids, scopes =>
    match candidateStep s base scope scopes id with
    | .error rc => .error rc
    | .ok (scopes, out) => (candidateListLoop s base scope ids scopes).map (out.entries ++ ·)

/-- `mdb_get_nextid`: the next ID from the DB. -/
def mdbGetNextid (s : Tables) (id : Nat) : Option Nat := s.id2entry.find? fun y => id < y

/-- The candidates are a range, of which `id` is the next. -/
def candidateRangeLoop (s : Tables) (base : DnEntry) (scope : Scope) (hi id : Nat) (scopes : List ID2) :
    Except Rc (List DnEntry) :=
  if hi < id ∨ id = NOID then .ok []
  else
    match candidateStep s base scope scopes id with
    | .error rc => .error rc
    | .ok (scopes, .notfound) =>
      match _hy : mdbGetNextid s id with
      | none => .ok []
      | some y => candidateRangeLoop s base scope hi y scopes
    | .ok (scopes, out) => (candidateRangeLoop s base scope hi (id + 1) scopes).map (out.entries ++ ·)
termination_by hi + 1 - id
decreasing_by
  · have hlt := List.find?_some _hy
    simp only [decide_eq_true_eq] at hlt
    omega
  · omega

def candidateLoop (s : Tables) (base : DnEntry) (scope : Scope) (candidates : IDL) : Except Rc (List DnEntry) :=
  let scopes := if scope = .base then [] else [⟨base.id, none⟩]
  match candidates with
  | .list ids => candidateListLoop s base scope ids scopes
  | .range lo hi => candidateRangeLoop s base scope hi lo scopes

/-! ## From the base down -/

/-- The members of `IdScopes` that `mdb_dn2id_walk` uses, and its cursor. `mids` are the IDs in `scopes`, the
last one first, and `rdns` the records through which it came to them from the base. `cur` are the
records behind the cursor, and `down` is `nscope`. -/
structure Walk where
  mids : List Nat
  rdns : List DiskNode
  cur : List DiskNode
  down : Bool
deriving DecidableEq

/-- `MDBX_GET_BOTH`, and what is behind the cursor then. -/
def Dn2id.after (db : Dn2id) (id : Nat) (k : DiskNode.Key) : List DiskNode :=
  ((db id).dropWhile fun d => d.key ≠ k).tail

inductive WalkStep where
  | next (w : Walk)
  | found (w : Walk) (id : Nat) (rdns : List DiskNode)
  | stop (rc : Rc)

/-- One round of the loop in `mdb_dn2id_walk`. -/
def walkStep (db : Dn2id) (oscope : Scope) (w : Walk) : WalkStep :=
  match w.mids with
  | [] => .stop .notfound
  | mid :: mids =>
    match w.cur with
    | d :: cur =>
      -- If we're pushing down, see if there's any children to find
      if w.down = true ∧ d.nsubs < 2 then .next { w with cur := cur }
      else if MAXRDNS ≤ w.rdns.length then .stop .bad
      else if w.down = true then
        -- push down to child
        .next ⟨d.entryID :: mid :: mids, d :: w.rdns, (db d.entryID).tail, false⟩
      else .found { w with cur := cur } d.entryID (d :: w.rdns)
    | [] =>
      if w.down = false ∧ oscope ≠ .onelevel then
        -- reset to first dup
        .next { w with cur := (db mid).tail, down := true }
      else
        match mids, w.rdns with
        -- pop up to prev node
        | up :: mids, d :: rdns => .next ⟨up :: mids, rdns, db.after up d.key, w.down⟩
        | _, _ => .stop .notfound

def walkRounds (db : Dn2id) (oscope : Scope) : Nat → Walk → Except Rc (Walk × Nat × List DiskNode)
  | 0, _ => .error .bad
  | fuel + 1, w =>
    match walkStep db oscope w with
    | .next w => walkRounds db oscope fuel w
    | .found w id rdns => .ok (w, id, rdns)
    | .stop rc => .error rc

/-- The first call of `mdb_dn2id_walk` for a base. -/
def walkFirst (db : Dn2id) (oscope : Scope) (fuel id : Nat) : Except Rc (Walk × Nat × List DiskNode) :=
  let w : Walk := ⟨[id], [], (db id).tail, false⟩
  -- skip base if not a subtree walk
  if oscope = .subtree ∨ oscope = .base then (db.set id).map fun _ => (w, id, [])
  else walkRounds db oscope fuel w

def walkNext (db : Dn2id) (oscope : Scope) (fuel : Nat) (w : Walk) : Except Rc (Walk × Nat × List DiskNode) :=
  if oscope = .base then .error .notfound else walkRounds db oscope fuel w

/-- "Is this entry in the candidate list?" -/
def inCandidates (candidates : IDL) (id : Nat) : Bool :=
  match candidates with
  | .range lo hi => lo ≤ id ∧ id ≤ hi
  | .list ids => ids[Search.search id ids - 1]? = some id

def walked (s : Tables) (base : DnEntry) (candidates : IDL) (id : Nat) (rdns : List DiskNode) : List DnEntry :=
  if inCandidates candidates id then
    if id = base.id then [base]
    else if id ∈ s.id2entry then [childEntry id rdns base.name base.nname]
    else []
  else []

/-- `fuel` bounds the rounds of one call of `mdb_dn2id_walk`, and the calls. -/
def walkLoop (s : Tables) (base : DnEntry) (oscope : Scope) (candidates : IDL) (fuel : Nat) :
    Nat → Except Rc (Walk × Nat × List DiskNode) → Except Rc (List DnEntry)
  | 0, _ => .error .bad
  | calls + 1, answer =>
    match answer with
    | .error .bad => .error .bad
    | .error _ => .ok []
    | .ok (w, id, rdns) =>
      if id = NOID then .ok []
      else (walkLoop s base oscope candidates fuel calls (walkNext s.dn2id oscope fuel w)).map
        (walked s base candidates id rdns ++ ·)

/-- The entries that `mdb_search` tests the filter on, in this order. -/
def mdbSearchLoop (fuel : Nat) (s : Tables) (base : DnEntry) (scope : Scope) (candidates : IDL) (nsubs ncand : Nat) :
    Except Rc (List DnEntry) :=
  if candidates.isZero then .ok []
  else if nsubs < ncand then
    -- Do scope-based search
    walkLoop s base scope candidates fuel fuel (walkFirst s.dn2id scope fuel base.id)
  else candidateLoop s base scope candidates

end BackMdb
end ReOpenLDAP
