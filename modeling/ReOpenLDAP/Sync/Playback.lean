import ReOpenLDAP.Lib.LinkQueue
import ReOpenLDAP.Sync.Notify

/-!
# Sync.Playback

The messages of the persistent searches, from the queue to the wire. The messages of one operation share what they say;
each search plays its queue back one message at a time.
-/

namespace ReOpenLDAP
namespace Sync
namespace Playback

open SyncCookie

/-- `struct reslink`, without the pointer to the next one. -/
structure Reslink where
  mode : SyncMode
  info : Nat

/-- `struct resinfo`. `rid` is the one in `ri_cookie`; `refs` are the links in `ri_list`, with `none` for that of the
operation. -/
structure Shared where
  res : ResInfo
  rid : Option Int
  refs : List (Option Nat)

/-- The searches with their queues, and the operation that is in `syncprov_op_response`. `si_resp_mutex` lets in one at a
time. `srl` is its `srl.rl_info`. -/
structure State where
  si : Provider
  rid : Nat → Int
  queue : Nat → LinkQueue
  links : Nat → Option (Cell Reslink)
  infos : Nat → Option Shared
  opc : OpCookie
  srl : Option Nat

section

variable (cfg : NotifyConfig)

/-- The shared information of a message and its address, `ia` if it is a new one. -/
def share (st : State) (mode : SyncMode) (ia : Nat) : Option (OpCookie × Nat × Shared) :=
  match st.srl with
  | some r => (st.infos r).map fun s => (st.opc, r, s)
  | none => (newInfo st.opc mode).map fun res => ({ st.opc with se := none }, ia, ⟨res, none, [none]⟩)

/-- `syncprov_qresp`. The new link is at the address `ra`. -/
def qresp (st : State) (i : Nat) (mode : SyncMode) (ra ia : Nat) : Option State :=
  if st.si.gone i then some st
  else do
    let (opc, r, s) ← share st mode ia
    let res ← composeCookie cfg st.si.cookie opc.sctxcsn mode { s.res with list := (i, mode) :: s.res.list }
    let rid := if mode = .newCookie ∧ s.res.cookie = none then some (st.rid i) else s.rid
    let (links, q) ← (st.queue i).enqueue st.links ra ⟨mode, r⟩
    some { st with
      si := st.si.set i (st.si.heap i).queued
      queue := Function.update st.queue i q
      links
      infos := Function.update st.infos r (some ⟨res, rid, some ra :: s.refs⟩)
      opc
      srl := some r }

end

instance reference_lawfulBEq : LawfulBEq (Option Nat) := inferInstance

/-- `reslink_detach`: the last reference frees the information. -/
def reslinkDetach (infos : Nat → Option Shared) (r : Nat) (ref : Option Nat) : Option (Nat → Option Shared) :=
  match infos r with
  | none => none
  | some s =>
    if ref ∈ s.refs then
      let refs := s.refs.erase ref
      some (Function.update infos r (if refs = [] then none else some { s with refs }))
    else none

def core (res : ResInfo) : ResInfo := { res with csn := none, cookie := none, list := [] }

/-- What is sent. A `LDAP_SYNC_NEW_COOKIE` message is a rid and a set of CSNs. -/
structure Delivery where
  mode : SyncMode
  info : ResInfo
  cookie : Option (Int × List Csn)

def Shared.cookie (s : Shared) : Option (Int × List Csn) := s.rid.bind fun rid => s.res.cookie.map fun csns => (rid, csns)

def deliver (s : Shared) (mode : SyncMode) : Delivery := ⟨mode, core s.res, if mode = .newCookie then s.cookie else none⟩

def State.take (st : State) (i a : Nat) (next : Option Nat) (infos : Nat → Option Shared) : State :=
  { st with
    queue := Function.update st.queue i ((st.queue i).behind next), links := Function.update st.links a none, infos }

/-- The loop of `syncprov_playback_locked`: what it sends, at most one message if it can be sent (`ok`). Once a search
is dead the others are dropped. -/
def playLoop (i : Nat) (ok : Bool) : Nat → State → Option (State × List Delivery)
  | 0, _ => none
  | fuel + 1, st =>
    match (st.queue i).head with
    | none => some (st, [])
    | some a =>
      match st.links a with
      | none => none
      | some c =>
        match st.infos c.data.info, reslinkDetach st.infos c.data.info (some a) with
        | some s, some infos =>
          let st' := st.take i a c.next infos
          if st.si.gone i = false ∧ ok = true then some (st', [deliver s c.data.mode])
          else playLoop i ok fuel { st' with si := st'.si.set i { st'.si.heap i with dead := true } }
        | _, _ => none

/-- The end of `syncprov_playback_dequeue`: the task is resubmitted while there are messages; a dead search is
unlinked. -/
def endTask (st : State) (i : Nat) : State :=
  if (st.queue i).head ≠ none then st
  else
    let so := { st.si.heap i with playback := false }
    if so.dead then { st with si := { st.si.set i { so with opSearch := false } with ops := st.si.ops.erase i } }
    else { st with si := st.si.set i so }

/-- `syncprov_playback_dequeue` -/
def playback (fuel : Nat) (st : State) (i : Nat) (ok : Bool) : Option (State × List Delivery) :=
  if (st.si.heap i).playback then (playLoop i ok fuel st).map fun r => (endTask r.1 i, r.2) else none

/-- A message as it is queued: `csn` is the context CSN of its operation. -/
structure Message where
  mode : SyncMode
  info : ResInfo
  csn : Option Csn

def message (st : State) (i : Nat) (mode : SyncMode) (ia : Nat) : List Message :=
  if st.si.gone i then [] else ((share st mode ia).map fun p => ⟨mode, core p.2.2.res, p.1.sctxcsn⟩).toList

/-- The state, and for each search what was queued for it and what was sent to it. -/
structure World where
  st : State
  queued : Nat → List Message
  sent : Nat → List Delivery

inductive Act where
  | qresp (i : Nat) (mode : SyncMode) (ra ia : Nat)
  | playback (i : Nat) (ok : Bool)
  | detach (i : Nat)
  | kill (i : Nat)
  | free (i : Nat)
  | enter (opc : OpCookie) (ck : SyncCookie)
  | context (csn : Option Csn) (ck : SyncCookie)
  | cleanup (r : Nat)

structure Killed (i : Nat) (si si' : Provider) : Prop where
  gone : si'.gone i = true
  cookie : si'.cookie = si.cookie
  heap : ∀ j, j ≠ i → si'.heap j = si.heap j
  ops : ∀ j, j ≠ i → (j ∈ si'.ops ↔ j ∈ si.ops)

/-- The search becomes persistent: "If there are queued responses, fire them off". -/
def detached (st : State) (i : Nat) : State :=
  { st with si := st.si.set i { st.si.heap i with
      detached := true, playback := (st.si.heap i).playback || decide ((st.queue i).head ≠ none) } }

/-- The steps. New links and new shared information are at fresh addresses. An operation enters, takes note of its context
CSN with a new cookie of the provider, queues its messages, and gives its reference back. -/
inductive PlaybackStep (cfg : NotifyConfig) : World → Act → World → Prop where
  | qresp {w : World} {i ra ia : Nat} {mode : SyncMode} {st' : State} (hra : w.st.links ra = none) (hia : w.st.infos ia = none)
      (h : qresp cfg w.st i mode ra ia = some st') :
      PlaybackStep cfg w (.qresp i mode ra ia)
        ⟨st', Function.update w.queued i (w.queued i ++ message w.st i mode ia), w.sent⟩
  | playback {w : World} {i fuel : Nat} {ok : Bool} {st' : State} {ds : List Delivery}
      (h : playback fuel w.st i ok = some (st', ds)) :
      PlaybackStep cfg w (.playback i ok) ⟨st', w.queued, Function.update w.sent i (w.sent i ++ ds)⟩
  | detach {w : World} {i : Nat} (hgone : w.st.si.gone i = false) :
      PlaybackStep cfg w (.detach i) { w with st := detached w.st i }
  | kill {w : World} {i : Nat} {si' : Provider} (h : Killed i w.st.si si') :
      PlaybackStep cfg w (.kill i) { w with st := { w.st with si := si' } }
  | free {w : World} {i fuel : Nat} {st' : State} (hgone : w.st.si.gone i = true)
      (h : playLoop i false fuel w.st = some (st', [])) : PlaybackStep cfg w (.free i) { w with st := st' }
  | enter {w : World} {opc : OpCookie} {ck : SyncCookie} :
      PlaybackStep cfg w (.enter opc ck) { w with st := { w.st with si := { w.st.si with cookie := ck }, opc, srl := none } }
  | context {w : World} {csn : Option Csn} {ck : SyncCookie} :
      PlaybackStep cfg w (.context csn ck)
        { w with st := { w.st with si := { w.st.si with cookie := ck }, opc := { w.st.opc with sctxcsn := csn } } }
  | cleanup {w : World} {r : Nat} {infos : Nat → Option Shared} (h : reslinkDetach w.st.infos r none = some infos) :
      PlaybackStep cfg w (.cleanup r)
        { w with st := { w.st with infos, srl := if w.st.srl = some r then none else w.st.srl } }

/-- The searches and the operation as `Sync.Notify` has them. -/
def State.pass (st : State) : Pass := ⟨st.si, { st.opc with info := (st.srl.bind st.infos).map Shared.res }⟩

end Playback
end Sync
end ReOpenLDAP
