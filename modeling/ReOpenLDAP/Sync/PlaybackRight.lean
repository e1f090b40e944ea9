import ReOpenLDAP.Sync.Playback

/-!
# Sync.PlaybackRight

What the persistent searches are sent, over any sequence of steps.
-/

namespace ReOpenLDAP
namespace Sync
namespace Playback

open SyncCookie LinkQueue List Function

structure Delivered (rid : Int) (m : Message) (d : Delivery) : Prop where
  mode : d.mode = m.mode
  info : d.info = m.info
  cookie : m.mode = .newCookie → ∃ csns, d.cookie = some (rid, csns) ∧ ∀ c, m.csn = some c → c ∈ csns

/-- Each live search has been sent what was queued for it, up to what is still in its queue, in this order. While there is
something in the queue of a detached search its task is queued, and sends one message. -/
def PlaybackRight (w : World) : Prop :=
  ∀ i, w.st.si.gone i = false → ∃ done pending, w.queued i = done ++ pending ∧
    List.Forall₂ (Delivered (w.st.rid i)) done (w.sent i) ∧ ((w.st.queue i).head = none ↔ pending = []) ∧
    (pending ≠ [] → (w.st.si.heap i).detached = true → ∃ st' d, playback 1 w.st i true = some (st', [d]))

/-- The conditions on a step. A `LDAP_SYNC_NEW_COOKIE` message follows only messages of this kind for searches with the
same rid; the context CSN of an operation is one of the provider's, and of the cookie that the operation has composed. -/
def PlaybackGood (w : World) : Act → Prop
  | .qresp i .newCookie _ _ => w.st.si.gone i = false → ∀ s ∈ w.st.srl.bind w.st.infos, ∀ j, (j, .newCookie) ∈ s.res.list →
      w.st.rid j = w.st.rid i
  | .enter opc ck => ∀ c, opc.sctxcsn = some c → ∃ p ∈ ck.csns, p.2 = c
  | .context csn ck => ∀ c, csn = some c → (∃ p ∈ ck.csns, p.2 = c) ∧
      ∀ s ∈ w.st.srl.bind w.st.infos, ∀ csns, s.res.cookie = some csns → c ∈ csns
  | _ => True

structure Start (w : World) : Prop where
  queue : ∀ i, w.st.queue i = LinkQueue.empty
  srl : w.st.srl = none
  csn : w.st.opc.sctxcsn = none
  queued : ∀ i, w.queued i = []
  sent : ∀ i, w.sent i = []

def Pending (infos : Nat → Option Shared) (rid : Int) (x : Nat × Reslink) (m : Message) : Prop :=
  ∃ s, infos x.2.info = some s ∧ x.2.mode = m.mode ∧ core s.res = m.info ∧
    (m.mode = .newCookie → ∃ csns, s.cookie = some (rid, csns) ∧ ∀ c, m.csn = some c → c ∈ csns)

structure CookieOk (rid : Nat → Int) (csn : Option Csn) (s : Shared) : Prop where
  fresh : s.res.cookie = none → ∀ j, (j, .newCookie) ∉ s.res.list
  filled : ∀ csns, s.res.cookie = some csns →
    (∃ j, (j, .newCookie) ∈ s.res.list ∧ s.rid = some (rid j)) ∧ ∀ c, csn = some c → c ∈ csns

structure PlaybackInv (w : World) (content : Nat → List (Nat × Reslink)) : Prop where
  linked : LinkQueue.Linked w.st.links w.st.queue content
  held : ∀ i, ∀ x ∈ content i, ∃ s, w.st.infos x.2.info = some s ∧ some x.1 ∈ s.refs
  current : ∀ r, w.st.srl = some r → ∃ s, w.st.infos r = some s ∧ none ∈ s.refs ∧ CookieOk w.st.rid w.st.opc.sctxcsn s
  csn : ∀ c, w.st.opc.sctxcsn = some c → ∃ p ∈ w.st.si.cookie.csns, p.2 = c
  books : ∀ i, w.st.si.gone i = false → ∃ done pending, w.queued i = done ++ pending ∧
    List.Forall₂ (Delivered (w.st.rid i)) done (w.sent i) ∧ List.Forall₂ (Pending w.st.infos (w.st.rid i)) (content i) pending
  task : ∀ i, w.st.si.gone i = false → content i ≠ [] → (w.st.si.heap i).detached = true → (w.st.si.heap i).playback = true

section

variable {cfg : NotifyConfig} {w w' : World} {content : Nat → List (Nat × Reslink)}

theorem Start.inv (h : Start w) : PlaybackInv w fun _ => [] where
  linked := by
    constructor
    · intro i
      rw [h.queue i]
      rfl
    · intro i
      rw [h.queue i]
      rfl
    · exact fun i => nodup_nil
    · exact fun i j _ x hx => nomatch hx
  held := fun i x hx => nomatch hx
  current := by
    intro r hr
    rw [h.srl] at hr
    cases hr
  csn := by
    intro c hc
    rw [h.csn] at hc
    cases hc
  books := by
    intro i _
    refine ⟨[], [], h.queued i, ?_, .nil⟩
    rw [h.sent i]
    exact .nil
  task := fun i _ hne => absurd rfl hne

variable {i r ia ra j : Nat} {s : Shared} {ref : Option Nat} {infos infos' : Nat → Option Shared} {x : Nat × Reslink} {rid : Int} {st' : State} {si' : Provider}

theorem PlaybackInv.sends (h : PlaybackInv w content) (hlive : w.st.si.gone i = false) (hne : content i ≠ [])
    (htask : (w.st.si.heap i).playback = true) : ∃ st' d, playback 1 w.st i true = some (st', [d]) := by
  obtain ⟨⟨a, d⟩, rest, hc⟩ := exists_cons_of_ne_nil hne
  have hchain := h.linked.chain i
  obtain ⟨s, hs, href⟩ := h.held i (a, d) (hc ▸ mem_cons_self)
  rw [hc] at hchain
  obtain ⟨hhead, next, hlink, -⟩ := hchain
  obtain ⟨infos, hdetach⟩ : ∃ infos, reslinkDetach w.st.infos d.info (some a) = some infos := by
    unfold reslinkDetach
    rw [hs]
    exact ⟨_, if_pos href⟩
  have hloop : playLoop i true 1 w.st = some (w.st.take i a next infos, [deliver s d.mode]) := by
    rw [playLoop, hhead]
    simp only [hlink, hs, hdetach, hlive, and_self, if_true]
  refine ⟨endTask (w.st.take i a next infos) i, deliver s d.mode, ?_⟩
  rw [playback, if_pos htask, hloop]
  rfl

theorem PlaybackInv.right (h : PlaybackInv w content) : PlaybackRight w := by
  intro i hlive
  obtain ⟨done, pending, hqueued, hdone, hpending⟩ := h.books i hlive
  have hlen := hpending.length_eq
  have hnil : content i = [] ↔ pending = [] := by
    rw [← length_eq_zero_iff, hlen, length_eq_zero_iff]
  refine ⟨done, pending, hqueued, hdone, (h.linked.head_none i).trans hnil, fun hne hdet => ?_⟩
  have hne' : content i ≠ [] := fun hc => hne (hnil.mp hc)
  exact h.sends hlive hne' (h.task i hlive hne' hdet)

theorem reslinkDetach_keeps {r' : Nat} {ref' : Option Nat}
    (h : reslinkDetach infos r ref = some infos') (hs : infos r' = some s) (href : ref' ∈ s.refs) (hne : r' ≠ r ∨ ref' ≠ ref) :
    ∃ s', infos' r' = some s' ∧ ref' ∈ s'.refs ∧ s'.res = s.res ∧ s'.rid = s.rid := by
  unfold reslinkDetach at h
  cases hr : infos r with
  | none =>
    rw [hr] at h
    cases h
  | some s0 =>
    rw [hr] at h
    dsimp only at h
    by_cases hmem : ref ∈ s0.refs
    swap
    · rw [if_neg hmem] at h
      cases h
    rw [if_pos hmem] at h
    obtain rfl := Option.some.inj h
    by_cases hsame : r' = r
    · subst hsame
      rw [hr] at hs
      obtain rfl := Option.some.inj hs
      have hkept : ref' ∈ s0.refs.erase ref := (mem_erase_of_ne (hne.resolve_left (not_not.mpr rfl))).mpr href
      have hne' : s0.refs.erase ref ≠ [] := ne_nil_of_mem hkept
      refine ⟨{ s0 with refs := s0.refs.erase ref }, ?_, hkept, rfl, rfl⟩
      rw [update_self, if_neg hne']
    · exact ⟨s, (update_of_ne hsame _ _).trans hs, href, rfl, rfl⟩

theorem newInfo_empty {opc : OpCookie} {mode : SyncMode} {res : ResInfo} (h : newInfo opc mode = some res) :
    res.cookie = none ∧ res.list = [] := by
  unfold newInfo at h
  cases hse : opc.se with
  | none =>
    rw [hse] at h
    dsimp only at h
    split_ifs at h
    obtain rfl := Option.some.inj h
    exact ⟨rfl, rfl⟩
  | some e =>
    rw [hse] at h
    dsimp only at h
    split_ifs at h
    obtain rfl := Option.some.inj h
    exact ⟨rfl, rfl⟩

/-- The shared information that a message gets: the operation holds a reference, and nobody has other information at the
address. -/
theorem share_spec (h : PlaybackInv w content) {mode : SyncMode} {opc : OpCookie}
    (hia : w.st.infos ia = none) (hshare : share w.st mode ia = some (opc, r, s)) :
    opc.sctxcsn = w.st.opc.sctxcsn ∧ none ∈ s.refs ∧ CookieOk w.st.rid w.st.opc.sctxcsn s ∧
      (∀ s', w.st.infos r = some s' → s' = s) ∧ (s.res.list = [] ∨ s ∈ w.st.srl.bind w.st.infos) := by
  unfold share at hshare
  cases hsrl : w.st.srl with
  | none =>
    rw [hsrl] at hshare
    obtain ⟨res, hnew, heq⟩ := Option.map_eq_some_iff.mp hshare
    obtain ⟨rfl, rfl, rfl⟩ : { w.st.opc with se := none } = opc ∧ ia = r ∧ (⟨res, none, [none]⟩ : Shared) = s := by
      simpa using heq
    obtain ⟨hcookie, hlist⟩ := newInfo_empty hnew
    refine ⟨rfl, mem_singleton_self _, ⟨fun _ j hj => ?_, fun csns hcs => ?_⟩, fun s' hs' => ?_, .inl hlist⟩
    · rw [hlist] at hj
      cases hj
    · rw [hcookie] at hcs
      cases hcs
    · rw [hia] at hs'
      cases hs'
  | some r' =>
    rw [hsrl] at hshare
    obtain ⟨s', hs', heq⟩ := Option.map_eq_some_iff.mp hshare
    obtain ⟨rfl, rfl, rfl⟩ : w.st.opc = opc ∧ r' = r ∧ s' = s := by simpa using heq
    obtain ⟨s0, hs0, href, hok⟩ := h.current r' hsrl
    rw [hs'] at hs0
    obtain rfl := Option.some.inj hs0
    exact ⟨rfl, href, hok, fun s'' hs'' => by rw [hs'] at hs''; exact (Option.some.inj hs'').symm, .inr hs'⟩

theorem composeCookie_cases {ck : SyncCookie} {csn : Option Csn} {mode : SyncMode} {ri res : ResInfo}
    (h : composeCookie cfg ck csn mode ri = some res) :
    res = (if mode = .newCookie ∧ ri.cookie = none then { ri with cookie := some (ck.csns.map Prod.snd) } else ri) := by
  unfold composeCookie at h
  split_ifs at h ⊢
  · exact (Option.some.inj h).symm
  · exact (Option.some.inj h).symm

structure Grown (s s' : Shared) : Prop where
  core : core s'.res = core s.res
  refs : ∀ ref ∈ s.refs, ref ∈ s'.refs
  cookie : ∀ c, s.cookie = some c → s'.cookie = some c

theorem Pending.grown {m : Message}
    (h : Pending infos rid x m) (hgrown : ∀ r s, infos r = some s → ∃ s', infos' r = some s' ∧ Grown s s') :
    Pending infos' rid x m := by
  obtain ⟨s, hs, hmode, hinfo, hcookie⟩ := h
  obtain ⟨s', hs', hg⟩ := hgrown _ s hs
  refine ⟨s', hs', hmode, hg.core.trans hinfo, fun hnew => ?_⟩
  obtain ⟨csns, hc, hmem⟩ := hcookie hnew
  exact ⟨csns, hg.cookie _ hc, hmem⟩

theorem gone_set {si : Provider} {i : Nat} {so : SyncOp} (habandoned : so.abandoned = (si.heap i).abandoned)
    (hdead : so.dead = (si.heap i).dead) (j : Nat) : (si.set i so).gone j = si.gone j := by
  unfold Provider.gone Provider.set
  dsimp only
  by_cases hj : j = i
  · subst hj
    rw [update_self, habandoned, hdead]
  · rw [update_of_ne hj]

/-- What `syncprov_qresp` leaves in the shared information. -/
def shared (st : State) (i : Nat) (mode : SyncMode) (ra : Nat) (s : Shared) : Shared :=
  let compose := mode = .newCookie ∧ s.res.cookie = none
  ⟨{ s.res with
      list := (i, mode) :: s.res.list, cookie := if compose then some (st.si.cookie.csns.map Prod.snd) else s.res.cookie },
    if compose then some (st.rid i) else s.rid, some ra :: s.refs⟩

theorem qresp_some (h : PlaybackInv w content) {mode : SyncMode} (hra : w.st.links ra = none)
    (hlive : w.st.si.gone i = false) (hq : qresp cfg w.st i mode ra ia = some st') :
    ∃ opc r s links q, share w.st mode ia = some (opc, r, s) ∧
      LinkQueue.Linked links (Function.update w.st.queue i q) (Function.update content i (content i ++ [(ra, ⟨mode, r⟩)])) ∧
      st' = ⟨w.st.si.set i (w.st.si.heap i).queued, w.st.rid, Function.update w.st.queue i q, links,
        Function.update w.st.infos r (some (shared w.st i mode ra s)), opc, some r⟩ := by
  unfold qresp at hq
  rw [if_neg (by simp [hlive])] at hq
  obtain ⟨⟨opc, r, s⟩, hshare, hq⟩ := Option.bind_eq_some_iff.mp hq
  obtain ⟨res, hres, hq⟩ := Option.bind_eq_some_iff.mp hq
  obtain ⟨⟨links, q⟩, hlink, hq⟩ := Option.bind_eq_some_iff.mp hq
  obtain ⟨links', q', hlink', hlinked, -⟩ := h.linked.enqueue hra i (⟨mode, r⟩ : Reslink)
  rw [hlink] at hlink'
  obtain ⟨rfl, rfl⟩ := Prod.mk.inj (Option.some.inj hlink')
  refine ⟨opc, r, s, links, q, hshare, hlinked, ?_⟩
  obtain rfl := Option.some.inj hq
  have hshared : (⟨res, if mode = .newCookie ∧ s.res.cookie = none then some (w.st.rid i) else s.rid,
      some ra :: s.refs⟩ : Shared) = shared w.st i mode ra s := by
    rw [composeCookie_cases hres, shared]
    split_ifs <;> rfl
  rw [← hshared]

theorem shared_grown {st : State} (i : Nat) (mode : SyncMode) (ra : Nat) (s : Shared) : Grown s (shared st i mode ra s) := by
  refine ⟨rfl, fun ref href => mem_cons_of_mem _ href, fun c hc => ?_⟩
  obtain ⟨rid, hrid, hc⟩ := Option.bind_eq_some_iff.mp hc
  obtain ⟨csns, hcsns, rfl⟩ := Option.map_eq_some_iff.mp hc
  simp [Shared.cookie, shared, hrid, hcsns]

theorem shared_ok {st : State} {mode : SyncMode} {csn : Option Csn} (h : CookieOk st.rid csn s)
    (hcsn : ∀ c, csn = some c → ∃ p ∈ st.si.cookie.csns, p.2 = c) : CookieOk st.rid csn (shared st i mode ra s) := by
  by_cases hdo : mode = .newCookie ∧ s.res.cookie = none
  · simp only [shared, if_pos hdo]
    refine ⟨fun hnone => (nomatch hnone), fun csns hcs => ⟨⟨i, ?_, rfl⟩, fun c hc => ?_⟩⟩
    · rw [hdo.1]
      exact mem_cons_self
    · obtain ⟨p, hp, rfl⟩ := hcsn c hc
      rw [← Option.some.inj hcs]
      exact List.mem_map_of_mem hp
  · simp only [shared, if_neg hdo]
    refine ⟨fun hnone j hj => ?_, fun csns hcs => ?_⟩
    · rcases List.mem_cons.mp hj with heq | hj
      · exact hdo ⟨(Prod.mk.inj heq).2.symm, hnone⟩
      · exact h.fresh hnone j hj
    · obtain ⟨⟨j, hj, hrid⟩, hmem⟩ := h.filled csns hcs
      exact ⟨⟨j, mem_cons_of_mem _ hj, hrid⟩, hmem⟩

theorem shared_cookie {st : State} {csn : Option Csn} (h : CookieOk st.rid csn s)
    (hcsn : ∀ c, csn = some c → ∃ p ∈ st.si.cookie.csns, p.2 = c)
    (hrid : ∀ j, (j, .newCookie) ∈ s.res.list → st.rid j = st.rid i) :
    ∃ csns, (shared st i .newCookie ra s).cookie = some (st.rid i, csns) ∧ ∀ c, csn = some c → c ∈ csns := by
  cases hcookie : s.res.cookie with
  | none =>
    refine ⟨st.si.cookie.csns.map Prod.snd, by simp [Shared.cookie, shared, hcookie], fun c hc => ?_⟩
    obtain ⟨p, hp, rfl⟩ := hcsn c hc
    exact List.mem_map_of_mem hp
  | some csns =>
    obtain ⟨⟨j, hj, hrid'⟩, hmem⟩ := h.filled csns hcookie
    refine ⟨csns, ?_, hmem⟩
    simp [Shared.cookie, shared, hcookie, hrid', hrid j hj]

theorem qresp_inv (h : PlaybackInv w content) {mode : SyncMode} (hra : w.st.links ra = none)
    (hia : w.st.infos ia = none) (hgood : PlaybackGood w (.qresp i mode ra ia)) (hq : qresp cfg w.st i mode ra ia = some st') :
    ∃ content', PlaybackInv ⟨st', Function.update w.queued i (w.queued i ++ message w.st i mode ia), w.sent⟩ content' := by
  by_cases hgone : w.st.si.gone i = true
  · rw [qresp, if_pos hgone] at hq
    obtain rfl := Option.some.inj hq
    rw [message, if_pos hgone, List.append_nil, update_eq_self]
    exact ⟨content, h⟩
  have hlive : w.st.si.gone i = false := by simpa using hgone
  obtain ⟨opc, r, s, links, q, hshare, hlinked, rfl⟩ := qresp_some h hra hlive hq
  obtain ⟨hctx, hnone, hok, hsame, hlist⟩ := share_spec h hia hshare
  have hgrown : ∀ r' s', w.st.infos r' = some s' →
      ∃ s'', Function.update w.st.infos r (some (shared w.st i mode ra s)) r' = some s'' ∧ Grown s' s'' := by
    intro r' s' hs'
    by_cases hr : r' = r
    · subst hr
      rw [update_self, hsame s' hs']
      exact ⟨_, rfl, shared_grown i mode ra s⟩
    · rw [update_of_ne hr]
      exact ⟨s', hs', rfl, fun _ => id, fun _ => id⟩
  have hflags : ∀ j, (w.st.si.set i (w.st.si.heap i).queued).gone j = w.st.si.gone j := gone_set rfl rfl
  have hnew : Pending (Function.update w.st.infos r (some (shared w.st i mode ra s))) (w.st.rid i) (ra, ⟨mode, r⟩)
      ⟨mode, core s.res, opc.sctxcsn⟩ := by
    refine ⟨_, update_self _ _ _, rfl, rfl, fun hmode => ?_⟩
    have hmode : mode = .newCookie := hmode
    subst hmode
    refine shared_cookie (hctx ▸ hok) (hctx ▸ h.csn) fun j hj => ?_
    rcases hlist with hnil | hcurrent
    · rw [hnil] at hj
      cases hj
    · exact hgood hlive s hcurrent j hj
  have hmessage : message w.st i mode ia = [⟨mode, core s.res, opc.sctxcsn⟩] := by
    rw [message, if_neg hgone, hshare]
    rfl
  rw [hmessage]
  refine ⟨_, hlinked, ?_, ?_, ?_, ?_, ?_⟩
  · intro j x hx
    by_cases hj : j = i
    · subst hj
      rw [update_self] at hx
      rcases List.mem_append.mp hx with hx | hx
      · obtain ⟨s', hs', href⟩ := h.held j x hx
        obtain ⟨s'', hs'', hg⟩ := hgrown _ s' hs'
        exact ⟨s'', hs'', hg.refs _ href⟩
      · rw [List.mem_singleton.mp hx]
        exact ⟨_, update_self _ _ _, mem_cons_self⟩
    · rw [update_of_ne hj] at hx
      obtain ⟨s', hs', href⟩ := h.held j x hx
      obtain ⟨s'', hs'', hg⟩ := hgrown _ s' hs'
      exact ⟨s'', hs'', hg.refs _ href⟩
  · rintro _ ⟨⟩
    refine ⟨_, update_self _ _ _, mem_cons_of_mem _ hnone, ?_⟩
    exact hctx ▸ shared_ok hok h.csn
  · exact hctx ▸ h.csn
  · intro j hj
    obtain ⟨done, pending, hqueued, hdone, hpending⟩ := h.books j (hflags j ▸ hj)
    have hpending' := hpending.imp fun _ _ hp => hp.grown hgrown
    by_cases hji : j = i
    · subst hji
      dsimp only
      rw [update_self, update_self]
      refine ⟨done, pending ++ [⟨mode, core s.res, opc.sctxcsn⟩], ?_, hdone, ?_⟩
      · rw [hqueued, append_assoc]
      · exact rel_append hpending' (.cons hnew .nil)
    · dsimp only
      rw [update_of_ne hji, update_of_ne hji]
      exact ⟨done, pending, hqueued, hdone, hpending'⟩
  · intro j hj hne hdet
    by_cases hji : j = i
    · subst hji
      simp only [Provider.set, update_self, SyncOp.queued] at hdet ⊢
      rw [hdet, Bool.or_true]
    · simp only [Provider.set, update_of_ne hji] at hne hdet ⊢
      exact h.task j (hflags j ▸ hj) hne hdet

/-! ## Playing back -/

def Kept (infos infos' : Nat → Option Shared) (x : Nat × Reslink) : Prop :=
  ∃ s s', infos x.2.info = some s ∧ infos' x.2.info = some s' ∧ some x.1 ∈ s'.refs ∧ s'.res = s.res ∧ s'.rid = s.rid

theorem PlaybackInv.kept (h : PlaybackInv w content) (hdetach : reslinkDetach w.st.infos r ref = some infos) (hx : x ∈ content j)
    (hne : some x.1 ≠ ref) : Kept w.st.infos infos x := by
  obtain ⟨s, hs, href⟩ := h.held j x hx
  obtain ⟨s', hs', href', hres, hrid⟩ := reslinkDetach_keeps hdetach hs href (.inr hne)
  exact ⟨s, s', hs, hs', href', hres, hrid⟩

theorem Pending.kept {m : Message} (h : Pending infos rid x m) (hkept : Kept infos infos' x) : Pending infos' rid x m := by
  obtain ⟨s0, hs0, hmode, hinfo, hcookie⟩ := h
  obtain ⟨s, s', hs, hs', -, hres, hrid⟩ := hkept
  rw [hs] at hs0
  obtain rfl := Option.some.inj hs0
  refine ⟨s', hs', hmode, by rw [hres, hinfo], fun hnew => ?_⟩
  rw [Shared.cookie, hres, hrid]
  exact hcookie hnew

theorem pendings_kept {l : List (Nat × Reslink)} {pending : List Message}
    (hp : List.Forall₂ (Pending infos rid) l pending) (hkept : ∀ x ∈ l, Kept infos infos' x) :
    List.Forall₂ (Pending infos' rid) l pending :=
  List.forall₂_iff_get.mpr ⟨hp.length_eq, fun k hk hk' =>
    ((List.forall₂_iff_get.mp hp).2 k hk hk').kept (hkept _ (List.get_mem _ ⟨k, hk⟩))⟩

theorem PlaybackInv.current_kept (h : PlaybackInv w content) {r' : Nat}
    (hdetach : reslinkDetach w.st.infos r ref = some infos) (hr : w.st.srl = some r') (hne : r' ≠ r ∨ none ≠ ref) :
    ∃ s, infos r' = some s ∧ none ∈ s.refs ∧ CookieOk w.st.rid w.st.opc.sctxcsn s := by
  obtain ⟨s, hs, href, hok⟩ := h.current r' hr
  obtain ⟨s', hs', href', hres, hrid⟩ := reslinkDetach_keeps hdetach hs href hne
  refine ⟨s', hs', href', ?_, ?_⟩
  · rw [hres]
    exact hok.fresh
  · rw [hres, hrid]
    exact hok.filled

theorem take_inv (h : PlaybackInv w content) {i a : Nat} {d : Reslink} {rest : List (Nat × Reslink)}
    {infos : Nat → Option Shared} {sent : Nat → List Delivery} {si' : Provider} (hc : content i = (a, d) :: rest)
    (hdetach : reslinkDetach w.st.infos d.info (some a) = some infos) (hcookie : si'.cookie = w.st.si.cookie)
    (hheap : ∀ j, j ≠ i → si'.heap j = w.st.si.heap j) (hgone : ∀ j, j ≠ i → si'.gone j = w.st.si.gone j)
    (hsent : ∀ j, j ≠ i → sent j = w.sent j)
    (hbooks : si'.gone i = false → w.st.si.gone i = false ∧ (si'.heap i) = w.st.si.heap i ∧
      ∃ s, w.st.infos d.info = some s ∧ sent i = w.sent i ++ [deliver s d.mode]) :
    ∃ next, w.st.links a = some ⟨next, d⟩ ∧
      PlaybackInv ⟨{ w.st.take i a next infos with si := si' }, w.queued, sent⟩ (Function.update content i rest) := by
  obtain ⟨next, hnext, hlinked⟩ := h.linked.dequeue hc
  refine ⟨next, hnext, ?_⟩
  have hmem : ∀ j, ∀ x ∈ Function.update content i rest j, x ∈ content j ∧ x.1 ≠ a := by
    intro j x hx
    by_cases hj : j = i
    · subst hj
      rw [update_self] at hx
      have hnodup := h.linked.nodup j
      rw [hc] at hnodup ⊢
      exact ⟨mem_cons_of_mem _ hx, fun heq => (List.nodup_cons.mp hnodup).1 (List.mem_map.mpr ⟨x, hx, heq⟩)⟩
    · rw [update_of_ne hj] at hx
      exact ⟨hx, h.linked.disjoint j i hj x hx (a, d) (hc ▸ mem_cons_self)⟩
  have hkept : ∀ j, ∀ x ∈ Function.update content i rest j, Kept w.st.infos infos x := by
    intro j x hx
    obtain ⟨hx, hne⟩ := hmem j x hx
    exact h.kept hdetach hx fun heq => hne (Option.some.inj heq)
  refine ⟨hlinked, fun j x hx => ?_, fun r hr => h.current_kept hdetach hr (.inr (by simp)), hcookie ▸ h.csn, fun j hj => ?_,
    fun j hj hne hdet => ?_⟩
  · obtain ⟨-, s', -, hs', href, -, -⟩ := hkept j x hx
    exact ⟨s', hs', href⟩
  · by_cases hji : j = i
    · subst hji
      obtain ⟨hlive, -, s, hs, hsent'⟩ := hbooks hj
      obtain ⟨done, pending, hqueued, hdone, hpending⟩ := h.books j hlive
      rw [hc] at hpending
      obtain ⟨m, pending, hm, hrest, rfl⟩ := List.forall₂_cons_left_iff.mp hpending
      have hsend : Delivered (w.st.rid j) m (deliver s d.mode) := by
        obtain ⟨s0, hs0, hmode, hinfo, hck⟩ := hm
        rw [hs] at hs0
        obtain rfl := Option.some.inj hs0
        refine ⟨hmode, hinfo, fun hnew => ?_⟩
        obtain ⟨csns, hcs, hall⟩ := hck hnew
        exact ⟨csns, (if_pos (hmode.trans hnew)).trans hcs, hall⟩
      refine ⟨done ++ [m], pending, ?_, ?_, ?_⟩
      · rw [append_assoc]
        exact hqueued
      · dsimp only
        rw [hsent']
        exact rel_append hdone (.cons hsend .nil)
      · refine pendings_kept ?_ (hkept j)
        rw [update_self]
        exact hrest
    · obtain ⟨done, pending, hqueued, hdone, hpending⟩ := h.books j (hgone j hji ▸ hj)
      refine ⟨done, pending, hqueued, ?_, ?_⟩
      · dsimp only
        rw [hsent j hji]
        exact hdone
      · refine pendings_kept ?_ (hkept j)
        rw [update_of_ne hji]
        exact hpending
  · by_cases hji : j = i
    · subst hji
      obtain ⟨hlive, hsame, -⟩ := hbooks hj
      dsimp only at hdet ⊢
      rw [hsame] at hdet ⊢
      refine h.task j hlive (fun hnil => ?_) hdet
      rw [hc] at hnil
      cases hnil
    · rw [update_of_ne hji] at hne
      dsimp only at hdet ⊢
      rw [hheap j hji] at hdet ⊢
      exact h.task j (hgone j hji ▸ hj) hne hdet

theorem flags_inv (h : PlaybackInv w content) (hcookie : si'.cookie = w.st.si.cookie)
    (hgone : ∀ j, si'.gone j = false → w.st.si.gone j = false)
    (htask : ∀ j, si'.gone j = false → content j ≠ [] → (si'.heap j).detached = true → (si'.heap j).playback = true) :
    PlaybackInv ⟨{ w.st with si := si' }, w.queued, w.sent⟩ content :=
  ⟨h.linked, h.held, h.current, hcookie ▸ h.csn, fun j hj => h.books j (hgone j hj), htask⟩

theorem gone_dead (si : Provider) (i : Nat) : (si.set i { si.heap i with dead := true }).gone i = true := by
  unfold Provider.gone Provider.set
  dsimp only
  rw [update_self, Bool.or_true]

theorem gone_other {si : Provider} (so : SyncOp) (hj : j ≠ i) : (si.set i so).gone j = si.gone j := by
  unfold Provider.gone Provider.set
  dsimp only
  rw [update_of_ne hj]

theorem playLoop_inv {fuel : Nat} {ok : Bool} {ds : List Delivery} (h : PlaybackInv w content)
    (hp : playLoop i ok fuel w.st = some (st', ds)) :
    ∃ content', PlaybackInv ⟨st', w.queued, Function.update w.sent i (w.sent i ++ ds)⟩ content' := by
  induction fuel generalizing w content with
  | zero => cases hp
  | succ fuel ih =>
    rw [playLoop] at hp
    cases hhead : (w.st.queue i).head with
    | none =>
      rw [hhead] at hp
      obtain ⟨rfl, rfl⟩ := Prod.mk.inj (Option.some.inj hp)
      rw [List.append_nil, update_eq_self]
      exact ⟨content, h⟩
    | some a =>
      have hchain := h.linked.chain i
      rw [hhead] at hchain
      obtain ⟨next, d, rest, hc, hlink, -⟩ := hchain.cons_of_some
      rw [hhead] at hp
      simp only [hlink] at hp
      cases hs : w.st.infos d.info with
      | none =>
        rw [hs] at hp
        cases hp
      | some s =>
        cases hdetach : reslinkDetach w.st.infos d.info (some a) with
        | none =>
          rw [hs, hdetach] at hp
          cases hp
        | some infos =>
          rw [hs, hdetach] at hp
          dsimp only at hp
          by_cases hsend : w.st.si.gone i = false ∧ ok = true
          · rw [if_pos hsend] at hp
            obtain ⟨rfl, rfl⟩ := Prod.mk.inj (Option.some.inj hp)
            obtain ⟨next', hnext, hinv⟩ := @take_inv w content h i a d rest infos
              (Function.update w.sent i (w.sent i ++ [deliver s d.mode])) w.st.si hc hdetach rfl (fun _ _ => rfl) (fun _ _ => rfl)
              (fun j hj => update_of_ne hj _ _) fun _ => ⟨hsend.1, rfl, s, hs, update_self _ _ _⟩
            rw [hlink] at hnext
            cases hnext
            exact ⟨_, hinv⟩
          · rw [if_neg hsend] at hp
            obtain ⟨next', hnext, hinv⟩ := @take_inv w content h i a d rest infos w.sent
              (w.st.si.set i { w.st.si.heap i with dead := true }) hc hdetach rfl (fun j hj => update_of_ne hj _ _)
              (fun j hj => gone_other _ hj) (fun _ _ => rfl) fun hlive => by rw [gone_dead] at hlive; cases hlive
            rw [hlink] at hnext
            cases hnext
            have hdone := ih hinv hp
            exact hdone

theorem endTask_inv (h : PlaybackInv w content) (i : Nat) : PlaybackInv ⟨endTask w.st i, w.queued, w.sent⟩ content := by
  unfold endTask
  by_cases hhead : (w.st.queue i).head ≠ none
  · rw [if_pos hhead]
    exact h
  rw [if_neg hhead]
  have hnil : content i = [] := (h.linked.head_none i).mp (not_not.mp hhead)
  have hother : ∀ (so : SyncOp) (j : Nat), content j ≠ [] → (w.st.si.set i so).heap j = w.st.si.heap j := by
    intro so j hne
    refine update_of_ne ?_ _ _
    rintro rfl
    exact hne hnil
  dsimp only
  split_ifs with hdead
  · have hgone : ∀ j, Provider.gone { w.st.si.set i { w.st.si.heap i with playback := false, opSearch := false } with
        ops := w.st.si.ops.erase i } j = false → w.st.si.gone j = false := by
      intro j hj
      by_cases hji : j = i
      · subst hji
        simp [Provider.gone, Provider.set, hdead] at hj
      · simpa [Provider.gone, Provider.set, update_of_ne hji, mem_erase_of_ne hji] using hj
    refine flags_inv h rfl hgone fun j hj hne hdet => ?_
    have hsame := hother { w.st.si.heap i with playback := false, opSearch := false } j hne
    rw [show Provider.heap { w.st.si.set i { w.st.si.heap i with playback := false, opSearch := false } with
      ops := w.st.si.ops.erase i } j = w.st.si.heap j from hsame] at hdet ⊢
    exact h.task j (hgone j hj) hne hdet
  · have hgone : ∀ j, (w.st.si.set i { w.st.si.heap i with playback := false }).gone j = false → w.st.si.gone j = false := by
      intro j hj
      rwa [@gone_set w.st.si i { w.st.si.heap i with playback := false } rfl rfl j] at hj
    refine flags_inv h rfl hgone fun j hj hne hdet => ?_
    rw [hother _ j hne] at hdet ⊢
    exact h.task j (hgone j hj) hne hdet

theorem detached_inv (h : PlaybackInv w content) (i : Nat) : PlaybackInv ⟨detached w.st i, w.queued, w.sent⟩ content := by
  have hgone : ∀ j, (detached w.st i).si.gone j = w.st.si.gone j := gone_set rfl rfl
  refine flags_inv h rfl (fun j hj => hgone j ▸ hj) fun j hj hne hdet => ?_
  by_cases hji : j = i
  · subst hji
    have hhead : (w.st.queue j).head ≠ none := fun hnone => hne ((h.linked.head_none j).mp hnone)
    simp [Provider.set, hhead]
  · simp only [Provider.set, update_of_ne hji] at hdet ⊢
    exact h.task j (hgone j ▸ hj) hne hdet

theorem Killed.other {si : Provider} (h : Killed i si si') (hj : j ≠ i) : si'.gone j = si.gone j := by
  unfold Provider.gone
  rw [h.heap j hj]
  simp only [h.ops j hj]

theorem killed_inv (h : PlaybackInv w content) (hk : Killed i w.st.si si') :
    PlaybackInv ⟨{ w.st with si := si' }, w.queued, w.sent⟩ content := by
  have hother : ∀ j, si'.gone j = false → j ≠ i := by
    rintro j hj rfl
    rw [hk.gone] at hj
    cases hj
  refine flags_inv h hk.cookie (fun j hj => hk.other (hother j hj) ▸ hj) fun j hj hne hdet => ?_
  rw [hk.heap j (hother j hj)] at hdet ⊢
  exact h.task j (hk.other (hother j hj) ▸ hj) hne hdet

theorem cleanup_inv (h : PlaybackInv w content) (hdetach : reslinkDetach w.st.infos r none = some infos) :
    PlaybackInv ⟨{ w.st with infos, srl := if w.st.srl = some r then none else w.st.srl }, w.queued, w.sent⟩ content := by
  have hkept : ∀ j, ∀ x ∈ content j, Kept w.st.infos infos x := fun j x hx => h.kept hdetach hx nofun
  refine ⟨h.linked, fun j x hx => ?_, fun r' hr => ?_, h.csn, fun j hj => ?_, h.task⟩
  · obtain ⟨-, s', -, hs', href, -, -⟩ := hkept j x hx
    exact ⟨s', hs', href⟩
  · dsimp only at hr
    split_ifs at hr with hsame
    refine h.current_kept hdetach hr (.inl ?_)
    rintro rfl
    exact hsame hr
  · obtain ⟨done, pending, hqueued, hdone, hpending⟩ := h.books j hj
    exact ⟨done, pending, hqueued, hdone, pendings_kept hpending (hkept j)⟩

theorem playbackStep_inv {act : Act} (h : ∃ content, PlaybackInv w content) (hstep : PlaybackStep cfg w act w')
    (hgood : PlaybackGood w act) : ∃ content, PlaybackInv w' content := by
  obtain ⟨content, h⟩ := h
  cases hstep with
  | qresp hra hia hq => exact qresp_inv h hra hia hgood hq
  | @playback i fuel ok st' ds hp =>
    unfold playback at hp
    split_ifs at hp
    obtain ⟨⟨st1, ds1⟩, hloop, heq⟩ := Option.map_eq_some_iff.mp hp
    obtain ⟨rfl, rfl⟩ := Prod.mk.inj heq
    obtain ⟨content', hinv⟩ := playLoop_inv h hloop
    exact ⟨content', endTask_inv hinv i⟩
  | detach => exact ⟨content, detached_inv h _⟩
  | kill hk => exact ⟨content, killed_inv h hk⟩
  | @free i fuel st' hgone hloop =>
    obtain ⟨content', hinv⟩ := playLoop_inv h hloop
    rw [List.append_nil, update_eq_self] at hinv
    exact ⟨content', hinv⟩
  | @enter opc ck => exact ⟨content, h.linked, h.held, fun r hr => (nomatch hr), hgood, h.books, h.task⟩
  | @context csn ck =>
    refine ⟨content, h.linked, h.held, fun r hr => ?_, fun c hc => (hgood c hc).1, h.books, h.task⟩
    obtain ⟨s, hs, href, hok⟩ := h.current r hr
    refine ⟨s, hs, href, hok.fresh, fun csns hcs => ⟨(hok.filled csns hcs).1, fun c hc => ?_⟩⟩
    exact (hgood c hc).2 s (by rw [show w.st.srl = some r from hr]; exact hs) csns hcs
  | cleanup hdetach => exact ⟨content, cleanup_inv h hdetach⟩

end

def checked : NotifyConfig where
  contextdn := []
  logs := false
  check := true
  leaf := fun _ _ _ => .false
  leaf_ne := nofun

def consumer : SyncOp where
  sid := 2
  reqNdn := []
  base := []
  eid := some 1
  scope := .subtree
  filter := .present (BackMdb.AttributeType.root "cn").ad
  abandoned := false
  detached := true
  wroteBase := false
  findBase := false
  fixFilter := false
  lostBase := false
  dead := false
  playback := false
  opSearch := true
  opMatch := false
  inuse := 0

def consumers (rid : Nat → Int) : World where
  st := ⟨⟨fun _ => consumer, [0, 1], ⟨-1, -1, []⟩⟩, rid, fun _ => LinkQueue.empty, fun _ => none, fun _ => none,
    ⟨[], none, [], [], none, none, -1, -1, false, none⟩, none⟩
  queued := fun _ => []
  sent := fun _ => []

def ctxMod : OpCookie := ⟨[], none, [], [], none, some firstCsn, 1, -1, false, none⟩

def ctxCookie : SyncCookie := ⟨-1, -1, [(1, firstCsn)]⟩

theorem consumers_start (rid : Nat → Int) : Start (consumers rid) :=
  ⟨fun _ => rfl, rfl, rfl, fun _ => rfl, fun _ => rfl⟩

def twoCookies : List Act := [.enter ctxMod ctxCookie, .qresp 0 .newCookie 0 0, .qresp 1 .newCookie 1 1, .playback 1 true]

end Playback
end Sync
end ReOpenLDAP
