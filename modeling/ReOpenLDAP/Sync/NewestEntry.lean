import ReOpenLDAP.Lib.LastWriter
import ReOpenLDAP.Sync.DelNonpresent
import ReOpenLDAP.Sync.RenameKept

/-!
# Sync.NewestEntry

Messages for one UUID, each with a full entry and without a cookie, in any order.

The DN of an entry that is added is free, and its parent is there.
-/

namespace ReOpenLDAP
namespace Sync

open Slapd Option

variable {ρ π δ ν ε : Type}

/-- What `syncrepl_entry` reads, beside the entries: `csn` is the CSN that a value of `entryCSN` is, `glue` tells the values of
`objectClass` that name the class, `normalize` gives the normalized RDN, and `lastmod` is what an operation for a message carries. -/
structure Replica (ρ π δ ν ε : Type) where
  sch : RenameSchema δ ν
  rd : RdnReader ρ δ ν
  normalize : ρ → ρ
  csn : ν → Csn
  glue : ν → Bool
  isCtx : ρ → π → Bool
  lastmod : NamedEntry ρ π δ ν → Option (OpAttrs ν)
  strict : Bool
  slap_serverID : Nat
  si : Syncinfo ε

def noCookie : SyncCookie := ⟨-1, -1, []⟩

inductive Answer where
  | success
  | retarded
deriving DecidableEq

variable [DecidableEq ρ] [DecidableEq π] [DecidableEq δ] [DecidableEq ν]

def entryCsn (c : Replica ρ π δ ν ε) (e : NamedEntry ρ π δ ν) : Option Csn := (valuesOf e.attrs c.sch.entryCSN).head?.map c.csn

def isEntryGlue (c : Replica ρ π δ ν ε) (e : NamedEntry ρ π δ ν) : Bool := (valuesOf e.attrs c.sch.objectClass).any c.glue

/-- `dni.csn_present` -/
def csnPresent (c : Replica ρ π δ ν ε) (e : NamedEntry ρ π δ ν) : Option Csn := if isEntryGlue c e then none else entryCsn c e

/-- `dn_callback` compares the CSNs once more, and leaves the entry unmodified. -/
def upToDate (csn_present csn_incomming : Option Csn) : Bool :=
  match csn_present, csn_incomming with
  | some old, some new => decide (slapCsnCompareTs old.text new.text ≠ .lt)
  | _, _ => false

/-- `syncrepl_entry` with `LDAP_SYNC_ADD` or `LDAP_SYNC_MODIFY`, and what becomes of the local entry. -/
def syncreplEntry (c : Replica ρ π δ ν ε) (st : Option (NamedEntry ρ π δ ν)) (new : NamedEntry ρ π δ ν) :
    Except RenameRc (Answer × Option (NamedEntry ρ π δ ν)) :=
  let csn_present := st.bind (csnPresent c)
  let csn_incomming := entryCsn c new
  if (checkForRetard c.strict c.slap_serverID c.si (some noCookie) csn_present csn_incomming).any then .ok (.retarded, st)
  else
    match st with
    | none => .ok (.success, some new)
    | some old =>
      if upToDate csn_present csn_incomming then .ok (.success, some old)
      else
        (syncreplReplace c.sch c.rd (c.isCtx old.nrdn old.pdn) (c.lastmod new) old new).map fun e => (.success, some e)

def syncreplEntries (c : Replica ρ π δ ν ε) :
    Option (NamedEntry ρ π δ ν) → List (NamedEntry ρ π δ ν) → Except RenameRc (List Answer × Option (NamedEntry ρ π δ ν))
  | st, [] => .ok ([], st)
  | st, new :: news =>
    match syncreplEntry c st new with
    | .error rc => .error rc
    | .ok (answer, st) => (syncreplEntries c st news).map fun r => (answer :: r.1, r.2)

def stamp (c : Replica ρ π δ ν ε) (e : NamedEntry ρ π δ ν) : WithBot (List Char ×ₗ List Char) :=
  (csnPresent c e).elim ⊥ fun csn => csn.ts

/-- The schema is sound, and what the consumer adds of its own is well formed. -/
structure ReplicaOk (c : Replica ρ π δ ν ε) : Prop where
  opattrs : (opattrs c.sch).Nodup
  context : c.sch.contextCSN ∉ Sync.opattrs c.sch ∧ c.sch.contextCSN ≠ c.sch.objectClass
  symm : ∀ d mr, c.sch.equality d = some mr → ∀ v w, mr.cmp v w = .eq → mr.cmp w v = .eq
  lastmod : ∀ new l, c.lastmod new = some l → OpAttrsKept c.sch l

structure LocalOk (c : Replica ρ π δ ν ε) (e : NamedEntry ρ π δ ν) : Prop where
  kept : EntryKept c.sch.toModSchema (opattrs c.sch) e.attrs
  single : ∀ d ∈ opattrs c.sch, ∀ o, attrFind e.attrs d = some o → o.vals.length = 1
  nrdn : e.nrdn = c.normalize e.rdn

/-- The entry of a message: it is full, from another server, and the consumer's cookie does not cover it. -/
structure VersionOk (c : Replica ρ π δ ν ε) (m : NamedEntry ρ π δ ν) : Prop extends LocalOk c m where
  fresh : ∀ a ∈ m.attrs, a.ixadd = false
  full : ∀ d ∈ opattrs c.sch, ∃ v, (attrFind m.attrs d).map (·.vals) = some [v]
  notGlue : isEntryGlue c m = false
  foreign : ∀ csn, entryCsn c m = some csn → csn.sid ≠ c.slap_serverID
  news : ∀ csn, entryCsn c m = some csn → ∀ csn', cookieCsn csn.sid c.si.si_syncCookie.csns = some csn' →
    slapCsnCompareTs csn.text csn'.text = .gt

structure RenameGoes (c : Replica ρ π δ ν ε) (e m : NamedEntry ρ π δ ν) (ad bd : δ) (a b : ν) (amr bmr : EqualityRule ν)
    (mods : List (Modification δ ν)) : Prop where
  source : Naming c.sch.toModSchema c.rd e ad a amr
  target : Naming c.sch.toModSchema c.rd m bd b bmr
  user : ad ∉ opattrs c.sch ∧ bd ∉ opattrs c.sch
  newer : (attrFind e.attrs c.sch.entryCSN).map (·.vals) ≠ (attrFind m.attrs c.sch.entryCSN).map (·.vals)
  diff : dnMods c.sch (c.isCtx e.nrdn e.pdn) e m = some mods
  met : RenameMet c.sch (c.isCtx e.nrdn e.pdn) (c.lastmod m) (dnInfo c.sch c.rd e m) e.attrs m.attrs mods a b bmr

def Goes (c : Replica ρ π δ ν ε) (e m : NamedEntry ρ π δ ν) : Prop :=
  if renamed e m then ∃ ad bd a b amr bmr mods, RenameGoes c e m ad bd a b amr bmr mods
  else KeepsLast c.sch.toDiffSchema (c.isCtx e.nrdn e.pdn) e.attrs m.attrs

def RunMet (c : Replica ρ π δ ν ε) : Option (NamedEntry ρ π δ ν) → List (NamedEntry ρ π δ ν) → Prop
  | _, [] => True
  | st, new :: news => (∀ e, st = some e → stamp c e < stamp c new → Goes c e new) ∧
      ∀ answer st', syncreplEntry c st new = .ok (answer, st') → RunMet c st' news

/-- The local entry `e` is `v`: it has its name and its values, but for the `contextCSN` of the context entry. -/
structure Standing (c : Replica ρ π δ ν ε) (v e : NamedEntry ρ π δ ν) : Prop where
  rdn : e.rdn = v.rdn
  nrdn : e.nrdn = v.nrdn
  pdn : e.pdn = v.pdn
  same : ∀ d, ¬ (c.isCtx e.nrdn e.pdn = true ∧ d = c.sch.contextCSN) → SameValues e.attrs v.attrs d
  kept : EntryKept c.sch.toModSchema (opattrs c.sch) e.attrs

section Values

variable {c : Replica ρ π δ ν ε} {e m v : NamedEntry ρ π δ ν} {attrs attrs' : List (Attr δ ν)} {d : δ}

omit [DecidableEq ν] in
theorem sameValues_refl (attrs : List (Attr δ ν)) (d : δ) : SameValues attrs attrs d := by
  unfold SameValues
  cases attrFind attrs d with
  | none => exact .none
  | some a => exact .some (List.Perm.refl _)

omit [DecidableEq ν] in
theorem SameValues.values (h : SameValues attrs attrs' d) : (valuesOf attrs d).Perm (valuesOf attrs' d) := by
  unfold SameValues at h
  unfold valuesOf
  revert h
  generalize (attrFind attrs d).map (·.vals) = x
  generalize (attrFind attrs' d).map (·.vals) = y
  intro h
  cases h with
  | some h => exact h
  | none => exact List.Perm.refl _

omit [DecidableEq ν] in
theorem SameValues.single (h : SameValues attrs attrs' d) (hone : ∀ o, attrFind attrs' d = some o → o.vals.length = 1) :
    (attrFind attrs d).map (·.vals) = (attrFind attrs' d).map (·.vals) := by
  unfold SameValues at h
  cases ho : attrFind attrs d with
  | none =>
    rw [ho] at h
    cases ho' : attrFind attrs' d with
    | none => rfl
    | some o' =>
      rw [ho'] at h
      cases h
  | some o =>
    rw [ho] at h
    cases ho' : attrFind attrs' d with
    | none =>
      rw [ho'] at h
      cases h
    | some o' =>
      rw [ho'] at h
      cases h with
      | some hp =>
        obtain ⟨w, hw⟩ := List.length_eq_one_iff.mp (hone o' ho')
        have hvals : o.vals = [w] := List.perm_singleton.mp (hw ▸ hp)
        rw [map_some, map_some, hw, hvals]

omit [DecidableEq ρ] [DecidableEq π] [DecidableEq ν] in
theorem Standing.self (h : LocalOk c e) : Standing c e e := ⟨rfl, rfl, rfl, fun d _ => sameValues_refl e.attrs d, h.kept⟩

omit [DecidableEq ρ] [DecidableEq π] [DecidableEq ν] in
theorem Standing.opattr (hc : ReplicaOk c) (h : Standing c v e) (hv : LocalOk c v) (hd : d ∈ opattrs c.sch) :
    (attrFind e.attrs d).map (·.vals) = (attrFind v.attrs d).map (·.vals) := by
  have hne : ¬ (c.isCtx e.nrdn e.pdn = true ∧ d = c.sch.contextCSN) := fun hctx => hc.context.1 (hctx.2 ▸ hd)
  exact (h.same d hne).single (hv.single d hd)

omit [DecidableEq ρ] [DecidableEq π] [DecidableEq ν] in
theorem Standing.localOk (hc : ReplicaOk c) (h : Standing c v e) (hv : LocalOk c v) : LocalOk c e := by
  refine ⟨h.kept, fun d hd o ho => ?_, ?_⟩
  · have hvals := h.opattr hc hv hd
    rw [ho, map_some] at hvals
    obtain ⟨o', ho', hsame⟩ := Option.map_eq_some_iff.mp hvals.symm
    exact hsame ▸ hv.single d hd o' ho'
  · rw [h.nrdn, h.rdn]
    exact hv.nrdn

omit [DecidableEq ρ] [DecidableEq π] [DecidableEq ν] in
theorem Standing.csnPresent (hc : ReplicaOk c) (h : Standing c v e) (hv : LocalOk c v) : csnPresent c e = csnPresent c v := by
  have hcsn : entryCsn c e = entryCsn c v := by
    unfold entryCsn valuesOf
    rw [h.opattr hc hv (by simp [opattrs])]
  have hglue : isEntryGlue c e = isEntryGlue c v := by
    have hp := (h.same c.sch.objectClass fun hctx => hc.context.2 hctx.2.symm).values
    unfold isEntryGlue
    exact hp.any_eq
  unfold Sync.csnPresent
  rw [hcsn, hglue]

end Values

/-! ## One message -/

section Step

variable {c : Replica ρ π δ ν ε} {e m v : NamedEntry ρ π δ ν} {st r : Option (NamedEntry ρ π δ ν)} {csn : Csn}

theorem retard_any {si : Syncinfo ε} {strict : Bool} {slap_serverID : Nat} (sc : SyncCookie)
    (hecho : retardEcho strict slap_serverID si csn = false) (p : Option Csn) :
    (checkForRetard strict slap_serverID si (some sc) p (some csn)).any =
      p.any fun old => decide (slapCsnCompareTs old.text csn.text = .gt) := by
  unfold checkForRetard Retard.any
  cases p with
  | none => simp [hecho]
  | some old => by_cases hgt : slapCsnCompareTs old.text csn.text = .gt <;> simp [hecho, hgt]

omit [DecidableEq ρ] [DecidableEq π] [DecidableEq ν] in
theorem VersionOk.stamp_eq (hm : VersionOk c m) :
    ∃ csn, entryCsn c m = some csn ∧ stamp c m = csn.ts ∧ retardEcho c.strict c.slap_serverID c.si csn = false := by
  obtain ⟨v, hv⟩ := hm.full c.sch.entryCSN (by simp [opattrs])
  have hcsn : entryCsn c m = some (c.csn v) := by
    unfold entryCsn valuesOf
    rw [hv]
    rfl
  refine ⟨c.csn v, hcsn, ?_, ?_⟩
  · unfold stamp csnPresent
    rw [hm.notGlue, hcsn]
    rfl
  · unfold retardEcho
    have hother := hm.foreign _ hcsn
    cases hc : cookieCsn (c.csn v).sid c.si.si_syncCookie.csns with
    | none => simp [hother]
    | some csn' => simp [hother, hm.news _ hcsn csn' hc]

theorem keepsLast_goes (he : LocalOk c e) (hm : VersionOk c m) (hren : renamed e m = false)
    (h : KeepsLast c.sch.toDiffSchema (c.isCtx e.nrdn e.pdn) e.attrs m.attrs) :
    ∃ e', syncreplReplace c.sch c.rd (c.isCtx e.nrdn e.pdn) (c.lastmod m) e m = .ok e' ∧ e'.rdn = m.rdn ∧ e'.nrdn = m.nrdn ∧
      e'.pdn = m.pdn ∧ ∀ d, ¬ (c.isCtx e.nrdn e.pdn = true ∧ d = c.sch.contextCSN) → SameValues e'.attrs m.attrs d := by
  obtain ⟨hrdn, hpdn⟩ : e.rdn = m.rdn ∧ e.pdn = m.pdn := by simpa [renamed] using hren
  have hnrdn : e.nrdn = m.nrdn := by rw [he.nrdn, hm.nrdn, hrdn]
  obtain ⟨s, attrs, hloop, hinv, hend⟩ :=
    diffLoop_inv he.kept.ok _ le_rfl (@diffInv_start _ _ _ _ _ (c.isCtx e.nrdn e.pdn) _ _ he.kept.ok hm.kept.ok hm.fresh)
  obtain ⟨mods, attrs', hmods, happ, hsame⟩ :=
    (diffRight_iff_left hloop hinv hend).mpr ((left_iff_keepsLast hinv he.kept.ok hend).mpr h)
  obtain ⟨mods', _, hmods', -, hshape⟩ :=
    @diff_shape _ _ _ _ c.sch.toDiffSchema _ _ (c.isCtx e.nrdn e.pdn) he.kept.ok hm.kept.ok hm.fresh
  obtain rfl := Option.some.inj (hmods'.symm.trans hmods)
  have hops : ∀ mod ∈ mods', mod.op ≠ .softadd := fun mod hmod =>
    shape_ops (hshape mod.desc).1 mod (List.mem_filter.mpr ⟨hmod, decide_eq_true rfl⟩)
  have hdn : dnMods c.sch (c.isCtx e.nrdn e.pdn) e m = some mods' := hmods
  refine ⟨{ e with attrs := attrs' }, ?_, hrdn, hnrdn, hpdn, hsame⟩
  unfold syncreplReplace
  rw [hdn]
  dsimp only
  rw [if_neg (by simp [hren])]
  by_cases hnil : mods' = []
  · subst hnil
    obtain rfl := Except.ok.inj happ
    rw [if_pos rfl]
  · rw [if_neg hnil]
    unfold mdbModify
    rw [modifyInternal_diff hops e.attrs, happ]

theorem goes_standing (hc : ReplicaOk c) (he : LocalOk c e) (hm : VersionOk c m) (h : Goes c e m) :
    ∃ e', syncreplReplace c.sch c.rd (c.isCtx e.nrdn e.pdn) (c.lastmod m) e m = .ok e' ∧ Standing c m e' := by
  have hsingle : ∀ d ∈ opattrs c.sch, (∃ v, (attrFind m.attrs d).map (·.vals) = some [v]) ∧
      ∀ o, attrFind e.attrs d = some o → o.vals.length = 1 := fun d hd => ⟨hm.full d hd, he.single d hd⟩
  unfold Goes at h
  cases hren : renamed e m with
  | true =>
    rw [if_pos hren] at h
    obtain ⟨ad, bd, a, b, amr, bmr, mods, hgo⟩ := h
    have hR : Renaming c.sch c.rd e m ad bd a b amr bmr :=
      { changed := hren, oldOk := he.kept.ok, newOk := hm.kept.ok, fresh := hm.fresh, source := hgo.source, target := hgo.target,
        stored := fun d hd => he.kept.stored hd, opattrs := hc.opattrs, user := hgo.user, single := hsingle, newer := hgo.newer }
    obtain ⟨mods', attrs, hmods, hrun, hshape⟩ :=
      @diff_shape _ _ _ _ c.sch.toDiffSchema _ _ (c.isCtx e.nrdn e.pdn) he.kept.ok hm.kept.ok hm.fresh
    obtain rfl : mods' = mods := Option.some.inj (hmods.symm.trans hgo.diff)
    obtain ⟨e', he', hrdn, hnrdn, hpdn, hsame⟩ := (replaced_iff_met hR hgo.diff hrun hshape).mpr hgo.met
    have hkept := syncreplReplace_kept hc.symm he.kept hm.kept hm.fresh hsingle (hc.lastmod m) he'
    exact ⟨e', he', hrdn, hnrdn, hpdn, fun d _ => hsame d, hkept⟩
  | false =>
    rw [if_neg (by simp [hren])] at h
    obtain ⟨e', he', hrdn, hnrdn, hpdn, hsame⟩ := keepsLast_goes he hm hren h
    have hkept := syncreplReplace_kept hc.symm he.kept hm.kept hm.fresh hsingle (hc.lastmod m) he'
    have hctx : c.isCtx e'.nrdn e'.pdn = c.isCtx e.nrdn e.pdn := by
      obtain ⟨hr, hp⟩ : e.rdn = m.rdn ∧ e.pdn = m.pdn := by simpa [renamed] using hren
      rw [hnrdn, hpdn, hp, he.nrdn, hm.nrdn, hr]
    exact ⟨e', he', hrdn, hnrdn, hpdn, hctx ▸ hsame, hkept⟩

theorem syncreplEntry_takes (hc : ReplicaOk c) (hr : ∀ v, r = some v → LocalOk c v) (hst : Option.Rel (fun e v => Standing c v e) st r)
    (hm : VersionOk c m) (hmet : ∀ e, st = some e → stamp c e < stamp c m → Goes c e m) :
    ∃ answer st', syncreplEntry c st m = .ok (answer, st') ∧
      Option.Rel (fun e v => Standing c v e) st' (LastWriter.take (stamp c) r m) := by
  obtain ⟨csn, hcsn, hts, hecho⟩ := hm.stamp_eq
  unfold syncreplEntry
  dsimp only
  rw [hcsn, retard_any noCookie hecho]
  cases hst with
  | none => exact ⟨.success, some m, rfl, .some (Standing.self hm.toLocalOk)⟩
  | @some e v h =>
    have hv := hr v rfl
    have hpresent := h.csnPresent hc hv
    have hstamp : stamp c e = stamp c v := by
      unfold stamp
      rw [hpresent]
    have hgo : stamp c v < stamp c m → upToDate (csnPresent c e) (some csn) = false →
        ∃ answer st', (if upToDate (csnPresent c e) (some csn) = true then Except.ok (Answer.success, some e)
          else (syncreplReplace c.sch c.rd (c.isCtx e.nrdn e.pdn) (c.lastmod m) e m).map fun e => (.success, some e)) =
            .ok (answer, st') ∧ Option.Rel (fun e v => Standing c v e) st' (LastWriter.take (stamp c) (some v) m) := by
      intro hlt hup
      obtain ⟨e', he', hstanding⟩ := goes_standing hc (h.localOk hc hv) hm (hmet e rfl (hstamp ▸ hlt))
      rw [LastWriter.take_newer hlt, if_neg (by simp [hup]), he']
      exact ⟨.success, some e', rfl, .some hstanding⟩
    rw [bind_some]
    cases hp : csnPresent c e with
    | none =>
      rw [hp] at hgo
      have hbot : stamp c v = ⊥ := by
        unfold stamp
        rw [← hpresent, hp]
        rfl
      exact hgo (by rw [hbot, hts]; exact WithBot.bot_lt_coe csn.ts) rfl
    | some old =>
      rw [hp] at hgo
      have hold : stamp c v = old.ts := by
        unfold stamp
        rw [← hpresent, hp]
        rfl
      rw [any_some]
      rcases lt_trichotomy old.ts csn.ts with hlt | heq | hgt
      · have hcmp := Csn.compareTs_lt.mpr hlt
        rw [if_neg (by simp [hcmp])]
        exact hgo (by rw [hold, hts]; exact WithBot.coe_lt_coe.mpr hlt) (by simp [upToDate, hcmp])
      · have hcmp : slapCsnCompareTs old.text csn.text ≠ .gt ∧ slapCsnCompareTs old.text csn.text ≠ .lt := by
          rw [Ne, Csn.compareTs_gt, Ne, Csn.compareTs_lt, heq]
          exact ⟨lt_irrefl _, lt_irrefl _⟩
        rw [if_neg (by simp [hcmp.1]), LastWriter.take_older (by rw [hold, hts, heq])]
        dsimp only
        rw [if_pos (by simp [upToDate, hcmp.2])]
        exact ⟨.success, some e, rfl, .some h⟩
      · have hcmp := Csn.compareTs_gt.mpr hgt
        rw [if_pos (by simp [hcmp]), LastWriter.take_older (by rw [hold, hts]; exact WithBot.coe_le_coe.mpr hgt.le)]
        exact ⟨.retarded, some e, rfl, .some h⟩

end Step

section Run

variable {c : Replica ρ π δ ν ε} {st r : Option (NamedEntry ρ π δ ν)} {msgs : List (NamedEntry ρ π δ ν)}

theorem syncreplEntries_takeAll (hc : ReplicaOk c) (hr : ∀ v, r = some v → LocalOk c v)
    (hst : Option.Rel (fun e v => Standing c v e) st r) (hmsgs : ∀ m ∈ msgs, VersionOk c m) (hmet : RunMet c st msgs) :
    ∃ answers st', syncreplEntries c st msgs = .ok (answers, st') ∧ answers.length = msgs.length ∧
      Option.Rel (fun e v => Standing c v e) st' (LastWriter.takeAll (stamp c) r msgs) := by
  induction msgs generalizing st r with
  | nil => exact ⟨[], st, rfl, rfl, hst⟩
  | cons m msgs ih =>
    have hm := hmsgs m List.mem_cons_self
    obtain ⟨answer, st₁, hone, hst₁⟩ := syncreplEntry_takes hc hr hst hm hmet.1
    have hr₁ : ∀ v, LastWriter.take (stamp c) r m = some v → LocalOk c v := by
      intro v hv
      obtain ⟨b, hb, hor, -⟩ := LastWriter.take_spec (stamp c) r m
      obtain rfl := Option.some.inj (hb.symm.trans hv)
      rcases hor with rfl | hold
      · exact hm.toLocalOk
      · exact hr b hold
    obtain ⟨answers, st', hrun, hlen, hst'⟩ :=
      ih hr₁ hst₁ (fun m' hm' => hmsgs m' (List.mem_cons_of_mem m hm')) (hmet.2 answer st₁ hone)
    refine ⟨answer :: answers, st', ?_, congrArg (· + 1) hlen, hst'⟩
    rw [syncreplEntries, hone]
    dsimp only
    rw [hrun]
    rfl

/-- Messages with different timestamps, in any order: each is applied or retarded, and in the end the local entry is the newest one,
with its CSN; so it is the former one if no message is newer. -/
theorem syncrepl_entries_newest (hc : ReplicaOk c) (hst : ∀ e, st = some e → LocalOk c e) (hmsgs : ∀ m ∈ msgs, VersionOk c m)
    (hdiff : msgs.Pairwise fun m m' => stamp c m ≠ stamp c m') (hmet : RunMet c st msgs) :
    ∃ answers st', syncreplEntries c st msgs = .ok (answers, st') ∧ answers.length = msgs.length ∧
      (∀ m ∈ msgs, (∀ m' ∈ msgs, stamp c m' ≤ stamp c m) → (∀ e, st = some e → stamp c e < stamp c m) →
        ∃ e, st' = some e ∧ csnPresent c e = csnPresent c m ∧ Standing c m e) ∧
      ∀ e, st = some e → (∀ m ∈ msgs, stamp c m ≤ stamp c e) → ∃ e', st' = some e' ∧ csnPresent c e' = csnPresent c e ∧ Standing c e e' := by
  have hself : Option.Rel (fun e v => Standing c v e) st st := by
    cases st with
    | none => exact .none
    | some e => exact .some (Standing.self (hst e rfl))
  obtain ⟨answers, st', hrun, hlen, hst'⟩ := syncreplEntries_takeAll hc hst hself hmsgs hmet
  refine ⟨answers, st', hrun, hlen, fun m hm hnew hold => ?_, fun e he hold => ?_⟩
  · have hlt : ∀ x ∈ msgs, x ≠ m → stamp c x < stamp c m := by
      intro x hx hne
      have hsymm : Std.Symm fun m m' => stamp c m ≠ stamp c m' := ⟨fun _ _ h => h.symm⟩
      exact lt_of_le_of_ne (hnew x hx) (hdiff.forall hx hm hne)
    rw [LastWriter.takeAll_eq_of_newer hm hlt hold] at hst'
    cases hst' with
    | @some e _ h => exact ⟨e, rfl, h.csnPresent hc (hmsgs m hm).toLocalOk, h⟩
  · subst he
    rw [LastWriter.takeAll_eq_of_older hold] at hst'
    cases hst' with
    | @some e' _ h => exact ⟨e', rfl, h.csnPresent hc (hst e rfl), h⟩

end Run

def plainReplica : Replica (String × String) String String String Unit where
  sch := plainRename
  rd := pairReader
  normalize := id
  csn := fun text => if text = "1" then SyncCookie.firstCsn else SyncCookie.secondCsn
  glue := fun oc => oc = "glue"
  isCtx := fun _ _ => false
  lastmod := fun _ => none
  strict := true
  slap_serverID := 7
  si := ⟨true, fun _ => .true, fun _ => true, noCookie, SyncCookie.firstCsn, Presentlist.empty, false⟩

def plainVersion (csn : String) (rest : List (String × List String)) : NamedEntry (String × String) String String String where
  rdn := ("cn", "a")
  nrdn := ("cn", "a")
  pdn := "o=p"
  attrs := ([("entryCSN", [csn]), ("modifiersName", ["cn=m"]), ("modifyTimestamp", [csn]), ("cn", ["a"])] ++ rest).map fun a =>
    attrNew a.1 a.2 none

theorem plainVersion_ok (csn : String) {rest : List (String × List String)}
    (hn : (["entryCSN", "modifiersName", "modifyTimestamp", "cn"] ++ rest.map (·.1)).Nodup) (hv : ∀ a ∈ rest, a.2 ≠ [] ∧ a.2.Nodup)
    (hg : isEntryGlue plainReplica (plainVersion csn rest) = false) : VersionOk plainReplica (plainVersion csn rest) := by
  have hone : ∀ d ∈ opattrs plainRename, ∃ v, (attrFind (plainVersion csn rest).attrs d).map (·.vals) = some [v] := by
    intro d hd
    have hcase : d = "entryCSN" ∨ d = "modifiersName" ∨ d = "modifyTimestamp" := by
      simpa [opattrs, plainRename, plainSchema] using hd
    rcases hcase with rfl | rfl | rfl
    · exact ⟨csn, rfl⟩
    · exact ⟨"cn=m", rfl⟩
    · exact ⟨csn, rfl⟩
  have hok : EntryOk plainRename.toModSchema (plainVersion csn rest).attrs := plain_ok hn (by simpa using hv)
  have hcsn : entryCsn plainReplica (plainVersion csn rest) = some (plainReplica.csn csn) := rfl
  have hsid : (plainReplica.csn csn).sid = 1 := by
    change (if csn = "1" then SyncCookie.firstCsn else SyncCookie.secondCsn).sid = 1
    split_ifs
    · decide
    · decide
  refine ⟨⟨⟨hok.nodup, fun a ha => ⟨hok.attr a ha, ?_⟩⟩, fun d hd o ho => ?_, rfl⟩, ?_, hone, hg, ?_, ?_⟩
  · rintro - mr hr
    obtain ⟨a, -, rfl⟩ := List.mem_map.mp ha
    obtain rfl := Option.some.inj hr
    rfl
  · obtain ⟨v, hv⟩ := hone d hd
    rw [ho] at hv
    exact congrArg List.length (Option.some.inj hv)
  · rintro _ hmem
    obtain ⟨a, -, rfl⟩ := List.mem_map.mp hmem
    rfl
  · rintro _ h
    obtain rfl := Option.some.inj (hcsn.symm.trans h)
    rw [hsid]
    decide
  · rintro _ h csn' hc
    cases hc

theorem syncrepl_entries_newest_twice :
    ∃ answers st', syncreplEntries plainReplica none [plainVersion "1" [("sn", ["a"])], plainVersion "2" [("sn", ["b"])]] =
        .ok (answers, st') ∧ answers.length = 2 ∧
      (∀ m ∈ [plainVersion "1" [("sn", ["a"])], plainVersion "2" [("sn", ["b"])]],
        (∀ m' ∈ [plainVersion "1" [("sn", ["a"])], plainVersion "2" [("sn", ["b"])]], stamp plainReplica m' ≤ stamp plainReplica m) →
        (∀ e, none = some e → stamp plainReplica e < stamp plainReplica m) →
        ∃ e, st' = some e ∧ csnPresent plainReplica e = csnPresent plainReplica m ∧ Standing plainReplica m e) ∧
      ∀ e, none = some e → (∀ m ∈ [plainVersion "1" [("sn", ["a"])], plainVersion "2" [("sn", ["b"])]],
          stamp plainReplica m ≤ stamp plainReplica e) →
        ∃ e', st' = some e' ∧ csnPresent plainReplica e' = csnPresent plainReplica e ∧ Standing plainReplica e e' := by
  have hok : ReplicaOk plainReplica := by
    refine ⟨by decide, ⟨by decide, by decide⟩, ?_, ?_⟩
    · rintro d mr hr v w h
      obtain rfl := Option.some.inj hr
      exact show compare w v = .eq from Std.OrientedCmp.eq_symm (show compare v w = .eq from h)
    · rintro new l h
      cases h
  have hkeep : KeepsLast plainRename.toDiffSchema false (plainVersion "1" [("sn", ["a"])]).attrs (plainVersion "2" [("sn", ["b"])]).attrs := by
    intro a ha
    have hlast : some (attrNew "sn" ["a"] none) = some a := ha
    obtain rfl := Option.some.inj hlast
    rfl
  refine syncrepl_entries_newest hok (fun e he => by cases he) ?_ ?_ ⟨(fun e he => by cases he), ?_⟩
  · rintro m hm
    rcases List.mem_cons.mp hm with rfl | hm
    · exact plainVersion_ok "1" (by decide) (by decide) (by decide)
    · rw [List.mem_singleton.mp hm]
      exact plainVersion_ok "2" (by decide) (by decide) (by decide)
  · refine List.pairwise_pair.mpr (ne_of_lt ?_)
    refine WithBot.coe_lt_coe.mpr (Csn.compareTs_lt.mp ?_)
    decide
  · rintro answer st' h
    have hfirst : syncreplEntry plainReplica none (plainVersion "1" [("sn", ["a"])]) =
      .ok (.success, some (plainVersion "1" [("sn", ["a"])])) := by decide
    obtain ⟨rfl, rfl⟩ := Prod.mk.inj (Except.ok.inj (hfirst.symm.trans h))
    refine ⟨?_, fun _ _ _ => trivial⟩
    rintro e he -
    obtain rfl := Option.some.inj he
    exact hkeep

/-- What is gone in the newer entry, and last in the older, stays if the older one comes first. -/
theorem syncrepl_entries_leavesLast :
    VersionOk plainReplica (plainVersion "1" [("sn", ["b"])]) ∧ VersionOk plainReplica (plainVersion "2" []) ∧
      stamp plainReplica (plainVersion "1" [("sn", ["b"])]) < stamp plainReplica (plainVersion "2" []) ∧
      ¬ ∃ answers e, syncreplEntries plainReplica none [plainVersion "1" [("sn", ["b"])], plainVersion "2" []] =
        .ok (answers, some e) ∧ Standing plainReplica (plainVersion "2" []) e := by
  refine ⟨plainVersion_ok "1" (by decide) (by decide) (by decide), plainVersion_ok "2" (by decide) (by decide) (by decide), ?_, ?_⟩
  · refine WithBot.coe_lt_coe.mpr (Csn.compareTs_lt.mp ?_)
    decide
  · rintro ⟨answers, e, hrun, hs⟩
    have hsn : ((syncreplEntries plainReplica none [plainVersion "1" [("sn", ["b"])], plainVersion "2" []]).toOption.bind
        fun r => r.2.map fun e => (attrFind e.attrs "sn").map (·.vals)) = some (some ["b"]) := by decide
    rw [hrun] at hsn
    have hfind : (attrFind e.attrs "sn").map (·.vals) = some ["b"] := Option.some.inj hsn
    have hsame := hs.same "sn" (by simp [plainReplica])
    unfold SameValues at hsame
    rw [hfind] at hsame
    cases hsame

end Sync
end ReOpenLDAP
