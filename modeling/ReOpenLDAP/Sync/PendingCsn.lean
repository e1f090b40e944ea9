import ReOpenLDAP.Lib.Run
import ReOpenLDAP.Sync.Csn

/-!
# Sync.PendingCsn

The pending CSNs of a backend. An operation queues its CSN before it writes, asks for the CSN that may be published when
it has committed, and leaves the list at its end. The three functions run under `be_pcl_mutex`, so their steps do not
overlap, and operations take them in any order.
-/

namespace ReOpenLDAP
namespace Sync

open List Function

inductive CsnState where
  | pending
  | commit
deriving DecidableEq

/-- `struct slap_csn_entry` -/
structure CsnEntry (ι : Type) where
  op : ι
  csn : Csn
  sid : Nat
  state : CsnState
deriving DecidableEq

/-- `be_pending_csn_list`, and `o_csn` of each operation (`none` if it is empty). -/
structure PendingList (ι : Type) where
  entries : List (CsnEntry ι)
  ocsn : ι → Option Csn

variable {ι : Type}

namespace PendingList

def empty : PendingList ι := ⟨[], fun _ => none⟩

def insertBefore (new : CsnEntry ι) : List (CsnEntry ι) → List (CsnEntry ι)
  | [] => [new]
  | p :: ps =>
    if p.sid = new.sid ∧ slapCsnCompareTs new.csn.text p.csn.text = .lt then new :: p :: ps
    else p :: insertBefore new ps

variable [DecidableEq ι]

/-- `slap_queue_csn`. The result is `none` where an assertion fails; `check` is `reopenldap_mode_check()`. -/
def slapQueueCsn (check : Bool) (s : PendingList ι) (op : ι) (csn : Csn) : Option (PendingList ι) :=
  match s.entries.find? fun e => e.op = op with
  | some p => if p.sid ≠ csn.sid ∨ check = true then none else some s
  | none =>
    if (s.ocsn op).isSome then none
    else some ⟨insertBefore ⟨op, csn, csn.sid, .pending⟩ s.entries, Function.update s.ocsn op (some csn)⟩

def markCommit (op : ι) : List (CsnEntry ι) → List (CsnEntry ι)
  | [] => []
  | e :: es => if e.op = op then { e with state := .commit } :: es else e :: markCommit op es

/-- The second loop of `slap_get_commit_csn`; `committed` is `committed_csne`. The result is `none` where the ordering
assertion fails. -/
def commitScan (op : ι) (sid : Nat) : List (CsnEntry ι) → Option Csn → Option (Option Csn)
  | [], committed => some committed
  | e :: es, committed =>
    if e.sid = sid then
      if committed.any fun c => slapCsnCompareTs e.csn.text c.text = .lt then none
      else if e.state = .commit then
        -- don't go ahead
        if e.op = op then some (some e.csn) else commitScan op sid es (some e.csn)
      else some committed
    else commitScan op sid es committed

/-- `slap_get_commit_csn`, with `maxcsn` if `want` holds. -/
def slapGetCommitCsn (s : PendingList ι) (op : ι) (want : Bool) : Option (PendingList ι × Option Csn) :=
  let sid := (s.ocsn op).map Csn.sid
  if (s.entries.find? fun e => e.op = op).any fun e => sid.any fun sid => sid ≠ e.sid then none
  else
    let entries := markCommit op s.entries
    match want, sid with
    | true, some sid => (commitScan op sid entries none).map fun max => ({ s with entries := entries }, max)
    | _, _ => some ({ s with entries := entries }, none)

/-- `slap_graduate_commit_csn`, and the state of the entry it has removed. -/
def slapGraduateCommitCsn (s : PendingList ι) (op : ι) : Option (PendingList ι × Option CsnState) :=
  match s.entries.find? fun e => e.op = op with
  | none => some (s, none)
  | some e =>
    if (s.ocsn op).map Csn.text ≠ some e.csn.text then none
    else some (⟨s.entries.eraseP fun e => e.op = op, Function.update s.ocsn op none⟩, some e.state)

end PendingList

open PendingList

inductive CsnAct (ι : Type) where
  | queue (op : ι) (csn : Csn)
  | commit (op : ι) (want : Bool)
  | graduate (op : ι)

inductive PclStep [DecidableEq ι] (check : Bool) : PendingList ι → CsnAct ι → PendingList ι → Prop where
  | queue {s s' : PendingList ι} {op : ι} {csn : Csn} :
      slapQueueCsn check s op csn = some s' → PclStep check s (.queue op csn) s'
  | commit {s s' : PendingList ι} {op : ι} {want : Bool} {max : Option Csn} :
      slapGetCommitCsn s op want = some (s', max) → PclStep check s (.commit op want) s'
  | graduate {s s' : PendingList ι} {op : ι} {state : Option CsnState} :
      slapGraduateCommitCsn s op = some (s', state) → PclStep check s (.graduate op) s'

def Earlier (a b : CsnEntry ι) : Prop := a.sid = b.sid → a.csn.ts ≤ b.csn.ts

structure PclInv (s : PendingList ι) : Prop where
  ops : (s.entries.map CsnEntry.op).Nodup
  sids : ∀ e ∈ s.entries, e.sid = e.csn.sid
  own : ∀ op c, s.ocsn op = some c ↔ ∃ e ∈ s.entries, e.op = op ∧ e.csn = c
  ordered : s.entries.Pairwise Earlier

theorem PclInv.empty : PclInv (empty : PendingList ι) where
  ops := nodup_nil
  sids := by simp [PendingList.empty]
  own := by simp [PendingList.empty]
  ordered := List.Pairwise.nil

theorem insertBefore_perm (new : CsnEntry ι) (l : List (CsnEntry ι)) : (insertBefore new l).Perm (new :: l) := by
  induction l with
  | nil => exact List.Perm.refl _
  | cons p ps ih =>
    unfold insertBefore
    split
    · exact List.Perm.refl _
    · exact (ih.cons p).trans (List.Perm.swap new p ps)

theorem insertBefore_ordered {new : CsnEntry ι} {l : List (CsnEntry ι)} (h : l.Pairwise Earlier) :
    (insertBefore new l).Pairwise Earlier := by
  induction l with
  | nil => exact pairwise_singleton _ _
  | cons p ps ih =>
    obtain ⟨hp, hps⟩ := List.pairwise_cons.mp h
    unfold insertBefore
    split
    · rename_i hlt
      obtain ⟨hsid, hlt⟩ := hlt
      have hlt' := Csn.compareTs_lt.mp hlt
      refine List.pairwise_cons.mpr ⟨?_, h⟩
      intro q hq hqs
      cases List.mem_cons.mp hq with
      | inl hq => exact hq ▸ hlt'.le
      | inr hq => exact hlt'.le.trans (hp q hq (hsid.trans hqs))
    · rename_i hnot
      refine List.pairwise_cons.mpr ⟨?_, ih hps⟩
      intro q hq hqs
      cases List.mem_cons.mp ((insertBefore_perm new ps).mem_iff.mp hq) with
      | inr hq => exact hp q hq hqs
      | inl hq =>
        rw [hq] at hqs ⊢
        exact not_lt.mp fun hlt => hnot ⟨hqs, Csn.compareTs_lt.mpr hlt⟩

variable [DecidableEq ι]

def CsnEntry.committed (op : ι) (e : CsnEntry ι) : CsnEntry ι := if e.op = op then { e with state := .commit } else e

@[simp] theorem CsnEntry.committed_op (op : ι) (e : CsnEntry ι) : (e.committed op).op = e.op := by
  unfold committed
  split <;> rfl

@[simp] theorem CsnEntry.committed_csn (op : ι) (e : CsnEntry ι) : (e.committed op).csn = e.csn := by
  unfold committed
  split <;> rfl

@[simp] theorem CsnEntry.committed_sid (op : ι) (e : CsnEntry ι) : (e.committed op).sid = e.sid := by
  unfold committed
  split <;> rfl

theorem markCommit_eq_map {op : ι} {l : List (CsnEntry ι)} (h : (l.map CsnEntry.op).Nodup) :
    markCommit op l = l.map (CsnEntry.committed op) := by
  induction l with
  | nil => rfl
  | cons e es ih =>
    obtain ⟨he, hes⟩ := List.nodup_cons.mp h
    unfold markCommit
    rw [map_cons]
    if hop : e.op = op then
      have hrest : es.map (CsnEntry.committed op) = es := by
        refine (map_congr_left ?_).trans (List.map_id es)
        intro x hx
        have hne : x.op ≠ op := fun hxop => he (List.mem_map.mpr ⟨x, hx, hxop.trans hop.symm⟩)
        simp [CsnEntry.committed, hne]
      rw [if_pos hop, hrest, CsnEntry.committed, if_pos hop]
    else
      rw [if_neg hop, ih hes, CsnEntry.committed, if_neg hop]

theorem eraseP_eq_filter {op : ι} {l : List (CsnEntry ι)} (h : (l.map CsnEntry.op).Nodup) :
    (l.eraseP fun e => e.op = op) = l.filter fun e => e.op ≠ op := by
  induction l with
  | nil => rfl
  | cons e es ih =>
    obtain ⟨he, hes⟩ := List.nodup_cons.mp h
    if hop : e.op = op then
      have hrest : ∀ x ∈ es, x.op ≠ op := fun x hx hxop => he (List.mem_map.mpr ⟨x, hx, hxop.trans hop.symm⟩)
      rw [eraseP_cons_of_pos (by simpa using hop), filter_cons_of_neg (by simpa using hop)]
      exact (List.filter_eq_self.mpr fun x hx => by simpa using hrest x hx).symm
    else
      rw [eraseP_cons_of_neg (by simpa using hop), filter_cons_of_pos (by simpa using hop), ih hes]

variable {s s' : PendingList ι}

theorem PclInv.queue {check : Bool} {op : ι} {csn : Csn} (h : PclInv s)
    (hs : slapQueueCsn check s op csn = some s') : PclInv s' := by
  unfold slapQueueCsn at hs
  split at hs
  · split at hs
    · cases hs
    · cases hs
      exact h
  · rename_i hfind
    split at hs
    · cases hs
    · cases hs
      have hnot : ∀ e ∈ s.entries, e.op ≠ op := by simpa using hfind
      have hperm := insertBefore_perm (⟨op, csn, csn.sid, .pending⟩ : CsnEntry ι) s.entries
      refine ⟨?_, ?_, ?_, insertBefore_ordered h.ordered⟩
      · refine (hperm.map CsnEntry.op).nodup_iff.mpr (List.nodup_cons.mpr ⟨?_, h.ops⟩)
        intro hmem
        obtain ⟨e, he, heop⟩ := List.mem_map.mp hmem
        exact hnot e he heop
      · intro e he
        cases List.mem_cons.mp (hperm.mem_iff.mp he) with
        | inl he => rw [he]
        | inr he => exact h.sids e he
      · intro op' c
        dsimp only
        if hop : op' = op then
          rw [hop, update_self]
          constructor
          · intro hc
            cases hc
            exact ⟨_, hperm.mem_iff.mpr mem_cons_self, rfl, rfl⟩
          · intro ⟨e, he, heop, hec⟩
            cases List.mem_cons.mp (hperm.mem_iff.mp he) with
            | inl he => rw [← hec, he]
            | inr he => exact absurd heop (hnot e he)
        else
          rw [update_of_ne hop, h.own]
          constructor
          · intro ⟨e, he, hrest⟩
            exact ⟨e, hperm.mem_iff.mpr (mem_cons_of_mem _ he), hrest⟩
          · intro ⟨e, he, heop, hec⟩
            cases List.mem_cons.mp (hperm.mem_iff.mp he) with
            | inl he =>
              rw [he] at heop
              exact absurd heop.symm hop
            | inr he => exact ⟨e, he, heop, hec⟩

theorem PclInv.marked (h : PclInv s) (op : ι) : PclInv { s with entries := markCommit op s.entries } := by
  have heq := @markCommit_eq_map _ _ op s.entries h.ops
  refine ⟨?_, ?_, ?_, ?_⟩
  · rw [heq, List.map_map]
    simpa [comp_def] using h.ops
  · intro e he
    rw [heq] at he
    obtain ⟨x, hx, rfl⟩ := List.mem_map.mp he
    simpa using h.sids x hx
  · intro op' c
    rw [heq, h.own]
    simp
  · rw [heq, pairwise_map]
    refine h.ordered.imp ?_
    intro a b hab hsid
    simpa using hab (by simpa using hsid)

theorem slapGetCommitCsn_state {op : ι} {want : Bool} {max : Option Csn}
    (hs : slapGetCommitCsn s op want = some (s', max)) : s' = { s with entries := markCommit op s.entries } := by
  unfold slapGetCommitCsn at hs
  simp only at hs
  split at hs
  · cases hs
  · split at hs
    · obtain ⟨m, -, hm⟩ := Option.map_eq_some_iff.mp hs
      exact (Prod.ext_iff.mp hm).1.symm
    · cases hs
      rfl

theorem PclInv.graduate {op : ι} {state : Option CsnState} (h : PclInv s)
    (hs : slapGraduateCommitCsn s op = some (s', state)) : PclInv s' := by
  unfold slapGraduateCommitCsn at hs
  split at hs
  · cases hs
    exact h
  · rename_i e hfind
    split at hs
    · cases hs
    · cases hs
      have heq := @eraseP_eq_filter _ _ op s.entries h.ops
      have hsub : (s.entries.eraseP fun e => e.op = op).Sublist s.entries := eraseP_sublist
      refine ⟨h.ops.sublist (hsub.map _), fun x hx => h.sids x (hsub.subset hx), ?_, h.ordered.sublist hsub⟩
      intro op' c
      dsimp only
      rw [heq]
      if hop : op' = op then
        rw [hop, update_self]
        constructor
        · intro hc
          cases hc
        · intro ⟨x, hx, hxop, _⟩
          exact absurd hxop (by simpa using (List.mem_filter.mp hx).2)
      else
        rw [update_of_ne hop, h.own]
        constructor
        · intro ⟨x, hx, hxop, hxc⟩
          exact ⟨x, List.mem_filter.mpr ⟨hx, by simpa [hxop] using hop⟩, hxop, hxc⟩
        · intro ⟨x, hx, hrest⟩
          exact ⟨x, (List.mem_filter.mp hx).1, hrest⟩

theorem PclInv.step {check : Bool} {s s' : PendingList ι} {a : CsnAct ι} (h : PclInv s) (hs : PclStep check s a s') :
    PclInv s' := by
  cases hs with
  | queue hs => exact h.queue hs
  | commit hs =>
    rw [slapGetCommitCsn_state hs]
    exact h.marked _
  | graduate hs => exact h.graduate hs

theorem PclInv.run {check : Bool} {s : PendingList ι} {as : List (CsnAct ι)}
    (h : Steps (PclStep check) PendingList.empty as s) : PclInv s :=
  h.invariant PclInv (fun _ _ _ hi hs => hi.step hs) PclInv.empty

/-! ## The CSN to publish -/

theorem commitScan_spec {op : ι} {sid : Nat} {l : List (CsnEntry ι)} {committed : Option Csn}
    (h : l.Pairwise Earlier) (hc : ∀ c, committed = some c → ∀ e ∈ l, e.sid = sid → c.ts ≤ e.csn.ts) :
    ∃ max, commitScan op sid l committed = some max ∧ ∀ c, max = some c →
      (committed = some c ∨ ∃ e ∈ l, e.csn = c ∧ e.sid = sid) ∧
      (∀ e ∈ l, e.sid = sid → e.csn.ts < c.ts → e.state = .commit) ∧
      ∀ e ∈ l, e.sid = sid → e.op = op → c.ts ≤ e.csn.ts := by
  induction l generalizing committed with
  | nil => exact ⟨committed, rfl, fun c hm => ⟨.inl hm, by simp, by simp⟩⟩
  | cons e es ih =>
    obtain ⟨he, hes⟩ := List.pairwise_cons.mp h
    unfold commitScan
    if hsid : e.sid = sid then
      have hassert : (committed.any fun c => slapCsnCompareTs e.csn.text c.text = .lt) = false := by
        cases committed with
        | none => rfl
        | some c =>
          have hle := hc c rfl e mem_cons_self hsid
          simp only [Option.any_some, decide_eq_false_iff_not]
          exact fun hlt => absurd (Csn.compareTs_lt.mp hlt) hle.not_gt
      rw [if_pos hsid, hassert, if_neg (by simp)]
      have hall : ∀ x ∈ e :: es, x.sid = sid → e.csn.ts ≤ x.csn.ts := by
        intro x hx hxs
        cases List.mem_cons.mp hx with
        | inl hx => rw [hx]
        | inr hx => exact he x hx (hsid.trans hxs.symm)
      if hstate : e.state = .commit then
        rw [if_pos hstate]
        if hop : e.op = op then
          rw [if_pos hop]
          refine ⟨some e.csn, rfl, ?_⟩
          intro c hm
          cases hm
          refine ⟨.inr ⟨e, mem_cons_self, rfl, hsid⟩, ?_, fun x hx hxs _ => hall x hx hxs⟩
          intro x hx hxs hlt
          exact absurd hlt (hall x hx hxs).not_gt
        else
          rw [if_neg hop]
          obtain ⟨max, hscan, hmax⟩ := @ih (some e.csn) hes (by
            intro c hm
            cases hm
            exact fun x hx hxs => hall x (mem_cons_of_mem _ hx) hxs)
          refine ⟨max, hscan, ?_⟩
          intro c hm
          obtain ⟨hfrom, hlt, hown⟩ := hmax c hm
          refine ⟨.inr ?_, ?_, ?_⟩
          · cases hfrom with
            | inl hfrom =>
              cases hfrom
              exact ⟨e, mem_cons_self, rfl, hsid⟩
            | inr hfrom =>
              obtain ⟨x, hx, hrest⟩ := hfrom
              exact ⟨x, mem_cons_of_mem _ hx, hrest⟩
          · exact List.forall_mem_cons.mpr ⟨fun _ _ => hstate, hlt⟩
          · exact List.forall_mem_cons.mpr ⟨fun _ heop => absurd heop hop, hown⟩
      else
        rw [if_neg hstate]
        refine ⟨committed, rfl, ?_⟩
        intro c hm
        refine ⟨.inl hm, ?_, fun x hx hxs _ => hc c hm x hx hxs⟩
        intro x hx hxs hlt
        exact absurd hlt (hc c hm x hx hxs).not_gt
    else
      rw [if_neg hsid]
      obtain ⟨max, hscan, hmax⟩ := @ih committed hes fun c hm x hx => hc c hm x (mem_cons_of_mem _ hx)
      refine ⟨max, hscan, ?_⟩
      intro c hm
      obtain ⟨hfrom, hlt, hown⟩ := hmax c hm
      refine ⟨?_, List.forall_mem_cons.mpr ⟨fun hes _ => absurd hes hsid, hlt⟩,
        List.forall_mem_cons.mpr ⟨fun hes _ => absurd hes hsid, hown⟩⟩
      cases hfrom with
      | inl hfrom => exact .inl hfrom
      | inr hfrom =>
        obtain ⟨x, hx, hrest⟩ := hfrom
        exact .inr ⟨x, mem_cons_of_mem _ hx, hrest⟩

theorem slapGetCommitCsn_spec (h : PclInv s) (op : ι) (want : Bool) :
    ∃ s' max, slapGetCommitCsn s op want = some (s', max) ∧ ∀ c, max = some c →
      ∃ own ∈ s'.entries, own.op = op ∧ s.ocsn op = some own.csn ∧ c.sid = own.csn.sid ∧ c.ts ≤ own.csn.ts ∧
        ∀ e ∈ s'.entries, e.csn.sid = c.sid → e.csn.ts < c.ts → e.state = .commit := by
  have hm := h.marked op
  have hassert : ((s.entries.find? fun e => e.op = op).any fun e =>
      ((s.ocsn op).map Csn.sid).any fun sid => sid ≠ e.sid) = false := by
    cases hfind : s.entries.find? fun e => e.op = op with
    | none => rfl
    | some e =>
      have hmem := List.mem_of_find?_eq_some hfind
      have hop : e.op = op := by simpa using List.find?_some hfind
      have hown := (h.own op e.csn).mpr ⟨e, hmem, hop, rfl⟩
      simp [hown, h.sids e hmem]
  unfold slapGetCommitCsn
  simp only [hassert, Bool.false_eq_true, if_false]
  cases want with
  | false => exact ⟨_, none, rfl, by simp⟩
  | true =>
    cases hown : s.ocsn op with
    | none => exact ⟨_, none, rfl, by simp⟩
    | some own =>
      obtain ⟨e, he, hop, hec⟩ := (hm.own op own).mp hown
      obtain ⟨max, hscan, hmax⟩ := @commitScan_spec _ _ op own.sid _ none hm.ordered (by simp)
      simp only [Option.map_some, hscan]
      refine ⟨_, max, rfl, ?_⟩
      intro c hcm
      obtain ⟨hfrom, hlt, hle⟩ := hmax c hcm
      have hes : e.sid = own.sid := by rw [hm.sids e he, hec]
      have hcs : c.sid = own.sid := by
        cases hfrom with
        | inl hfrom => cases hfrom
        | inr hfrom =>
          obtain ⟨x, hx, hxc, hxs⟩ := hfrom
          rw [← hxc, ← hm.sids x hx, hxs]
      refine ⟨e, he, hop, by rw [hec], by rw [hcs, hec], hle e he hes hop, ?_⟩
      intro x hx hxs
      exact hlt x hx (by rw [hm.sids x hx, hxs, hcs])

/-- In every run, of any operations in any order: the list is ordered for each server, the ordering assertion holds, and
a published CSN is of the operation's server, not newer than its own CSN, and everything older is committed. -/
theorem commit_csn_covers {check : Bool} {s : PendingList ι} {as : List (CsnAct ι)}
    (h : Steps (PclStep check) PendingList.empty as s) :
    s.entries.Pairwise (fun a b => a.csn.sid = b.csn.sid → a.csn.ts ≤ b.csn.ts) ∧
    ∀ op want, ∃ s' max, slapGetCommitCsn s op want = some (s', max) ∧ ∀ c, max = some c →
      ∃ own ∈ s'.entries, own.op = op ∧ s.ocsn op = some own.csn ∧ c.sid = own.csn.sid ∧ c.ts ≤ own.csn.ts ∧
        ∀ e ∈ s'.entries, e.csn.sid = c.sid → e.csn.ts < c.ts → e.state = .commit := by
  have hinv := PclInv.run h
  refine ⟨?_, fun op want => slapGetCommitCsn_spec hinv op want⟩
  refine hinv.ordered.imp_of_mem ?_
  intro a b ha hb hab hsid
  exact hab (by rw [hinv.sids a ha, hinv.sids b hb, hsid])

theorem sharedCsn_format : csnFormat "20200101000000.000000Z#000000#001#000000".toList = true := by
  decide

def sharedCsn : Csn := ⟨"20200101000000.000000Z#000000#001#000000".toList, sharedCsn_format⟩

def sharedList : PendingList Bool where
  entries := [⟨false, sharedCsn, 1, .pending⟩, ⟨true, sharedCsn, 1, .pending⟩]
  ocsn := Function.update (Function.update (fun _ => none) false (some sharedCsn)) true (some sharedCsn)

theorem sharedList_run (check : Bool) :
    Steps (PclStep check) PendingList.empty [.queue false sharedCsn, .queue true sharedCsn] sharedList :=
  .cons (.queue rfl) (.cons (.queue rfl) .refl)

theorem commit_csn_covers_sharedList :
    sharedList.entries.Pairwise fun a b => a.csn.sid = b.csn.sid → a.csn.ts ≤ b.csn.ts :=
  (commit_csn_covers (sharedList_run false)).1

/-- The first one commits, and its CSN is published while the entry of the other, with the same CSN, is pending. -/
theorem equal_csn_not_committed :
    ¬ ∀ (s s' : PendingList Bool) (as : List (CsnAct Bool)) (op : Bool) (c : Csn),
      Steps (PclStep false) PendingList.empty as s → slapGetCommitCsn s op true = some (s', some c) →
      ∀ e ∈ s'.entries, e.csn.sid = c.sid → e.csn.ts ≤ c.ts → e.state = .commit := by
  intro hall
  have hget : slapGetCommitCsn sharedList false true =
      some (⟨[⟨false, sharedCsn, 1, .commit⟩, ⟨true, sharedCsn, 1, .pending⟩], sharedList.ocsn⟩, some sharedCsn) := rfl
  have hstate := hall _ _ _ false sharedCsn (sharedList_run false) hget ⟨true, sharedCsn, 1, .pending⟩ (by simp) rfl (le_refl _)
  cases hstate

end Sync
end ReOpenLDAP
