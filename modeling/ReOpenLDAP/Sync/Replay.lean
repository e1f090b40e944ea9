import ReOpenLDAP.Sync.SessionLog

/-!
# Sync.Replay

What a consumer is told from the session log instead of a present phase.
-/

namespace ReOpenLDAP
namespace Sync

open SyncCookie List Function

variable {ι υ : Type}

/-- Drops the consumer's CSNs of servers that the provider does not know; `i` counts those that stay. -/
def dropUnknown (ctxcsn : List (Nat × Csn)) : Nat → List (Nat × Csn) → List (Nat × Csn)
  | _, [] => []
  | i, k :: ks =>
    match (ctxcsn.drop i).find? fun c => k.1 ≤ c.1 with
    | some c => if k.1 = c.1 then k :: dropUnknown ctxcsn (i + 1) ks else dropUnknown ctxcsn i ks
    | none => dropUnknown ctxcsn i ks

def findPivot : Option (Nat × Csn) → List (Nat × Csn) → Option (Nat × Csn)
  | pivot, [] => pivot
  | none, k :: ks => findPivot (some k) ks
  | some pivot, k :: ks =>
    if slapCsnCompareTs pivot.2.text k.2.text = .gt then findPivot (some k) ks else findPivot (some pivot) ks

def newEnough (pivot : Nat × Csn) : List (Nat × Csn) → Bool
  | [] => true
  | c :: cs =>
    if pivot.1 < c.1 then true
    else if pivot.1 = c.1 then slapCsnCompareTs pivot.2.text c.2.text ≠ .lt
    else newEnough pivot cs

def compares (o : Ordering) (k c : Nat × Csn) : Bool := k.1 = c.1 ∧ slapCsnCompareTs k.2.text c.2.text = o

/-- `syncprov_op_search` with a consumer's cookie and the provider's context CSNs: the CSNs it passes to
`syncprov_playlog`, if `do_play` is set. -/
def opSearch (serverId : Nat) (dirty : Bool) (sl : SessionLog υ) (consumer ctxcsn : List (Nat × Csn)) :
    Option (List (Nat × Csn)) :=
  let kept := dropUnknown ctxcsn 0 consumer
  if kept.any fun k => k.1 = serverId && ctxcsn.any (compares .gt k) then none
  else if kept.length ≠ ctxcsn.length then none
  else if !(kept.any fun k => ctxcsn.any (compares .lt k)) && !dirty then none
  else
    match findPivot none kept with
    | none => none
    | some pivot => if 0 < sl.num ∧ newEnough pivot sl.cookie.csns = true then some kept else none

namespace Player

variable [DecidableEq υ]

def strip (p : Player υ) : Nat → (Int → Option υ) → (Int → Option υ)
  | 0, uuids => uuids
  | k + 1, uuids =>
    let uuids := strip p k uuids
    let slot : Int := p.num - 1 - k
    if (List.range p.ndel).any (fun j => uuids j = uuids slot) ∨
        (List.range k).any (fun j => uuids (p.num - 1 - (j : Nat)) = uuids slot) then
      Function.update uuids slot none
    else uuids

/-- The slots behind the deletes, up to `num`: an entry that is not found counts as deleted too. -/
def collect (found : υ → Bool) : Nat → Nat → Nat → (Int → Option υ) → Nat × (Int → Option υ)
  | 0, _, ndel, uuids => (ndel, uuids)
  | k + 1, i, ndel, uuids =>
    match uuids i with
    | some u =>
      if found u then collect found k (i + 1) ndel uuids
      else collect found k (i + 1) (ndel + 1) (Function.update uuids ndel (some u))
    | none => collect found k (i + 1) ndel uuids

/-- What is sent behind the loop. `found` tells whether the search for a UUID finds an entry. -/
def report (p : Player υ) (found : υ → Bool) : List υ :=
  let uuids : Int → Option υ := fun k => if p.ndel ≤ k ∧ k < p.num - p.nmods then none else p.uuids k
  let uuids := p.strip p.nmods uuids
  let r := collect found (p.num - p.ndel) p.ndel p.ndel uuids
  (List.range r.1).filterMap fun k : Nat => r.2 k

end Player

def logged : List (SlogAct ι υ) → List (SlogEntry υ)
  | [] => []
  | .add _ e :: acts => e :: logged acts
  | _ :: acts => logged acts

def Missed (consumer ctxcsn : List (Nat × Csn)) (e : SlogEntry υ) : Prop :=
  e.tag = .delete ∧ (∀ c, (e.sid, c) ∈ consumer → c.ts < e.csn.ts) ∧ ∃ c, (e.sid, c) ∈ ctxcsn ∧ e.csn.ts ≤ c.ts

namespace Player

variable [DecidableEq υ] {p : Player υ}

theorem strip_low (p : Player υ) (n : Nat) (uuids : Int → Option υ) {k : Int} (hk : k < p.num - n) :
    p.strip n uuids k = uuids k := by
  induction n with
  | zero => rfl
  | succ n ih =>
    have hne : k ≠ p.num - 1 - n := by omega
    unfold strip
    dsimp only
    split_ifs
    · rw [update_of_ne hne]
      exact ih (by omega)
    · exact ih (by omega)

omit [DecidableEq υ] in
theorem collect_low (found : υ → Bool) (n i ndel : Nat) (uuids : Int → Option υ) :
    ndel ≤ (collect found n i ndel uuids).1 ∧ ∀ k : Int, k < ndel → (collect found n i ndel uuids).2 k = uuids k := by
  induction n generalizing i ndel uuids with
  | zero => exact ⟨le_refl _, fun _ _ => rfl⟩
  | succ n ih =>
    unfold collect
    split
    · split_ifs
      · exact ih (i + 1) ndel uuids
      · rename_i u _ _
        obtain ⟨hle, hkeep⟩ := ih (i + 1) (ndel + 1) (Function.update uuids ndel (some u))
        refine ⟨by omega, ?_⟩
        intro k hk
        rw [hkeep k (by omega), update_of_ne (by omega)]
    · exact ih (i + 1) ndel uuids

theorem mem_report (hslots : p.ndel + p.nmods ≤ p.num) (found : υ → Bool) {k : Nat} {u : υ} (hk : k < p.ndel)
    (hu : p.uuids k = some u) : u ∈ p.report found := by
  unfold report
  dsimp only
  obtain ⟨hle, hkeep⟩ := collect_low found (p.num - p.ndel) p.ndel p.ndel
    (p.strip p.nmods fun k => if p.ndel ≤ k ∧ k < p.num - p.nmods then none else p.uuids k)
  refine List.mem_filterMap.mpr ⟨k, List.mem_range.mpr (by omega), ?_⟩
  rw [hkeep k (by omega), p.strip_low _ _ (by omega), if_neg (by omega), hu]

end Player

/-! ## The consumer's cookie -/

section

variable {consumer ctxcsn : List (Nat × Csn)}

theorem dropUnknown_sublist (i : Nat) : (dropUnknown ctxcsn i consumer).Sublist consumer := by
  induction consumer generalizing i with
  | nil => exact List.Sublist.refl _
  | cons k ks ih =>
    unfold dropUnknown
    split
    · split_ifs
      · exact (ih (i + 1)).cons_cons k
      · exact (ih i).cons k
    · exact (ih i).cons k

theorem dropUnknown_known (i : Nat) : ∀ k ∈ dropUnknown ctxcsn i consumer, k.1 ∈ ctxcsn.map Prod.fst := by
  induction consumer generalizing i with
  | nil =>
    intro k hk
    cases hk
  | cons k ks ih =>
    unfold dropUnknown
    split
    · rename_i c hfind
      split_ifs with heq
      · intro k' hk'
        cases List.mem_cons.mp hk' with
        | inl h => exact h ▸ List.mem_map.mpr ⟨c, mem_of_mem_drop (List.mem_of_find?_eq_some hfind), heq.symm⟩
        | inr h => exact ih (i + 1) k' h
      · exact ih i
    · exact ih i

theorem dropUnknown_all (hc : DupSort.SortedBy Prod.fst consumer)
    (hlen : (dropUnknown ctxcsn 0 consumer).length = ctxcsn.length) {sid : Nat} (hsid : sid ∈ ctxcsn.map Prod.fst) :
    ∃ c, (sid, c) ∈ dropUnknown ctxcsn 0 consumer := by
  have hnd : ((dropUnknown ctxcsn 0 consumer).map Prod.fst).Nodup := by
    have hpair := List.Pairwise.sublist (@dropUnknown_sublist consumer ctxcsn 0) hc
    exact List.pairwise_map.mpr (hpair.imp fun hab => hab.ne)
  have hsub : (dropUnknown ctxcsn 0 consumer).map Prod.fst ⊆ ctxcsn.map Prod.fst := by
    intro x hx
    obtain ⟨k, hk, rfl⟩ := List.mem_map.mp hx
    exact dropUnknown_known 0 k hk
  have hperm := (subperm_of_subset hnd hsub).perm_of_length_le (by rw [length_map, length_map, hlen])
  obtain ⟨k, hk, hks⟩ := List.mem_map.mp (hperm.mem_iff.mpr hsid)
  exact ⟨k.2, hks ▸ hk⟩

theorem opSearch_some {serverId : Nat} {dirty : Bool} {sl : SessionLog υ} {kept : List (Nat × Csn)}
    (h : opSearch serverId dirty sl consumer ctxcsn = some kept) :
    kept = dropUnknown ctxcsn 0 consumer ∧ kept.length = ctxcsn.length ∧ 0 < sl.num := by
  unfold opSearch at h
  dsimp only at h
  split_ifs at h with h₁ h₂ h₃
  split at h
  · cases h
  · split_ifs at h with h₄
    cases h
    exact ⟨rfl, not_not.mp h₂, h₄.1⟩

theorem Missed.takes {e : SlogEntry υ} {p : Player υ} (h : Missed consumer ctxcsn e)
    (hctx : DupSort.SortedBy Prod.fst ctxcsn) (hsub : p.consumer.Sublist consumer) (hx : p.ctxcsn = ctxcsn) :
    p.tooOld e = false ∧ p.tooNew e = false ∧ p.takes e = true := by
  obtain ⟨htag, hnew, c, hc, hle⟩ := h
  have hold : p.tooOld e = false := by
    unfold Player.tooOld
    split
    · rename_i k hfind
      have hsid : k.1 = e.sid := by simpa using List.find?_some hfind
      have hk : (e.sid, k.2) ∈ consumer := hsub.mem (hsid ▸ List.mem_of_find?_eq_some hfind)
      simp [Csn.compareTs_gt.mpr (hnew k.2 hk)]
    · rfl
  have hnot : p.tooNew e = false := by
    unfold Player.tooNew
    rw [hx]
    split
    · rename_i k hfind
      have hsid : k.1 = e.sid := by simpa using List.find?_some hfind
      have heq := hctx.eq_of_key (List.mem_of_find?_eq_some hfind) hc hsid
      rw [heq]
      have : ¬ slapCsnCompareTs e.csn.text c.text = .gt := fun hgt => absurd (Csn.compareTs_gt.mp hgt) (not_lt.mpr hle)
      simp [this]
    · rfl
  refine ⟨hold, hnot, ?_⟩
  unfold Player.takes
  rw [hold, hnot, htag]
  decide

end

/-- The steps that lose no delete. A log with deletes is not wiped; and a record that is too new for a player, where its
loop ends, is newer than the deletes this player has to copy. -/
def KeepsDeletes (s : Playing ι υ) : SlogAct ι υ → Prop
  | .add _ e => ∀ id p, s.players id = some p → p.phase ≠ .done → p.tooOld e = false → p.tooNew e = true →
      ∀ l, CellChain s.log.cells s.log.head l → ∀ x ∈ l, p.takes x.2 = true → x.2.tag = .delete → x.2.csn.ts < e.csn.ts
  | .wipe => ∀ l, CellChain s.log.cells s.log.head l → ∀ x ∈ l, x.2.tag ≠ .delete
  | _ => True

/-- A search for which the log is complete: for every server, not only for the pivot, nothing newer than the consumer's
CSN has been dropped; and no record that is too new comes before a delete. -/
structure Complete (sl : SessionLog υ) (consumer kept ctxcsn : List (Nat × Csn)) : Prop where
  dropped : ∀ sid c, sl.cookie.at? sid = some c → ∀ k, (sid, k) ∈ consumer → c.ts ≤ k.ts
  newest : ∀ l, CellChain sl.cells sl.head l → ∀ x ∈ l, (newPlayer 0 kept ctxcsn).tooOld x.2 = false →
    (newPlayer 0 kept ctxcsn).tooNew x.2 = true → ∀ y ∈ l, (newPlayer 0 kept ctxcsn).takes y.2 = true →
    y.2.tag = .delete → y.2.csn.ts < x.2.csn.ts

/-- The deletes so far are in the log, or the cookie has their servers with newer CSNs. -/
def Remembers (s : Playing ι υ) (es : List (SlogEntry υ)) : Prop :=
  ∃ l, PlayInv s l ∧ ∀ e ∈ es, e.tag = .delete → (∃ a, (a, e) ∈ l) ∨ SessionLog.Covers s.log.cookie e

section

variable [DecidableEq ι] {s s' : Playing ι υ}

theorem Remembers.step {a : SlogAct ι υ} {es : List (SlogEntry υ)} (h : Remembers s es) (hok : Harmless s a)
    (hkeep : KeepsDeletes s a) (hstep : SlogStep s a s') : Remembers s' (es ++ logged [a]) := by
  obtain ⟨l, hinv, hes⟩ := h
  cases hstep with
  | @add sl fuel n e hn he hrun =>
    obtain ⟨u, w, dropped, kept, hadd⟩ := SessionLog.addSlog_run hinv.log hn he hinv.size hrun
    refine ⟨kept, hinv.add hok hadd, ?_⟩
    have hwhole : ∀ e', (∃ a, (a, e') ∈ u ++ (n, e) :: w) → (∃ a, (a, e') ∈ kept) ∨ SessionLog.Covers sl.cookie e' := by
      intro e' ⟨a, ha⟩
      rw [hadd.whole] at ha
      cases List.mem_append.mp ha with
      | inl hd => exact .inr (hadd.covers _ hd)
      | inr hk => exact .inl ⟨a, hk⟩
    intro e' he' htag
    cases List.mem_append.mp he' with
    | inl hold =>
      cases hes e' hold htag with
      | inl hin =>
        obtain ⟨a, ha⟩ := hin
        rw [hadd.split] at ha
        refine hwhole e' ⟨a, ?_⟩
        cases List.mem_append.mp ha with
        | inl hu => exact mem_append_left _ hu
        | inr hw => exact mem_append_right _ (mem_cons_of_mem _ hw)
      | inr hcov => exact .inr (hcov.advance hadd.advanced)
    | inr hnew =>
      have heq : e' = e := by simpa [logged] using hnew
      exact hwhole e' ⟨n, by rw [heq]; simp⟩
  | wipe hrun =>
    refine ⟨[], hinv.wipe hok hrun, ?_⟩
    obtain ⟨-, -, -, -, hcookie⟩ := SessionLog.wipeSlog_run hinv.log hrun hok
    intro e he htag
    rw [mem_append] at he
    cases hes e (he.resolve_right (by simp [logged])) htag with
    | inl hin =>
      obtain ⟨a, ha⟩ := hin
      exact absurd htag (hkeep l hinv.log.chain _ ha)
    | inr hcov => exact .inr (hcookie ▸ hcov)
  | skip _ => exact ⟨l, hinv, fun e he => hes e (by simpa [logged] using he)⟩
  | play _ hnone => exact ⟨l, hinv.play hnone, fun e he => hes e (by simpa [logged] using he)⟩
  | round hp hround => exact ⟨l, hinv.round hp hround, fun e he => hes e (by simpa [logged] using he)⟩
  | finish hp _ => exact ⟨l, hinv.finish hp, fun e he => hes e (by simpa [logged] using he)⟩

omit [DecidableEq ι] in
theorem logged_cons (a : SlogAct ι υ) (acts : List (SlogAct ι υ)) : logged (a :: acts) = logged [a] ++ logged acts := by
  cases a <;> rfl

theorem Remembers.run {acts : List (SlogAct ι υ)} {es : List (SlogEntry υ)} (h : Remembers s es)
    (hrun : Steps (fun s a s' => (Harmless s a ∧ KeepsDeletes s a) ∧ SlogStep s a s') s acts s') :
    Remembers s' (es ++ logged acts) := by
  induction hrun generalizing es with
  | refl => simpa [logged] using h
  | @cons s s1 s2 a acts hstep _ ih =>
    rw [logged_cons, ← append_assoc]
    exact ih (h.step hstep.1.1 hstep.1.2 hstep.2)

end

/-- The deletes `ds` are copied or ahead of the player, and no record that ends its loop comes before them. -/
structure Tracked (ds : List (SlogEntry υ)) (l : List (Nat × SlogEntry υ)) (p : Player υ) : Prop where
  ahead : ∃ seen rest, l = seen ++ rest ∧ At seen rest p.phase ∧
    p.ndel + p.nmods + rest.countP (fun x => p.takes x.2) ≤ p.num ∧
    ∀ d ∈ ds, (∃ k : Nat, k < p.ndel ∧ p.uuids k = some d.uuid) ∨ ∃ a, (a, d) ∈ rest
  mem : ∀ d ∈ ds, p.takes d = true ∧ d.tag = .delete ∧ ∃ a, (a, d) ∈ l
  order : p.phase ≠ .done → ∀ x ∈ l, p.tooOld x.2 = false → p.tooNew x.2 = true → ∀ d ∈ ds, d.csn.ts < x.2.csn.ts

section

variable {sl : SessionLog υ} {l u w : List (Nat × SlogEntry υ)} {p : Player υ} {n : Nat} {e : SlogEntry υ}
  {ds : List (SlogEntry υ)}

theorem visit_uuids (p : Player υ) (a : Nat) (e : SlogEntry υ) (hslot : p.takes e = true → p.ndel + p.nmods + 1 ≤ p.num) :
    p.ndel ≤ (p.visit a e).ndel ∧ (∀ k : Nat, k < p.ndel → (p.visit a e).uuids k = p.uuids k) ∧
    (p.takes e = true → e.tag = .delete → (p.visit a e).ndel = p.ndel + 1 ∧ (p.visit a e).uuids p.ndel = some e.uuid) := by
  unfold Player.takes at hslot ⊢
  unfold Player.visit
  cases hold : p.tooOld e with
  | true => simp
  | false =>
    cases hnew : p.tooNew e with
    | true => simp
    | false =>
      have hmods : e.tag ≠ .add → ∀ k : Nat, k < p.ndel → (k : Int) ≠ p.num - (p.nmods + 1 : Nat) := by
        intro htag k hk
        have := hslot (by simp [hold, hnew, htag])
        omega
      have hmod : e.tag ≠ .add → ∀ k : Nat, k < p.ndel →
          Function.update p.uuids (p.num - (p.nmods + 1 : Nat)) (some e.uuid) k = p.uuids k :=
        fun htag k hk => update_of_ne (hmods htag k hk) _ _
      have hdel : ∀ k : Nat, k < p.ndel → Function.update p.uuids p.ndel (some e.uuid) k = p.uuids k :=
        fun k hk => update_of_ne (by omega) _ _
      cases htag : e.tag with
      | delete => exact ⟨Nat.le_succ _, hdel, fun _ _ => ⟨rfl, update_self _ _ _⟩⟩
      | add => exact ⟨le_refl _, fun _ _ => rfl, fun _ h => by cases h⟩
      | modify => exact ⟨le_refl _, hmod (by simp [htag]), fun _ h => by cases h⟩
      | modrdn => exact ⟨le_refl _, hmod (by simp [htag]), fun _ h => by cases h⟩
      | extended => exact ⟨le_refl _, hmod (by simp [htag]), fun _ h => by cases h⟩

theorem sameView {p' : Player υ} (hc : p'.consumer = p.consumer) (hx : p'.ctxcsn = p.ctxcsn) :
    p'.tooOld = p.tooOld ∧ p'.tooNew = p.tooNew ∧ p'.takes = p.takes := by
  have hold : p'.tooOld = p.tooOld := by
    funext e
    unfold Player.tooOld
    rw [hc]
  have hnew : p'.tooNew = p.tooNew := by
    funext e
    unfold Player.tooNew
    rw [hx]
  exact ⟨hold, hnew, funext fun e => takes_congr hc hx e⟩

theorem Tracked.of_ahead {p' : Player υ} (h : Tracked ds l p) (hphase : p.phase ≠ .done) (hc : p'.consumer = p.consumer)
    (hx : p'.ctxcsn = p.ctxcsn) (hahead : ∃ seen rest, l = seen ++ rest ∧ At seen rest p'.phase ∧
      p'.ndel + p'.nmods + rest.countP (fun x => p.takes x.2) ≤ p'.num ∧
      ∀ d ∈ ds, (∃ k : Nat, k < p'.ndel ∧ p'.uuids k = some d.uuid) ∨ ∃ a, (a, d) ∈ rest) : Tracked ds l p' := by
  obtain ⟨hold, hnew, htakes⟩ := sameView hc hx
  refine ⟨?_, ?_, ?_⟩
  · rw [htakes]
    exact hahead
  · rw [htakes]
    exact h.mem
  · rw [hold, hnew]
    exact fun _ => h.order hphase

theorem Tracked.round {p' : Player υ} (hlog : LogInv sl l) (h : Tracked ds l p) (hround : playRound sl p = some p') :
    Tracked ds l p' := by
  obtain ⟨seen, rest, hl, hat, hslots, hds⟩ := h.ahead
  unfold playRound at hround
  have hchain := hlog.chain
  cases hphase : p.phase with
  | head =>
    rw [hphase] at hat hround
    cases hround
    rw [hl, show seen = [] from hat] at hchain
    exact h.of_ahead (by simp [hphase]) rfl rfl ⟨seen, rest, hl, at_atPtr hchain, hslots, hds⟩
  | body a =>
    rw [hphase] at hat hround
    obtain ⟨e, w, hrest⟩ := hat
    rw [hl, hrest] at hchain
    obtain ⟨m, hm, -⟩ := hchain.suffix
    dsimp only at hround
    rw [hm] at hround
    cases hround
    show Tracked ds l (p.visit a e)
    obtain ⟨hnum, hc, hx, hcount, hnext⟩ := visit_spec p a e
    rw [hrest, countP_cons] at hslots
    dsimp only at hslots
    obtain ⟨hle, hkeep, hcopy⟩ := visit_uuids p a e fun htakes => by
      rw [if_pos htakes] at hslots
      omega
    have hgot : ∀ d ∈ ds, (∃ k : Nat, k < (p.visit a e).ndel ∧ (p.visit a e).uuids k = some d.uuid) ∨ ∃ b, (b, d) ∈ w := by
      intro d hd
      obtain ⟨k, hk, hku⟩ | ⟨b, hb⟩ := hds d hd
      · exact .inl ⟨k, by omega, (hkeep k hk).trans hku⟩
      · rw [hrest] at hb
        cases List.mem_cons.mp hb with
        | inl heq =>
          obtain ⟨htakes, htag, -⟩ := h.mem d hd
          have hde : d = e := congrArg Prod.snd heq
          obtain ⟨hndel, hu⟩ := hcopy (hde ▸ htakes) (hde ▸ htag)
          exact .inl ⟨p.ndel, by omega, hde ▸ hu⟩
        | inr hb => exact .inr ⟨b, hb⟩
    refine h.of_ahead (by simp [hphase]) hc hx ?_
    obtain hnext | ⟨hdone, hold, hnew⟩ := hnext
    · refine ⟨seen ++ [(a, e)], w, by rw [hl, hrest]; simp, ?_, by omega, hgot⟩
      rw [hnext]
      exact ⟨seen, e, rfl⟩
    · refine ⟨l, [], (List.append_nil l).symm, ?_, ?_, ?_⟩
      · rw [hdone]
        rfl
      · rw [countP_nil]
        omega
      · -- the loop ends here, so nothing that has to be copied is behind
        intro d hd
        obtain hk | ⟨b, hb⟩ := hgot d hd
        · exact .inl hk
        · have hsorted := (List.pairwise_append.mp (hrest ▸ hl ▸ hlog.sorted)).2.1
          have hlt := h.order (by simp [hphase]) (a, e) (by rw [hl, hrest]; simp) hold hnew d hd
          exact absurd hlt (not_lt.mpr ((List.pairwise_cons.mp hsorted).1 (b, d) hb))
  | next a =>
    rw [hphase] at hat hround
    obtain ⟨u, e, hseen⟩ := hat
    rw [hl, hseen, append_assoc] at hchain
    obtain ⟨m, hm, hrest⟩ := hchain.suffix
    dsimp only at hround
    rw [hm] at hround
    cases hround
    exact h.of_ahead (by simp [hphase]) rfl rfl ⟨seen, rest, hl, at_atPtr hrest, hslots, hds⟩
  | done =>
    rw [hphase] at hround
    cases hround
    exact h

theorem Tracked.insert (h : Tracked ds (u ++ w) p) (hroom : p.phase ≠ .done → p.takes e = true → Room (u ++ w) p)
    (horder : p.phase ≠ .done → p.tooOld e = false → p.tooNew e = true → ∀ d ∈ ds, d.csn.ts < e.csn.ts) :
    Tracked ds (u ++ (n, e) :: w) p := by
  obtain ⟨seen, rest, hl, hat, hslots, hds⟩ := h.ahead
  obtain ⟨seen', rest', hl', hat', hcase⟩ := @At.insert _ _ _ n e _ _ _ hat hl
  have hmem : ∀ {x}, x ∈ u ++ w → x ∈ u ++ (n, e) :: w := by
    intro x hx
    rw [mem_append] at hx ⊢
    exact hx.imp id (mem_cons_of_mem _)
  refine ⟨⟨seen', rest', hl', hat', ?_, ?_⟩, ?_, ?_⟩
  · exact slots_insert hcase hslots fun hphase htakes => hroom hphase htakes seen rest hl hat
  · intro d hd
    refine (hds d hd).imp id ?_
    rintro ⟨a, ha⟩
    refine ⟨a, ?_⟩
    obtain heq | ⟨-, v, z, hrest, hrest'⟩ := hcase
    · exact heq ▸ ha
    · rw [hrest, mem_append] at ha
      rw [hrest', mem_append]
      exact ha.imp id (mem_cons_of_mem _)
  · intro d hd
    obtain ⟨htakes, htag, a, ha⟩ := h.mem d hd
    exact ⟨htakes, htag, a, hmem ha⟩
  · intro hphase x hx hold hnew d hd
    rw [mem_append, mem_cons] at hx
    rcases hx with hx | rfl | hx
    · exact h.order hphase x (mem_append_left _ hx) hold hnew d hd
    · exact horder hphase hold hnew d hd
    · exact h.order hphase x (mem_append_right _ hx) hold hnew d hd

end

section

variable [DecidableEq ι] {s s' : Playing ι υ} {ds : List (SlogEntry υ)} {id : ι}

/-- The player `id` is on its way. -/
def Follows (ds : List (SlogEntry υ)) (id : ι) (s : Playing ι υ) : Prop :=
  ∃ l p, PlayInv s l ∧ s.players id = some p ∧ Tracked ds l p

theorem Follows.step {a : SlogAct ι υ} (h : Follows ds id s) (hok : Harmless s a) (hkeep : KeepsDeletes s a)
    (hself : ∀ j, a = .finish j → j ≠ id) (hstep : SlogStep s a s') : Follows ds id s' := by
  obtain ⟨l, p, hinv, hp, htrack⟩ := h
  have hplay : s.log.playing ≠ 0 := by
    intro h0
    rw [hinv.no_players h0 id] at hp
    cases hp
  cases hstep with
  | @add sl fuel n e hn he hrun =>
    obtain ⟨u, w, dropped, kept, hadd⟩ := SessionLog.addSlog_run hinv.log hn he hinv.size hrun
    have hkept : kept = u ++ (n, e) :: w := by
      have hwhole := hadd.whole
      rw [hadd.all hplay] at hwhole
      exact hwhole.symm
    refine ⟨kept, p, hinv.add hok hadd, hp, ?_⟩
    rw [hkept]
    refine Tracked.insert (hadd.split ▸ htrack) ?_ ?_
    · intro hphase htakes
      exact hadd.split ▸ hok id p hp hphase htakes l hinv.log.chain
    · intro hphase hold hnew d hd
      obtain ⟨htakes, htag, a, ha⟩ := htrack.mem d hd
      exact hkeep id p hp hphase hold hnew l hinv.log.chain (a, d) ha htakes htag
  | wipe _ => exact absurd hok hplay
  | skip _ => exact ⟨l, p, hinv, hp, htrack⟩
  | @play j consumer ctxcsn _ hnone =>
    have hj : id ≠ j := by
      rintro rfl
      rw [hp] at hnone
      cases hnone
    exact ⟨l, p, hinv.play hnone, (update_of_ne hj _ _).trans hp, htrack⟩
  | @round j q q' hq hround =>
    refine ⟨l, ?_⟩
    if hj : id = j then
      subst hj
      rw [hp] at hq
      cases hq
      exact ⟨q', hinv.round hp hround, update_self _ _ _, htrack.round hinv.log hround⟩
    else
      exact ⟨p, hinv.round hq hround, (update_of_ne hj _ _).trans hp, htrack⟩
  | @finish j q hq _ =>
    have hj : id ≠ j := fun heq => hself j rfl heq.symm
    exact ⟨l, p, hinv.finish hq, (update_of_ne hj _ _).trans hp, htrack⟩

theorem Follows.run {acts : List (SlogAct ι υ)} (h : Follows ds id s) (hself : SlogAct.finish id ∉ acts)
    (hrun : Steps (fun s a s' => (Harmless s a ∧ KeepsDeletes s a) ∧ SlogStep s a s') s acts s') : Follows ds id s' := by
  induction hrun with
  | refl => exact h
  | @cons s s1 s2 a acts hstep _ ih =>
    obtain ⟨hfirst, hrest⟩ := not_or.mp (fun hm => hself (List.mem_cons.mpr hm))
    refine ih (h.step hstep.1.1 hstep.1.2 ?_ hstep.2) hrest
    intro j ha hj
    exact hfirst (hj ▸ ha.symm)

theorem Follows.start {es : List (SlogEntry υ)} {consumer ctxcsn kept : List (Nat × Csn)} {serverId : Nat} {dirty : Bool}
    (h : Remembers s es) (hconsumer : DupSort.SortedBy Prod.fst consumer) (hctx : DupSort.SortedBy Prod.fst ctxcsn)
    (hsearch : opSearch serverId dirty s.log consumer ctxcsn = some kept) (hok : Complete s.log consumer kept ctxcsn)
    (hstart : SlogStep s (.play id kept ctxcsn) s') :
    ∃ ds, Follows ds id s' ∧ ∀ e ∈ es, Missed consumer ctxcsn e → e ∈ ds := by
  obtain ⟨l, hinv, hes⟩ := h
  obtain ⟨hkept, hlen, hnum⟩ := opSearch_some hsearch
  have hsub : kept.Sublist consumer := hkept ▸ dropUnknown_sublist 0
  have hin : ∀ e ∈ es, Missed consumer ctxcsn e → ∃ a, (a, e) ∈ l := by
    intro e he hmiss
    obtain ⟨htag, hnew, c, hc, hle⟩ := hmiss
    cases hes e he htag with
    | inl hin => exact hin
    | inr hcov =>
      obtain ⟨c', hc', hle'⟩ := hcov
      obtain ⟨k, hk⟩ := dropUnknown_all hconsumer (hkept ▸ hlen) (List.mem_map.mpr ⟨(e.sid, c), hc, rfl⟩)
      have hkc : (e.sid, k) ∈ consumer := (dropUnknown_sublist 0).mem hk
      exact absurd (hnew k hkc) (not_lt.mpr (hle'.trans (hok.dropped e.sid c' hc' k hkc)))
  cases hstart with
  | skip h0 => exact absurd h0 (by omega)
  | play _ hnone =>
    classical
    refine ⟨(l.map Prod.snd).filter fun e => Missed consumer ctxcsn e, ⟨l, _, hinv.play hnone, update_self _ _ _, ?_⟩, ?_⟩
    · have hview : ∀ q : Player υ, q.consumer = kept → q.ctxcsn = ctxcsn →
          q.tooOld = (newPlayer 0 kept ctxcsn).tooOld ∧ q.tooNew = (newPlayer 0 kept ctxcsn).tooNew ∧
          q.takes = (newPlayer 0 kept ctxcsn).takes := fun q hc hx => sameView hc hx
      obtain ⟨hold, hnew, htakes⟩ := hview (newPlayer s.log.num.toNat kept ctxcsn) rfl rfl
      have hmem : ∀ d ∈ (l.map Prod.snd).filter fun e => Missed consumer ctxcsn e,
          (newPlayer s.log.num.toNat kept ctxcsn).takes d = true ∧ d.tag = .delete ∧ ∃ a, (a, d) ∈ l := by
        intro d hd
        obtain ⟨hdl, hmiss⟩ := List.mem_filter.mp hd
        obtain ⟨x, hx, rfl⟩ := List.mem_map.mp hdl
        have hmiss : Missed consumer ctxcsn x.2 := by simpa using hmiss
        exact ⟨(hmiss.takes hctx hsub rfl).2.2, hmiss.1, x.1, hx⟩
      refine ⟨⟨[], l, rfl, rfl, ?_, ?_⟩, hmem, ?_⟩
      · have hle := @countP_le_length _ (fun x : Nat × SlogEntry υ =>
          (newPlayer s.log.num.toNat kept ctxcsn : Player υ).takes x.2) l
        have hn := hinv.log.num
        show 0 + 0 + _ ≤ s.log.num.toNat
        omega
      · intro d hd
        exact .inr (hmem d hd).2.2
      · intro _ x hx hold' hnew' d hd
        obtain ⟨htakes', htag, a, ha⟩ := hmem d hd
        exact hok.newest l hinv.log.chain x hx (hold ▸ hold') (hnew ▸ hnew') (a, d) ha (htakes ▸ htakes') htag
    · intro e he hmiss
      obtain ⟨a, ha⟩ := hin e he hmiss
      exact List.mem_filter.mpr ⟨List.mem_map.mpr ⟨(a, e), ha, rfl⟩, by simpa using hmiss⟩

/-- A play of the log reports every delete that the consumer misses. -/
theorem playlog_reports_deletes [DecidableEq υ] {size : Int} {cookie : SyncCookie} {acts acts' : List (SlogAct ι υ)}
    {s₁ s₂ : Playing ι υ} {consumer ctxcsn kept : List (Nat × Csn)} {serverId : Nat} {dirty : Bool} {p : Player υ}
    (hsize : 0 ≤ size) (hcookie : DupSort.SortedBy Prod.fst cookie.csns)
    (hrun : Steps (fun s a s' => (Harmless s a ∧ KeepsDeletes s a) ∧ SlogStep s a s')
      ⟨SessionLog.empty size cookie, fun _ => none⟩ acts s)
    (hconsumer : DupSort.SortedBy Prod.fst consumer) (hctx : DupSort.SortedBy Prod.fst ctxcsn)
    (hsearch : opSearch serverId dirty s.log consumer ctxcsn = some kept) (hok : Complete s.log consumer kept ctxcsn)
    (hstart : SlogStep s (.play id kept ctxcsn) s₁)
    (hrun' : Steps (fun s a s' => (Harmless s a ∧ KeepsDeletes s a) ∧ SlogStep s a s') s₁ acts' s₂)
    (hself : SlogAct.finish id ∉ acts') (hp : s₂.players id = some p) (hdone : p.phase = .done) (found : υ → Bool) :
    ∀ e ∈ logged acts, Missed consumer ctxcsn e → e.uuid ∈ p.report found := by
  have hempty : Remembers (⟨SessionLog.empty size cookie, fun _ => none⟩ : Playing ι υ) [] :=
    ⟨[], PlayInv.start hsize hcookie, fun _ he => absurd he not_mem_nil⟩
  obtain ⟨ds, hfollow, hds⟩ := Follows.start (hempty.run hrun) hconsumer hctx hsearch hok hstart
  obtain ⟨l, p', -, hp', htrack⟩ := hfollow.run hself hrun'
  rw [hp] at hp'
  cases hp'
  obtain ⟨seen, rest, -, hat, hslots, hgot⟩ := htrack.ahead
  rw [hdone] at hat
  intro e he hmiss
  obtain ⟨k, hk, hku⟩ | ⟨a, ha⟩ := hgot e (hds e he hmiss)
  · exact Player.mem_report (by omega) found hk hku
  · rw [show rest = [] from hat] at ha
    cases ha

end

def oldCsn : Csn := ⟨"20200101000001.000000Z#000000#002#000000".toList, by rw [String.toList_ofList]; decide⟩

def lateCsn : Csn := ⟨"20200101000003.000000Z#000000#002#000000".toList, by rw [String.toList_ofList]; decide⟩

def modifyEntry (csn : Csn) : SlogEntry Nat := slogEntry 1 csn .modify

theorem missed_delete : Missed [(1, firstCsn), (2, oldCsn)] [(1, firstCsn), (2, lateCsn)] (deleteEntry otherCsn) := by
  have hold : oldCsn.ts < otherCsn.ts := Csn.compareTs_lt.mp (by decide)
  have hlate : otherCsn.ts < lateCsn.ts := Csn.compareTs_lt.mp (by decide)
  have hsid : (deleteEntry otherCsn).sid = 2 := by decide
  refine ⟨rfl, ?_, lateCsn, ?_, hlate.le⟩
  · intro c hc
    rw [hsid] at hc
    have hc : c = oldCsn := by simpa using hc
    exact hc ▸ hold
  · rw [hsid]
    simp

def twoServers (size : Int) : Playing Nat Nat :=
  ⟨SessionLog.empty size ⟨-1, -1, [(1, firstCsn), (2, oldCsn)]⟩, fun _ => none⟩

theorem sorted_consumer : DupSort.SortedBy Prod.fst [(1, firstCsn), (2, oldCsn)] := by simp [DupSort.SortedBy]

theorem sorted_provider : DupSort.SortedBy Prod.fst [(1, firstCsn), (2, lateCsn)] := by simp [DupSort.SortedBy]

def oneDelete : SessionLog Nat :=
  ⟨Function.update (fun _ => none) 0 (some ⟨none, deleteEntry otherCsn⟩), some 0, some 0, 1, 2, 0,
    ⟨-1, -1, [(1, firstCsn), (2, oldCsn)]⟩⟩

theorem oneDelete_complete :
    Complete oneDelete [(1, firstCsn), (2, oldCsn)] [(1, firstCsn), (2, oldCsn)] [(1, firstCsn), (2, lateCsn)] := by
  refine ⟨?_, ?_⟩
  · intro sid c hc k hk
    have hmem := (@at?_eq_some oneDelete.cookie sorted_consumer _ _).mp hc
    have heq := sorted_consumer.eq_of_key hmem hk rfl
    cases heq
    exact le_refl _
  · intro l hl x hx hold hnew
    have hone : CellChain oneDelete.cells oneDelete.head [(0, deleteEntry otherCsn)] := ⟨rfl, none, rfl, rfl⟩
    rw [hl.unique hone, mem_singleton] at hx
    have hnot := (@Missed.takes _ _ _ _ (newPlayer 0 [(1, firstCsn), (2, oldCsn)] [(1, firstCsn), (2, lateCsn)])
      missed_delete sorted_provider (List.Sublist.refl _) rfl).2.1
    rw [hx, hnot] at hnew
    cases hnew

/-- A delete is logged, and reported to a consumer that misses it. -/
theorem playlog_reports_deletes_one :
    ∃ p : Player Nat, p.phase = .done ∧ (deleteEntry otherCsn).uuid ∈ p.report fun _ => true := by
  have hadd : Harmless (twoServers 2) (.add 0 (deleteEntry otherCsn)) ∧
      KeepsDeletes (twoServers 2) (.add 0 (deleteEntry otherCsn)) := by
    refine ⟨?_, ?_⟩
    · intro id p hp
      cases hp
    · intro id p hp
      cases hp
  have hrun : Steps (fun s a s' => (Harmless s a ∧ KeepsDeletes s a) ∧ SlogStep s a s') (twoServers 2)
      [.add 0 (deleteEntry otherCsn)] ⟨oneDelete, fun _ => none⟩ :=
    .single ⟨hadd, @SlogStep.add _ _ _ _ _ 2 _ _ rfl rfl rfl⟩
  have hsearch : opSearch 9 false oneDelete [(1, firstCsn), (2, oldCsn)] [(1, firstCsn), (2, lateCsn)] =
      some [(1, firstCsn), (2, oldCsn)] := rfl
  have hround : ∀ s s' : Playing Nat Nat, SlogStep s (.round 0) s' →
      (Harmless s (.round 0) ∧ KeepsDeletes s (.round 0)) ∧ SlogStep s (.round 0) s' := fun _ _ h => ⟨⟨trivial, trivial⟩, h⟩
  refine ⟨_, ?_, playlog_reports_deletes (by decide) sorted_consumer hrun sorted_consumer sorted_provider hsearch
    oneDelete_complete (@SlogStep.play _ _ _ _ 0 _ _ (by decide) rfl)
    (.cons (hround _ _ (.round rfl rfl)) (.cons (hround _ _ (.round rfl rfl))
      (.cons (hround _ _ (.round rfl rfl)) .refl))) (by simp) rfl rfl _ _ mem_cons_self missed_delete⟩
  rfl

/-- A delete of one server is dropped, and the log is still played to a consumer that misses it: its oldest CSN is of
another server. -/
theorem playlog_hides_delete :
    ∃ (s s₁ : Playing Nat Nat) (p : Player Nat),
      Steps SlogStep (twoServers 1) [.add 0 (deleteEntry otherCsn), .add 1 (modifyEntry lateCsn)] s ∧
      opSearch 9 false s.log [(1, firstCsn), (2, oldCsn)] [(1, firstCsn), (2, lateCsn)] =
        some [(1, firstCsn), (2, oldCsn)] ∧
      Missed [(1, firstCsn), (2, oldCsn)] [(1, firstCsn), (2, lateCsn)] (deleteEntry otherCsn) ∧
      Steps SlogStep s [.play 0 [(1, firstCsn), (2, oldCsn)] [(1, firstCsn), (2, lateCsn)], .round 0, .round 0, .round 0] s₁ ∧
      s₁.players 0 = some p ∧ p.phase = .done ∧ (deleteEntry otherCsn).uuid ∉ p.report fun _ => true := by
  refine ⟨_, _, ⟨1, [(1, firstCsn), (2, oldCsn)], [(1, firstCsn), (2, lateCsn)], Function.update (fun _ => none) 0 (some 1),
    0, 1, .done⟩, .cons (@SlogStep.add _ _ _ _ _ 2 _ _ rfl rfl rfl) (.cons (@SlogStep.add _ _ _ _ _ 2 _ _ rfl rfl rfl)
    .refl), rfl, missed_delete, .cons (.play (by decide) rfl) (.cons (.round rfl rfl) (.cons (.round rfl rfl)
    (.cons (.round rfl rfl) .refl))), rfl, rfl, ?_⟩
  decide

end Sync
end ReOpenLDAP
