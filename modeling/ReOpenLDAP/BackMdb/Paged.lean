import ReOpenLDAP.Lib.Paging
import ReOpenLDAP.BackMdb.ScopeAgree

/-!
# BackMdb.Paged

A search with the paged results control, in several requests on one connection.
-/

namespace ReOpenLDAP
namespace BackMdb

open Forest Paging List Option

inductive PagedRc where
  | protocolError
  | unwillingToPerform
  | abandoned
  | other
  | loop (rc : Rc)
deriving DecidableEq

/-- `parse_paged_cookie`; `psCookie` is what the connection keeps, and the result becomes the cursor. -/
def parsePagedCookie (psCookie : Nat) (cookieval : Option Nat) : Except PagedRc Nat :=
  match cookieval with
  | none => .ok 0
  | some reqcookie =>
    if psCookie < reqcookie then .error .protocolError
    else if reqcookie < psCookie then .error .unwillingToPerform
    else .ok psCookie

/-- `mdb_idl_first`: the candidates from the cursor on, where `none` is `NOID`. -/
def mdbIdlFirst (candidates : IDL) (cursor : Nat) : Option IDL :=
  match candidates with
  | .list ids =>
    let pos := if cursor = 0 then 1 else Search.search cursor ids
    if ids.length < pos then none else some (.list (ids.drop (pos - 1)))
  | .range lo hi =>
    let cursor := if cursor < lo then lo else cursor
    if cursor = NOID then none else some (.range cursor hi)

def mdbIdlNext : IDL → IDL
  | .list ids => .list ids.tail
  | .range cursor hi => .range (cursor + 1) hi

/-- `rs->sr_nentries` entries were sent, the last one of them with the ID `lastid`. -/
structure Sending where
  sent : List DnEntry
  lastid : Nat
deriving DecidableEq

/-- What happens with the entry of a candidate; `none` at the end of the page. `shows` tells whether an entry passes the
checks of the loop and matches the filter. -/
def sendRound (shows : DnEntry → Bool) (psSize : Nat) (p : Sending) (id : Nat) (out : Outcome) : Option Sending :=
  match out with
  | .examined e => if shows e then if psSize ≤ p.sent.length then none else some ⟨p.sent ++ [e], id⟩ else some p
  | _ => some p

section

variable (s : Tables) (base : DnEntry) (scope : Scope) (shows : DnEntry → Bool) (psSize : Nat)

def pageListLoop : List Nat → List ID2 → Sending → Except Rc (Page DnEntry Nat)
  | [], _, p => .ok ⟨p.sent, none⟩
  | id :: ids, scopes, p =>
    match candidateStep s base scope scopes id with
    | .error rc => .error rc
    | .ok (scopes, out) =>
      match sendRound shows psSize p id out with
      | none => .ok ⟨p.sent, some p.lastid⟩
      | some p => pageListLoop ids scopes p

def pageRangeLoop (hi id : Nat) (scopes : List ID2) (p : Sending) : Except Rc (Page DnEntry Nat) :=
  if hi < id ∨ id = NOID then .ok ⟨p.sent, none⟩
  else
    match candidateStep s base scope scopes id with
    | .error rc => .error rc
    | .ok (scopes, .notfound) =>
      match _hy : mdbGetNextid s id with
      | none => .ok ⟨p.sent, none⟩
      | some y => pageRangeLoop hi y scopes p
    | .ok (scopes, out) =>
      match sendRound shows psSize p id out with
      | none => .ok ⟨p.sent, some p.lastid⟩
      | some p => pageRangeLoop hi (id + 1) scopes p
termination_by hi + 1 - id
decreasing_by
  · have hlt := List.find?_some _hy
    simp only [decide_eq_true_eq] at hlt
    omega
  · omega

/-- The loop from `loop_begin` on: its first round is not checked for the end of the candidates. -/
def pageLoop (ahead : IDL) : Except Rc (Page DnEntry Nat) :=
  let scopes := if scope = .base then [] else [⟨base.id, none⟩]
  match ahead with
  | .list ids => pageListLoop s base scope shows psSize (if ids = [] then [NOID] else ids) scopes ⟨[], NOID⟩
  | .range lo hi =>
    if hi < lo ∨ lo = NOID then pageListLoop s base scope shows psSize [NOID] scopes ⟨[], NOID⟩
    else pageRangeLoop s base scope shows psSize hi lo scopes ⟨[], NOID⟩

def pagedSearch (candidates : IDL) (psCookie psSize : Nat) (cookieval : Option Nat) :
    Except PagedRc (Nat × Page DnEntry Nat) :=
  if candidates.isZero then .ok (0, ⟨[], none⟩)
  else
    match parsePagedCookie psCookie cookieval with
    | .error rc => .error rc
    | .ok cursor =>
      if cursor ≠ 0 ∧ psSize = 0 then .error .abandoned
      else
        match mdbIdlFirst candidates cursor with
        | none => .error .other
        | some ahead =>
          let ahead := if ahead.first = cursor then mdbIdlNext ahead else ahead
          match pageLoop s base scope shows psSize ahead with
          | .error rc => .error (.loop rc)
          | .ok page => .ok (page.cookie.getD 0, page)

/-- The requests of a client, of which the first one has the size `sizes 0`, up to an empty cookie. -/
def pagedRun (candidates : IDL) : Nat → (Nat → Nat) → Nat → Option Nat → Option (List (Page DnEntry Nat))
  | 0, _, _, _ => none
  | fuel + 1, sizes, psCookie, cookieval =>
    match pagedSearch s base scope shows candidates psCookie (sizes 0) cookieval with
    | .error _ => none
    | .ok (psCookie, page) =>
      match page.cookie with
      | none => some [page]
      | some c => (pagedRun candidates fuel (fun k => sizes (k + 1)) psCookie (some c)).map (page :: ·)

/-- The pages give the entries of the search without pages, in its order; all but the last one have the size that was
asked for, and the last one has no cookie. -/
def PagedLossless (candidates : IDL) (sizes : Nat → Nat) : Prop :=
  ∃ out fuel pages, candidateLoop s base scope candidates = .ok out ∧
    pagedRun s base scope shows candidates fuel sizes 0 none = some pages ∧
    pages.flatMap Page.items = out.filter shows ∧
    ∀ k page, pages[k]? = some page → k + 1 < pages.length → page.items.length = sizes k

end

/-! ## A page and the loop without pages -/

section

variable {s : Tables} {base : DnEntry} {scope : Scope} {shows : DnEntry → Bool} {psSize : Nat}
variable {scopes' : List ID2} {es : List DnEntry} {p : Sending} {hi : Nat}

theorem candidateStep_id {scopes : List ID2} {id : Nat} {e : DnEntry}
    (h : candidateStep s base scope scopes id = .ok (scopes', .examined e)) : e.id = id := by
  unfold candidateStep at h
  by_cases hid : id = base.id
  · rw [if_pos hid] at h
    split at h
    · cases h
      exact hid.symm
    · cases h
  · rw [if_neg hid] at h
    split at h
    · cases h
    · split at h
      · cases h
      · cases h
      · split at h
        · cases h
        · split at h
          · cases h
          · split at h
            · cases h
            · split at h
              · cases h
                rfl
              · split at h
                · cases h
                · cases h
                  rfl

theorem sendRound_fill {id : Nat} {out : Outcome} (hid : ∀ e, out = .examined e → e.id = id) :
    fillFrom DnEntry.id psSize p.sent p.lastid ((out.entries ++ es).filter shows) =
      match sendRound shows psSize p id out with
      | none => ⟨p.sent, some p.lastid⟩
      | some p => fillFrom DnEntry.id psSize p.sent p.lastid (es.filter shows) := by
  cases out with
  | skipped => rfl
  | notfound => rfl
  | examined e =>
    unfold sendRound Outcome.entries
    by_cases hs : shows e = true
    · have hcons : (([e] ++ es).filter shows) = e :: es.filter shows := filter_cons_of_pos hs
      rw [hcons, fillFrom, hid e rfl]
      by_cases hfull : psSize ≤ p.sent.length
      · simp only [hs, if_true, if_pos hfull]
      · simp only [hs, if_true, if_neg hfull]
    · have hcons : (([e] ++ es).filter shows) = es.filter shows := filter_cons_of_neg hs
      rw [hcons]
      simp only [hs]
      rfl

/-- The rest of the loop after one candidate, with pages and without. -/
theorem round_ok {rest : Except Rc (List DnEntry)} {next : Sending → Except Rc (Page DnEntry Nat)} {id : Nat} {out : Outcome}
    (hid : ∀ e, out = .examined e → e.id = id) (h : rest.map (out.entries ++ ·) = .ok es)
    (ih : ∀ {es}, rest = .ok es → ∀ p, next p = .ok (fillFrom DnEntry.id psSize p.sent p.lastid (es.filter shows))) (p : Sending) :
    (match sendRound shows psSize p id out with
      | none => .ok ⟨p.sent, some p.lastid⟩
      | some p => next p) = Except.ok (fillFrom DnEntry.id psSize p.sent p.lastid (es.filter shows)) := by
  cases hrest : rest with
  | error rc =>
    rw [hrest] at h
    cases h
  | ok es' =>
    rw [hrest] at h
    obtain rfl := Except.ok.inj h
    rw [sendRound_fill hid]
    cases sendRound shows psSize p id out with
    | none => rfl
    | some p' => exact ih hrest p'

theorem round_last (p : Sending) (id : Nat) {out : Outcome} {rest : Except Rc (List DnEntry)}
    {next : Sending → Except Rc (Page DnEntry Nat)} {page : Page DnEntry Nat} (hlast : page.cookie = none) (ih : ∀ {p}, next p = .ok page → ∃ es, rest = .ok es)
    (h : (match sendRound shows psSize p id out with
      | none => .ok ⟨p.sent, some p.lastid⟩
      | some p => next p) = Except.ok page) : ∃ es, rest.map (out.entries ++ ·) = .ok es := by
  cases hsend : sendRound shows psSize p id out with
  | none =>
    rw [hsend] at h
    obtain rfl := Except.ok.inj h
    cases hlast
  | some p' =>
    rw [hsend] at h
    obtain ⟨es, hes⟩ := ih h
    rw [hes]
    exact ⟨_, rfl⟩

theorem pageListLoop_ok {ids : List Nat} {scopes : List ID2}
    (h : candidateListLoop s base scope ids scopes = .ok es) (p : Sending) :
    pageListLoop s base scope shows psSize ids scopes p =
      .ok (fillFrom DnEntry.id psSize p.sent p.lastid (es.filter shows)) := by
  induction ids generalizing scopes es p with
  | nil =>
    obtain rfl := Except.ok.inj h
    rfl
  | cons id ids ih =>
    unfold candidateListLoop at h
    unfold pageListLoop
    cases hstep : candidateStep s base scope scopes id with
    | error rc =>
      rw [hstep] at h
      cases h
    | ok r =>
      obtain ⟨scopes', out⟩ := r
      simp only [hstep] at h ⊢
      exact round_ok (fun e he => candidateStep_id (he ▸ hstep)) h ih p

theorem pageListLoop_last {ids : List Nat} {scopes : List ID2} {page : Page DnEntry Nat}
    (h : pageListLoop s base scope shows psSize ids scopes p = .ok page) (hlast : page.cookie = none) :
    ∃ es, candidateListLoop s base scope ids scopes = .ok es := by
  induction ids generalizing scopes p with
  | nil => exact ⟨[], rfl⟩
  | cons id ids ih =>
    unfold pageListLoop at h
    unfold candidateListLoop
    cases hstep : candidateStep s base scope scopes id with
    | error rc =>
      rw [hstep] at h
      cases h
    | ok r =>
      simp only [hstep] at h ⊢
      exact round_last p id hlast ih h

theorem candidateRangeLoop_notfound {id : Nat} {scopes : List ID2} (hend : ¬ (hi < id ∨ id = NOID))
    (hstep : candidateStep s base scope scopes id = .ok (scopes', .notfound)) :
    candidateRangeLoop s base scope hi id scopes =
      (mdbGetNextid s id).elim (.ok []) fun y => candidateRangeLoop s base scope hi y scopes' := by
  rw [candidateRangeLoop, if_neg hend, hstep]
  dsimp only
  split
  next hy => rw [hy]; rfl
  next y hy => rw [hy]; rfl

theorem pageRangeLoop_notfound {id : Nat} {scopes : List ID2} (hend : ¬ (hi < id ∨ id = NOID))
    (hstep : candidateStep s base scope scopes id = .ok (scopes', .notfound)) :
    pageRangeLoop s base scope shows psSize hi id scopes p =
      (mdbGetNextid s id).elim (.ok ⟨p.sent, none⟩) fun y => pageRangeLoop s base scope shows psSize hi y scopes' p := by
  rw [pageRangeLoop, if_neg hend, hstep]
  dsimp only
  split
  next hy => rw [hy]; rfl
  next y hy => rw [hy]; rfl

theorem pageRangeLoop_ok {id : Nat} {scopes : List ID2}
    (h : candidateRangeLoop s base scope hi id scopes = .ok es) (p : Sending) :
    pageRangeLoop s base scope shows psSize hi id scopes p =
      .ok (fillFrom DnEntry.id psSize p.sent p.lastid (es.filter shows)) := by
  induction hn : hi + 1 - id using Nat.strong_induction_on generalizing id scopes es p with
  | _ n ih =>
    by_cases hend : hi < id ∨ id = NOID
    · rw [candidateRangeLoop, if_pos hend] at h
      rw [pageRangeLoop, if_pos hend]
      obtain rfl := Except.ok.inj h
      rfl
    cases hstep : candidateStep s base scope scopes id with
    | error rc =>
      rw [candidateRangeLoop, if_neg hend, hstep] at h
      cases h
    | ok r =>
      obtain ⟨scopes', out⟩ := r
      have hid : ∀ e, out = .examined e → e.id = id := fun e he => candidateStep_id (he ▸ hstep)
      cases out with
      | examined _ =>
        rw [candidateRangeLoop, if_neg hend, hstep] at h
        rw [pageRangeLoop, if_neg hend, hstep]
        exact round_ok hid h (fun hrest p => ih (hi + 1 - (id + 1)) (by omega) hrest p rfl) p
      | skipped =>
        rw [candidateRangeLoop, if_neg hend, hstep] at h
        rw [pageRangeLoop, if_neg hend, hstep]
        exact round_ok hid h (fun hrest p => ih (hi + 1 - (id + 1)) (by omega) hrest p rfl) p
      | notfound =>
        clear hid
        rw [candidateRangeLoop_notfound hend hstep] at h
        rw [pageRangeLoop_notfound hend hstep]
        cases hy : mdbGetNextid s id with
        | none =>
          rw [hy] at h
          obtain rfl := Except.ok.inj h
          rfl
        | some y =>
          rw [hy] at h
          have hlt : id < y := by simpa using List.find?_some hy
          exact ih (hi + 1 - y) (by omega) h p rfl

theorem pageRangeLoop_last {id : Nat} {scopes : List ID2} {page : Page DnEntry Nat}
    (h : pageRangeLoop s base scope shows psSize hi id scopes p = .ok page) (hlast : page.cookie = none) :
    ∃ es, candidateRangeLoop s base scope hi id scopes = .ok es := by
  induction hn : hi + 1 - id using Nat.strong_induction_on generalizing id scopes p with
  | _ n ih =>
    by_cases hend : hi < id ∨ id = NOID
    · rw [candidateRangeLoop, if_pos hend]
      exact ⟨[], rfl⟩
    cases hstep : candidateStep s base scope scopes id with
    | error rc =>
      rw [pageRangeLoop, if_neg hend, hstep] at h
      cases h
    | ok r =>
      obtain ⟨scopes', out⟩ := r
      cases out with
      | examined _ =>
        rw [pageRangeLoop, if_neg hend, hstep] at h
        rw [candidateRangeLoop, if_neg hend, hstep]
        exact round_last p id hlast (fun h => ih (hi + 1 - (id + 1)) (by omega) h rfl) h
      | skipped =>
        rw [pageRangeLoop, if_neg hend, hstep] at h
        rw [candidateRangeLoop, if_neg hend, hstep]
        exact @round_last shows psSize p id .skipped _ _ _ hlast (fun h => ih (hi + 1 - (id + 1)) (by omega) h rfl) h
      | notfound =>
        rw [pageRangeLoop_notfound hend hstep] at h
        rw [candidateRangeLoop_notfound hend hstep]
        cases hy : mdbGetNextid s id with
        | none => exact ⟨[], rfl⟩
        | some y =>
          rw [hy] at h
          have hlt : id < y := by simpa using List.find?_some hy
          exact ih (hi + 1 - y) (by omega) h rfl

end

section

variable {s : Tables} {started : Bool} {nodes : Nodes} {base : DnEntry} {scope : Scope} {candidates ahead : IDL}
  {shows : DnEntry → Bool} {psSize : Nat}

theorem Setting.noid_loop (h : Setting s started nodes base) :
    candidateListLoop s base scope [NOID] (if scope = .base then [] else [⟨base.id, none⟩]) = .ok [] := by
  have hgone : ∀ {Inv : Nat → List ID2 → Prop} {Fails : Nat → Prop} {R : Nat → DnEntry → Prop},
      Rounds s base scope {NOID} Inv Fails R → Inv NOID (if scope = .base then [] else [⟨base.id, none⟩]) →
      candidateListLoop s base scope [NOID] (if scope = .base then [] else [⟨base.id, none⟩]) = .ok [] := by
    intro Inv Fails R hr hinv
    have hno : NOID ∉ s.id2entry := fun hmem => absurd (h.noid NOID hmem) (lt_irrefl _)
    have hinc : Increasing [NOID] := pairwise_singleton _ _
    rcases hr.listLoop hinv hinc (fun x hx => ⟨List.mem_singleton.mp hx, (List.mem_singleton.mp hx).ge⟩)
      (fun c hc _ => List.mem_singleton.mpr hc) with ⟨⟨x, hx, hf⟩, -⟩ | ⟨-, out, hloop, -, hout⟩
    · obtain rfl := List.mem_singleton.mp hx
      exact absurd (hr.failing _ hf) hno
    · rw [hloop]
      congr 1
      rw [eq_nil_iff_forall_not_mem]
      intro e he
      obtain ⟨x, hx, hR⟩ := (hout e).mp he
      obtain rfl := List.mem_singleton.mp hx
      rcases hr.known _ _ hR with h0 | hmem
      · exact absurd h0 (by decide)
      · exact hno hmem
  have hdeep : scope ≠ .base → scope ≠ .onelevel →
      candidateListLoop s base scope [NOID] (if scope = .base then [] else [⟨base.id, none⟩]) = .ok [] := by
    intro hb hone
    refine hgone (h.rounds_below hb hone) ?_
    rw [if_neg hb]
    refine (CacheAt.start s nodes base.id {NOID}).skip (Nat.zero_le _) ?_
    intro c hc _ hlt
    obtain rfl := Set.mem_singleton_iff.mp hc
    exact absurd hlt (lt_irrefl _)
  cases hscope : scope with
  | base =>
    subst hscope
    exact hgone h.rounds_base trivial
  | onelevel =>
    subst hscope
    exact hgone h.rounds_onelevel rfl
  | subtree => exact hscope ▸ hdeep (by rw [hscope]; decide) (by rw [hscope]; decide)
  | children => exact hscope ▸ hdeep (by rw [hscope]; decide) (by rw [hscope]; decide)

theorem Setting.pageLoop_ok (h : Setting s started nodes base) {es : List DnEntry}
    (hes : candidateLoop s base scope ahead = .ok es) :
    pageLoop s base scope shows psSize ahead = .ok (fillFrom DnEntry.id psSize [] NOID (es.filter shows)) := by
  have hnoid : es = [] → pageListLoop s base scope shows psSize [NOID]
      (if scope = .base then [] else [⟨base.id, none⟩]) ⟨[], NOID⟩ =
        .ok (fillFrom DnEntry.id psSize [] NOID (es.filter shows)) := by
    rintro rfl
    exact pageListLoop_ok h.noid_loop _
  unfold candidateLoop at hes
  unfold pageLoop
  cases ahead with
  | list ids =>
    dsimp only at hes ⊢
    by_cases hnil : ids = []
    · rw [if_pos hnil]
      rw [hnil] at hes
      exact hnoid (Except.ok.inj hes).symm
    · rw [if_neg hnil]
      exact pageListLoop_ok hes _
  | range lo hi =>
    dsimp only at hes ⊢
    by_cases hlt : hi < lo ∨ lo = NOID
    · rw [if_pos hlt]
      unfold candidateRangeLoop at hes
      rw [if_pos hlt] at hes
      exact hnoid (Except.ok.inj hes).symm
    · rw [if_neg hlt]
      exact pageRangeLoop_ok hes _

theorem pageLoop_last {page : Page DnEntry Nat} (h : pageLoop s base scope shows psSize ahead = .ok page)
    (hlast : page.cookie = none) : ∃ es, candidateLoop s base scope ahead = .ok es := by
  unfold pageLoop at h
  unfold candidateLoop
  cases ahead with
  | list ids =>
    dsimp only at h ⊢
    by_cases hnil : ids = []
    · exact ⟨[], by rw [hnil]; rfl⟩
    · rw [if_neg hnil] at h
      exact pageListLoop_last h hlast
  | range lo hi =>
    dsimp only at h ⊢
    by_cases hlt : hi < lo ∨ lo = NOID
    · refine ⟨[], ?_⟩
      unfold candidateRangeLoop
      rw [if_pos hlt]
    · rw [if_neg hlt] at h
      exact pageRangeLoop_last h hlast

def aheadOf (candidates : IDL) (cursor : Nat) : Option IDL :=
  (mdbIdlFirst candidates cursor).map fun ahead => if ahead.first = cursor then mdbIdlNext ahead else ahead

def IDL.Ahead (ahead : IDL) : Prop := ahead.Valid ∨ ∃ lo hi, ahead = .range lo hi ∧ (hi < lo ∨ lo = NOID)

theorem aheadOf_spec (hv : candidates.Valid) (hz : candidates.isZero = false) {t : Nat}
    (ht : t = 0 ∨ t ∈ candidates.denote) (htno : t < NOID) :
    ∃ ahead, aheadOf candidates t = some ahead ∧ ahead.Ahead ∧
      ∀ x, x ∈ ahead.denote ↔ x ∈ candidates.denote ∧ t < x := by
  cases candidates with
  | list ids =>
    obtain ⟨hinc, hno, hlen⟩ := hv
    obtain ⟨l, hfirst, hsuf, hmem⟩ : ∃ l, mdbIdlFirst (.list ids) t = some (.list l) ∧ l <:+ ids ∧
        ∀ x, x ∈ l ↔ x ∈ ids ∧ t ≤ x := by
      unfold mdbIdlFirst
      dsimp only
      by_cases h0 : t = 0
      · have hpos : ¬ ids.length < 1 := by
          intro hlt
          rw [eq_nil_of_length_eq_zero (Nat.lt_one_iff.mp hlt)] at hz
          cases hz
        rw [if_pos h0, if_neg hpos]
        exact ⟨ids, rfl, suffix_refl _, fun x => ⟨fun hx => ⟨hx, by omega⟩, fun hx => hx.1⟩⟩
      · obtain ⟨hlow, -⟩ := Search.search_spec hinc t
        have hfound := (Search.search_found hinc t).mpr (ht.resolve_left h0)
        obtain ⟨hlt, -⟩ := List.getElem?_eq_some_iff.mp hfound
        rw [if_neg h0, if_neg (by omega)]
        exact ⟨_, rfl, drop_suffix _ _, fun x => Search.mem_drop_search hinc⟩
    have hincl : Increasing l := hinc.sublist hsuf.sublist
    have hvalid : ∀ {l' : List Nat}, l' <:+ l → (IDL.list l').Valid := by
      intro l' hl'
      have hsub := hl'.trans hsuf
      exact ⟨hinc.sublist hsub.sublist, fun x hx => hno x (hsub.subset hx), hsub.length_le.trans hlen⟩
    unfold aheadOf
    rw [hfirst, map_some]
    have hne : l ≠ [] := by
      rintro rfl
      rcases ht with rfl | ht
      · cases ids with
        | nil => cases hz
        | cons y ys => exact absurd ((hmem y).mpr ⟨mem_cons_self, Nat.zero_le y⟩) not_mem_nil
      · exact absurd ((hmem t).mpr ⟨ht, le_refl t⟩) not_mem_nil
    obtain ⟨y, ys, rfl⟩ := exists_cons_of_ne_nil hne
    obtain ⟨hlt, -⟩ := DupSort.sortedBy_cons.mp hincl
    have hy := (hmem y).mp mem_cons_self
    by_cases hyt : y = t
    · have hhead : (IDL.list (y :: ys)).first = t := hyt
      rw [if_pos hhead]
      refine ⟨.list ys, rfl, .inl (hvalid (suffix_cons y ys)), fun x => ⟨fun hx => ?_, fun hx => ?_⟩⟩
      · have hyx : y < x := hlt x hx
        exact ⟨((hmem x).mp (mem_cons_of_mem y hx)).1, by omega⟩
      · rcases List.mem_cons.mp ((hmem x).mpr ⟨hx.1, hx.2.le⟩) with rfl | hx'
        · exact absurd hyt hx.2.ne'
        · exact hx'
    · have hhead : ¬ (IDL.list (y :: ys)).first = t := hyt
      rw [if_neg hhead]
      refine ⟨_, rfl, .inl (hvalid (suffix_refl _)), fun x => ⟨fun hx => ?_, fun hx => (hmem x).mpr ⟨hx.1, hx.2.le⟩⟩⟩
      have hx' := (hmem x).mp hx
      refine ⟨hx'.1, ?_⟩
      rcases List.mem_cons.mp hx with rfl | hin
      · omega
      · have hyx : y < x := hlt x hin
        omega
  | range lo hi =>
    obtain ⟨hle, hlo⟩ := hv
    have hfirst : mdbIdlFirst (.range lo hi) t = some (.range (max lo t) hi) := by
      unfold mdbIdlFirst
      dsimp only
      by_cases hlt : t < lo
      · rw [if_pos hlt, if_neg (by omega), max_eq_left hlt.le]
      · rw [if_neg hlt, if_neg (by omega), max_eq_right (by omega)]
    have hahead : ∀ {c : Nat}, c ≤ NOID → (IDL.range c hi).Ahead := by
      intro c hc
      by_cases hend : hi < c ∨ c = NOID
      · exact .inr ⟨c, hi, rfl, hend⟩
      · exact .inl ⟨by omega, by omega⟩
    unfold aheadOf
    rw [hfirst, map_some]
    by_cases hmax : (IDL.range (max lo t) hi).first = t
    · have hmax' : max lo t = t := hmax
      rw [if_pos hmax]
      refine ⟨.range (max lo t + 1) hi, rfl, hahead (by omega), fun x => ?_⟩
      have hin : x ∈ (IDL.range (max lo t + 1) hi).denote ↔ max lo t + 1 ≤ x ∧ x ≤ hi := Iff.rfl
      have hin' : x ∈ (IDL.range lo hi).denote ↔ lo ≤ x ∧ x ≤ hi := Iff.rfl
      rw [hin, hin']
      omega
    · have hmax' : max lo t ≠ t := hmax
      rw [if_neg hmax]
      refine ⟨_, rfl, hahead (by omega), fun x => ?_⟩
      have hin : x ∈ (IDL.range (max lo t) hi).denote ↔ max lo t ≤ x ∧ x ≤ hi := Iff.rfl
      have hin' : x ∈ (IDL.range lo hi).denote ↔ lo ≤ x ∧ x ≤ hi := Iff.rfl
      rw [hin, hin']
      omega

theorem Setting.ahead_loop (h : Setting s started nodes base) (ha : ahead.Ahead) (scope : Scope) :
    ((scope.Deep ∧ ∃ x ∈ ahead.denote, Overlong s nodes base ahead.denote x) ∧
      ∃ rc, candidateLoop s base scope ahead = .error rc) ∨
    ((scope.Deep → ∀ x ∈ ahead.denote, ¬ Overlong s nodes base ahead.denote x) ∧
      ∃ out, candidateLoop s base scope ahead = .ok out ∧ (out.map DnEntry.id).Pairwise (· < ·) ∧
        ∀ e, e ∈ out ↔ ∃ x ∈ ahead.denote, Contributes nodes base scope
          (fun x => scope.Deep → ¬ Lost nodes.parent s.id2entry.toFinset base.id ahead.denote x) x e) := by
  rcases ha with hv | ⟨lo, hi, rfl, hend⟩
  · exact h.candidateLoop_spec hv scope
  have hgone : ∀ {x : Nat} {ns : List (List Byte)}, x ∈ (IDL.range lo hi).denote → ¬ Named nodes x ns := by
    rintro x ns ⟨hlo, hhi⟩ hx
    have := h.tree.lt_NOID h.noid hx
    omega
  refine .inr ⟨?_, [], ?_, List.Pairwise.nil, ?_⟩
  · rintro - x hx ⟨-, ns, -, hns, -⟩
    exact hgone hx hns
  · unfold candidateLoop
    dsimp only
    unfold candidateRangeLoop
    rw [if_pos hend]
  · intro e
    refine ⟨fun he => absurd he not_mem_nil, ?_⟩
    rintro ⟨x, hx, ps, hup, -⟩
    obtain ⟨nb, -, hnb, -⟩ := h.base
    exact absurd (hup.named hnb) (hgone hx)

def answer (s : Tables) (base : DnEntry) (scope : Scope) (shows : DnEntry → Bool) (candidates : IDL) (psSize : Nat)
    (t : Option Nat) : Except PagedRc (Page DnEntry Nat) :=
  (pagedSearch s base scope shows candidates (t.getD 0) psSize t).map Prod.snd

def source (s : Tables) (base : DnEntry) (scope : Scope) (shows : DnEntry → Bool) (candidates : IDL) (t : Option Nat) :
    Except PagedRc (List DnEntry) :=
  if candidates.isZero then .ok []
  else
    match aheadOf candidates (t.getD 0) with
    | none => .error .other
    | some ahead =>
      match candidateLoop s base scope ahead with
      | .error rc => .error (.loop rc)
      | .ok out => .ok (out.filter shows)

theorem parsePagedCookie_same (t : Option Nat) : parsePagedCookie (t.getD 0) t = .ok (t.getD 0) := by
  cases t with
  | none => rfl
  | some c => simp [parsePagedCookie]

theorem pagedSearch_cookie {psCookie psCookie' : Nat} {t : Option Nat} {page : Page DnEntry Nat}
    (h : pagedSearch s base scope shows candidates psCookie psSize t = .ok (psCookie', page)) :
    psCookie' = page.cookie.getD 0 := by
  unfold pagedSearch at h
  split at h
  · cases h
    rfl
  · split at h
    · cases h
    · split at h
      · cases h
      · split at h
        · cases h
        · dsimp only at h
          split at h
          · cases h
          · cases h
            rfl

theorem pagedRun_eq_session {fuel : Nat} {sizes : Nat → Nat} {t : Option Nat} :
    pagedRun s base scope shows candidates fuel sizes (t.getD 0) t =
      session (answer s base scope shows candidates) fuel sizes t := by
  induction fuel generalizing sizes t with
  | zero => rfl
  | succ fuel ih =>
    unfold pagedRun session
    cases hs : pagedSearch s base scope shows candidates (t.getD 0) (sizes 0) t with
    | error rc =>
      have hans : answer s base scope shows candidates (sizes 0) t = .error rc := by rw [answer, hs]; rfl
      rw [hans]
    | ok r =>
      obtain ⟨psCookie, page⟩ := r
      have hans : answer s base scope shows candidates (sizes 0) t = .ok page := by rw [answer, hs]; rfl
      have hc := pagedSearch_cookie hs
      rw [hans]
      cases hcookie : page.cookie with
      | none => simp only [hcookie]
      | some c =>
        rw [hcookie, getD_some] at hc
        have hrest := @ih (fun k => sizes (k + 1)) (some c)
        rw [getD_some] at hrest
        simp only [hcookie, hc, hrest]

theorem Setting.answers (h : Setting s started nodes base) :
    Answers DnEntry.id NOID (source s base scope shows candidates) (answer s base scope shows candidates) where
  ok := by
    intro n t l hn hsrc
    unfold source at hsrc
    unfold answer pagedSearch
    by_cases hz : candidates.isZero = true
    · rw [if_pos hz] at hsrc ⊢
      obtain rfl := Except.ok.inj hsrc
      rfl
    rw [if_neg hz] at hsrc ⊢
    rw [parsePagedCookie_same]
    have hn0 : ¬ (t.getD 0 ≠ 0 ∧ n = 0) := by omega
    simp only [if_neg hn0]
    unfold aheadOf at hsrc
    cases hfirst : mdbIdlFirst candidates (t.getD 0) with
    | none =>
      rw [hfirst] at hsrc
      cases hsrc
    | some a =>
      rw [hfirst] at hsrc
      simp only [map_some] at hsrc ⊢
      cases hloop : candidateLoop s base scope (if a.first = t.getD 0 then mdbIdlNext a else a) with
      | error rc =>
        rw [hloop] at hsrc
        cases hsrc
      | ok out =>
        rw [hloop] at hsrc
        obtain rfl := Except.ok.inj hsrc
        rw [h.pageLoop_ok hloop]
        rfl
  error := by
    intro n t rc page hsrc hans hlast
    unfold source at hsrc
    unfold answer pagedSearch at hans
    by_cases hz : candidates.isZero = true
    · rw [if_pos hz] at hsrc
      cases hsrc
    rw [if_neg hz] at hsrc hans
    rw [parsePagedCookie_same] at hans
    unfold aheadOf at hsrc
    by_cases hn0 : t.getD 0 ≠ 0 ∧ n = 0
    · simp only [if_pos hn0] at hans
      cases hans
    simp only [if_neg hn0] at hans
    cases hfirst : mdbIdlFirst candidates (t.getD 0) with
    | none =>
      rw [hfirst] at hans
      cases hans
    | some a =>
      rw [hfirst] at hsrc hans
      simp only [map_some] at hsrc hans
      cases hpage : pageLoop s base scope shows n (if a.first = t.getD 0 then mdbIdlNext a else a) with
      | error rc =>
        rw [hpage] at hans
        cases hans
      | ok page' =>
        rw [hpage] at hans
        obtain rfl := Except.ok.inj hans
        obtain ⟨es, hes⟩ := pageLoop_last hpage hlast
        rw [hes] at hsrc
        cases hsrc

end

/-! ## When nothing is lost -/

section

variable (s : Tables) (nodes : Nodes) (base : DnEntry) (scope : Scope) (shows : DnEntry → Bool) (cands : Set Nat)

/-- The candidates behind `t`. -/
def behind (t : Nat) : Set Nat := fun x => x ∈ cands ∧ t < x

def Shown (x : Nat) : Prop := ∃ ps, Up nodes base.id x ps ∧ scope.Allows ps ∧ shows (entryAt base x ps) = true

def Sent (x : Nat) : Prop :=
  x ∈ cands ∧ Shown nodes base scope shows x ∧
    (scope.Deep → ¬ Lost nodes.parent s.id2entry.toFinset base.id cands x)

/-- Where a page may start: at the start, and behind a candidate that is sent and not the last one. -/
def PageStart (t : Nat) : Prop :=
  t = 0 ∨ (Sent s nodes base scope shows cands t ∧ ∃ x, t < x ∧ Sent s nodes base scope shows cands x)

/-- A page loses the candidates that the search without pages loses, and no DN is too long for either. An entry of ID 0
is not sent. -/
structure PagesKeep : Prop where
  fits : scope.Deep → ∀ x ∈ cands, ¬ Overlong s nodes base cands x
  root : base.id = 0 → 0 ∈ cands → ¬ (scope.Allows [] ∧ shows base = true)
  pages : scope.Deep → ∀ t, PageStart s nodes base scope shows cands t → ∀ x ∈ cands, t < x →
    ¬ Overlong s nodes base (behind cands t) x ∧
      (Shown nodes base scope shows x →
        (Lost nodes.parent s.id2entry.toFinset base.id (behind cands t) x ↔
          Lost nodes.parent s.id2entry.toFinset base.id cands x))

end

section

variable {s : Tables} {started : Bool} {nodes : Nodes} {base : DnEntry} {scope : Scope} {candidates : IDL}
  {shows : DnEntry → Bool} {out : List DnEntry}

/-- What the loop over `cands` has examined. -/
structure Loop (s : Tables) (nodes : Nodes) (base : DnEntry) (scope : Scope) (cands : Set Nat) (out : List DnEntry) :
    Prop where
  sorted : (out.map DnEntry.id).Pairwise (· < ·)
  mem : ∀ e, e ∈ out ↔ ∃ x ∈ cands, Contributes nodes base scope
    (fun x => scope.Deep → ¬ Lost nodes.parent s.id2entry.toFinset base.id cands x) x e

theorem Loop.shown {cands : Set Nat} (h : Loop s nodes base scope cands out) {e : DnEntry} (he : e ∈ out.filter shows) :
    Sent s nodes base scope shows cands e.id := by
  obtain ⟨he, hs⟩ := List.mem_filter.mp he
  obtain ⟨x, hx, ps, hup, hallow, hlost, rfl⟩ := (h.mem e).mp he
  rw [entryAt_id hup]
  exact ⟨hx, ⟨ps, hup, hallow, hs⟩, hlost⟩

theorem Loop.entry {cands : Set Nat} (h : Loop s nodes base scope cands out) {x : Nat}
    (hx : Sent s nodes base scope shows cands x) : ∃ e ∈ out.filter shows, e.id = x := by
  obtain ⟨hx, ⟨ps, hup, hallow, hs⟩, hlost⟩ := hx
  exact ⟨entryAt base x ps, List.mem_filter.mpr ⟨(h.mem _).mpr ⟨x, hx, ps, hup, hallow, hlost, rfl⟩, hs⟩, entryAt_id hup⟩

theorem Loop.filter_sorted {cands : Set Nat} (h : Loop s nodes base scope cands out) (p : DnEntry → Bool) :
    DupSort.SortedBy DnEntry.id (out.filter p) :=
  (List.pairwise_map.mp h.sorted).sublist filter_sublist

theorem Loop.eq_iff {cands : Set Nat} {t : Nat} {out' : List DnEntry} (h : Loop s nodes base scope cands out)
    (h' : Loop s nodes base scope (behind cands t) out') :
    out'.filter shows = (out.filter shows).filter (fun e => t < e.id) ↔
      (scope.Deep → ∀ x ∈ cands, t < x → Shown nodes base scope shows x →
        (Lost nodes.parent s.id2entry.toFinset base.id (behind cands t) x ↔
          Lost nodes.parent s.id2entry.toFinset base.id cands x)) := by
  constructor
  · intro heq hd x hx htx hshown
    rw [← not_iff_not]
    constructor
    · intro hl
      obtain ⟨e, he, rfl⟩ := h'.entry ⟨⟨hx, htx⟩, hshown, fun _ => hl⟩
      rw [heq] at he
      exact (h.shown (mem_of_mem_filter he)).2.2 hd
    · intro hl
      obtain ⟨e, he, rfl⟩ := h.entry ⟨hx, hshown, fun _ => hl⟩
      have he' : e ∈ out'.filter shows := by
        rw [heq]
        exact List.mem_filter.mpr ⟨he, decide_eq_true htx⟩
      exact (h'.shown he').2.2 hd
  · intro hsame
    have hlost : ∀ x ps, x ∈ cands → t < x → Up nodes base.id x ps → scope.Allows ps → shows (entryAt base x ps) = true →
        ((scope.Deep → ¬ Lost nodes.parent s.id2entry.toFinset base.id (behind cands t) x) ↔
          (scope.Deep → ¬ Lost nodes.parent s.id2entry.toFinset base.id cands x)) := by
      intro x ps hx htx hup hallow hs
      constructor
      · intro hl hd hl'
        exact hl hd ((hsame hd x hx htx ⟨ps, hup, hallow, hs⟩).mpr hl')
      · intro hl hd hl'
        exact hl hd ((hsame hd x hx htx ⟨ps, hup, hallow, hs⟩).mp hl')
    refine (h'.filter_sorted shows).eq_of_mem_iff ((h.filter_sorted shows).sublist filter_sublist) fun e => ?_
    rw [mem_filter, mem_filter, mem_filter, h'.mem, h.mem]
    constructor
    · rintro ⟨⟨x, ⟨hx, htx⟩, ps, hup, hallow, hl, rfl⟩, hs⟩
      refine ⟨⟨⟨x, hx, ps, hup, hallow, (hlost x ps hx htx hup hallow hs).mp hl, rfl⟩, hs⟩, ?_⟩
      rw [entryAt_id hup]
      exact decide_eq_true htx
    · rintro ⟨⟨⟨x, hx, ps, hup, hallow, hl, rfl⟩, hs⟩, htx⟩
      rw [entryAt_id hup, decide_eq_true_iff] at htx
      exact ⟨⟨x, ⟨hx, htx⟩, ps, hup, hallow, (hlost x ps hx htx hup hallow hs).mpr hl, rfl⟩, hs⟩

theorem Setting.source_iff (h : Setting s started nodes base) (hv : candidates.Valid) (hz : candidates.isZero = false)
    (hout : Loop s nodes base scope candidates.denote out) {t : Option Nat}
    (ht : t.getD 0 = 0 ∨ t.getD 0 ∈ candidates.denote) (htno : t.getD 0 < NOID) :
    source s base scope shows candidates t = .ok ((out.filter shows).filter fun e => t.getD 0 < e.id) ↔
      (scope.Deep → ∀ x ∈ candidates.denote, t.getD 0 < x →
        ¬ Overlong s nodes base (behind candidates.denote (t.getD 0)) x ∧
          (Shown nodes base scope shows x →
            (Lost nodes.parent s.id2entry.toFinset base.id (behind candidates.denote (t.getD 0)) x ↔
              Lost nodes.parent s.id2entry.toFinset base.id candidates.denote x))) := by
  obtain ⟨ahead, hahead, ha, hmem⟩ := aheadOf_spec hv hz ht htno
  have hdenote : ahead.denote = behind candidates.denote (t.getD 0) := Set.ext hmem
  unfold source
  rw [if_neg (by simp [hz]), hahead]
  rcases h.ahead_loop ha scope with ⟨⟨hd, x, hx, hlong⟩, rc, hrc⟩ | ⟨hfits, out', hloop, hsorted, hout'⟩
  · rw [hdenote] at hx hlong
    simp only [hrc]
    constructor
    · intro hno
      cases hno
    · intro hall
      exact absurd hlong (hall hd x hx.1 hx.2).1
  · rw [hdenote] at hfits hout'
    simp only [hloop]
    have hl' : Loop s nodes base scope (behind candidates.denote (t.getD 0)) out' := ⟨hsorted, hout'⟩
    rw [Except.ok.injEq, hout.eq_iff hl']
    constructor
    · intro hall hd x hx htx
      exact ⟨hfits hd x ⟨hx, htx⟩, hall hd x hx htx⟩
    · intro hall hd x hx htx
      exact (hall hd x hx htx).2

theorem Setting.sent_lt (h : Setting s started nodes base) {cands : Set Nat} {x : Nat}
    (hx : Sent s nodes base scope shows cands x) : x < NOID := by
  obtain ⟨-, ⟨ps, hup, -⟩, -⟩ := hx
  obtain ⟨nb, -, hnb, -⟩ := h.base
  exact h.tree.lt_NOID h.noid (hup.named hnb)

theorem Setting.sent_zero (h : Setting s started nodes base) {cands : Set Nat} :
    Sent s nodes base scope shows cands 0 ↔ base.id = 0 ∧ 0 ∈ cands ∧ scope.Allows [] ∧ shows base = true := by
  have hnode : nodes 0 = none := h.tree.rep.root
  constructor
  · rintro ⟨hc, ⟨ps, hup, hallow, hs⟩, -⟩
    obtain ⟨hb, rfl⟩ : base.id = 0 ∧ ps = [] := by
      generalize base.id = b at hup
      cases hup with
      | refl => exact ⟨rfl, rfl⟩
      | step hv _ =>
        rw [hnode] at hv
        cases hv
    exact ⟨hb, hc, hallow, by simpa [entryAt] using hs⟩
  · rintro ⟨hb, hc, hallow, hs⟩
    refine ⟨hc, ⟨[], hb ▸ .refl, hallow, hs⟩, ?_⟩
    rintro - ⟨c, -, hlt, -⟩
    exact absurd hlt (Nat.not_lt_zero c)

theorem Loop.root_iff {cands : Set Nat} (h : Setting s started nodes base) (hl : Loop s nodes base scope cands out) :
    (out.filter shows).filter (fun e => 0 < e.id) = out.filter shows ↔
      (base.id = 0 → 0 ∈ cands → ¬ (scope.Allows [] ∧ shows base = true)) := by
  rw [filter_eq_self]
  constructor
  · intro hall hb hc ⟨hallow, hs⟩
    obtain ⟨e, he, he0⟩ := hl.entry (h.sent_zero.mpr ⟨hb, hc, hallow, hs⟩)
    have := of_decide_eq_true (hall e he)
    omega
  · intro hroot e he
    have hsent := hl.shown he
    refine decide_eq_true (Nat.pos_of_ne_zero fun h0 => ?_)
    rw [h0] at hsent
    obtain ⟨hb, hc, hrest⟩ := h.sent_zero.mp hsent
    exact hroot hb hc hrest

theorem Loop.starts_iff {cands : Set Nat} (hl : Loop s nodes base scope cands out) {t : Nat} :
    Starts DnEntry.id (out.filter shows) (some t) ↔
      Sent s nodes base scope shows cands t ∧ ∃ x, t < x ∧ Sent s nodes base scope shows cands x := by
  constructor
  · rintro (h | ⟨u, a, b, w, hu, ha⟩)
    · cases h
    · obtain rfl := Option.some.inj ha
      have hsorted := hl.filter_sorted shows
      have hsa := @Loop.shown _ _ _ _ shows _ _ hl a
      have hsb := @Loop.shown _ _ _ _ shows _ _ hl b
      rw [hu] at hsorted hsa hsb
      have hab := (List.pairwise_cons.mp (List.pairwise_append.mp hsorted).2.1).1 b mem_cons_self
      exact ⟨hsa (by simp), b.id, hab, hsb (by simp)⟩
  · rintro ⟨ht, x, htx, hx⟩
    obtain ⟨a, ha, rfl⟩ := hl.entry ht
    obtain ⟨b, hb, rfl⟩ := hl.entry hx
    obtain ⟨u, w, hu⟩ := append_of_mem ha
    have hsorted := hl.filter_sorted shows
    rw [hu] at hsorted hb
    rcases List.mem_append.mp hb with hb | hb
    · exact absurd ((List.pairwise_append.mp hsorted).2.2 b hb a mem_cons_self) (by omega)
    · rcases List.mem_cons.mp hb with rfl | hb
      · exact absurd htx (lt_irrefl _)
      · obtain ⟨c, w, rfl⟩ := exists_cons_of_ne_nil (ne_nil_of_mem hb)
        exact .inr ⟨u, a, c, w, hu, rfl⟩

theorem Setting.source_behind (h : Setting s started nodes base) (hv : candidates.Valid) (hz : candidates.isZero = false)
    {t : Option Nat} (ht : t.getD 0 = 0 ∨ t.getD 0 ∈ candidates.denote) (htno : t.getD 0 < NOID) {l : List DnEntry}
    (hsrc : source s base scope shows candidates t = .ok l) : ∀ e ∈ l, t.getD 0 < e.id := by
  obtain ⟨ahead, hahead, ha, hmem⟩ := aheadOf_spec hv hz ht htno
  unfold source at hsrc
  rw [if_neg (by simp [hz]), hahead] at hsrc
  rcases h.ahead_loop ha scope with ⟨-, rc, hrc⟩ | ⟨-, out', hloop, hsorted, hout'⟩
  · simp only [hrc] at hsrc
    cases hsrc
  · simp only [hloop] at hsrc
    obtain rfl := Except.ok.inj hsrc
    intro e he
    have hl : Loop s nodes base scope ahead.denote out' := ⟨hsorted, hout'⟩
    exact ((hmem e.id).mp (hl.shown he).1).2

theorem pagedLossless_iff (hloop : candidateLoop s base scope candidates = .ok out) {sizes : Nat → Nat} :
    PagedLossless s base scope shows candidates sizes ↔
      LosslessFrom (answer s base scope shows candidates) (out.filter shows) sizes none := by
  have hrun : ∀ fuel, pagedRun s base scope shows candidates fuel sizes 0 none =
      session (answer s base scope shows candidates) fuel sizes none :=
    fun _ => @pagedRun_eq_session s base scope candidates shows _ _ none
  constructor
  · rintro ⟨out', fuel, pages, hout, hpages, hflat, hfull⟩
    rw [hloop] at hout
    obtain rfl := Except.ok.inj hout
    exact ⟨fuel, pages, (hrun fuel).symm.trans hpages, hflat, hfull⟩
  · rintro ⟨fuel, pages, hpages, hflat, hfull⟩
    exact ⟨out, fuel, pages, hloop, (hrun fuel).trans hpages, hflat, hfull⟩

theorem Setting.paged_iff (h : Setting s started nodes base) (hout : Loop s nodes base scope candidates.denote out)
    (hloop : candidateLoop s base scope candidates = .ok out) :
    (∀ sizes, (∀ k, 1 ≤ sizes k) → PagedLossless s base scope shows candidates sizes) ↔
      ∀ t, Starts DnEntry.id (out.filter shows) t →
        source s base scope shows candidates t = .ok (after DnEntry.id t (out.filter shows)) := by
  rw [← lossless_iff h.answers (hout.filter_sorted shows)]
  exact forall_congr' fun sizes => imp_congr_right fun _ => pagedLossless_iff hloop

theorem Setting.first_iff (h : Setting s started nodes base) (hv : candidates.Valid) (hz : candidates.isZero = false)
    (hout : Loop s nodes base scope candidates.denote out) :
    source s base scope shows candidates none = .ok (out.filter shows) ↔
      (base.id = 0 → 0 ∈ candidates.denote → ¬ (scope.Allows [] ∧ shows base = true)) ∧
      (scope.Deep → ∀ x ∈ candidates.denote, 0 < x →
        ¬ Overlong s nodes base (behind candidates.denote 0) x ∧
          (Shown nodes base scope shows x →
            (Lost nodes.parent s.id2entry.toFinset base.id (behind candidates.denote 0) x ↔
              Lost nodes.parent s.id2entry.toFinset base.id candidates.denote x))) := by
  have hzero : (none : Option Nat).getD 0 < NOID := by decide
  have hbehind := @Setting.source_iff s started nodes base scope candidates shows out h hv hz hout none (.inl rfl) hzero
  rw [getD_none] at hbehind
  rw [← hout.root_iff h, ← hbehind]
  constructor
  · intro hsrc
    have hpos : (out.filter shows).filter (fun e => 0 < e.id) = out.filter shows := by
      rw [filter_eq_self]
      intro e he
      exact decide_eq_true (h.source_behind hv hz (.inl rfl) hzero hsrc e he)
    exact ⟨hpos, hsrc.trans (congrArg Except.ok hpos.symm)⟩
  · rintro ⟨hpos, hsrc⟩
    exact hsrc.trans (congrArg Except.ok hpos)

/-- The pages of every sizes give the entries of the search without pages exactly if what is remembered of the superiors
makes no difference. -/
theorem paged_search_lossless_iff (h : Setting s started nodes base) (hv : candidates.Valid) (scope : Scope)
    (shows : DnEntry → Bool) :
    (∀ sizes, (∀ k, 1 ≤ sizes k) → PagedLossless s base scope shows candidates sizes) ↔
      PagesKeep s nodes base scope shows candidates.denote := by
  by_cases hz : candidates.isZero = true
  · obtain rfl : candidates = .list [] := by
      cases candidates with
      | list ids => rw [List.isEmpty_iff.mp hz]
      | range lo hi => cases hz
    have hnone : ∀ x, x ∉ (IDL.list []).denote := fun x hx => not_mem_nil hx
    refine ⟨fun _ => ⟨fun _ x hx => absurd hx (hnone x), fun _ hx => absurd hx (hnone 0),
      fun _ t _ x hx => absurd hx (hnone x)⟩, fun _ sizes _ => ?_⟩
    refine ⟨[], 1, [⟨[], none⟩], rfl, rfl, rfl, fun k page _ hk => ?_⟩
    simp at hk
  have hz : candidates.isZero = false := by simpa using hz
  rcases h.candidateLoop_spec hv scope with ⟨⟨hd, x, hx, hlong⟩, rc, hrc⟩ | ⟨hfits, out, hloop, hsorted, hmem⟩
  · constructor
    · intro hall
      obtain ⟨out, -, -, hout, -⟩ := hall (fun _ => 1) fun _ => le_refl 1
      rw [hrc] at hout
      cases hout
    · intro hkeep
      exact absurd hlong (hkeep.fits hd x hx)
  have hl : Loop s nodes base scope candidates.denote out := ⟨hsorted, hmem⟩
  rw [h.paged_iff hl hloop]
  constructor
  · intro hall
    obtain ⟨hroot, hfirst⟩ := (h.first_iff hv hz hl).mp (hall none (.inl rfl))
    refine ⟨hfits, hroot, fun hd t ht x hx htx => ?_⟩
    rcases ht with rfl | hstart
    · exact hfirst hd x hx htx
    · have hsrc := hall (some t) (hl.starts_iff.mpr hstart)
      exact (@Setting.source_iff s started nodes base scope candidates shows out h hv hz hl (some t) (.inr hstart.1.1)
        (h.sent_lt hstart.1)).mp hsrc hd x hx htx
  · intro hkeep t ht
    cases t with
    | none => exact (h.first_iff hv hz hl).mpr ⟨hkeep.root, fun hd => hkeep.pages hd 0 (.inl rfl)⟩
    | some t =>
      have hstart := hl.starts_iff.mp ht
      exact (@Setting.source_iff s started nodes base scope candidates shows out h hv hz hl (some t) (.inr hstart.1.1)
        (h.sent_lt hstart.1)).mpr fun hd => hkeep.pages hd t (.inr hstart)

end

/-- The leaves of a small directory, in pages. -/
theorem paged_search_lossless_leaves :
    ∃ s : Tables, s.id2entry = [1, 2, 3, 4, 5, 6, 7] ∧ ∀ sizes, (∀ k, 1 ≤ sizes k) →
      PagedLossless s ⟨1, decimal 1, decimal 1⟩ .subtree (fun _ => true) (.list [5, 6, 7]) sizes := by
  obtain ⟨s, hs, hset, -⟩ := @exists_crowded 3 (le_refl 3) (by decide)
  have hv : (IDL.list [5, 6, 7]).Valid := ⟨by simp [DupSort.SortedBy], by decide, by decide⟩
  have hleaf : ∀ x ∈ (IDL.list [5, 6, 7]).denote, ∀ c, (nodesOf (crowded 3) decimal s.id2entry.toFinset).parent c ≠ some x := by
    intro x hx c
    have hx' : x = 5 ∨ x = 6 ∨ x = 7 := by simpa using (show x ∈ [5, 6, 7] from hx)
    rw [nodesOf_parent]
    exact crowded_childless (by omega) c
  have hkept : ∀ (cands : Set Nat) (x : Nat),
      ¬ Lost (nodesOf (crowded 3) decimal s.id2entry.toFinset).parent s.id2entry.toFinset 1 cands x := by
    intro cands x
    refine not_lost hset.tree.acyclic ?_
    classical
    refine lt_of_le_of_lt (Finset.card_filter_le _ _) ?_
    rw [hs]
    decide
  refine ⟨s, hs, (paged_search_lossless_iff hset hv .subtree fun _ => true).mpr ⟨?_, ?_, ?_⟩⟩
  · exact fun _ x hx => not_overlong (hleaf x hx)
  · intro h
    cases h
  · intro _ t _ x hx _
    exact ⟨not_overlong (hleaf x hx), fun _ => iff_of_false (hkept _ x) (hkept _ x)⟩

/-- `2 * M + 1` is lost in the search without pages, but not behind the page that ends with `2 * M - 1`. -/
theorem paged_search_differs :
    ∃ s : Tables, s.id2entry = List.range' 1 (2 * MDB_IDL_UM_MAX + 1) ∧
      Setting s true (nodesOf (crowded MDB_IDL_UM_MAX) decimal s.id2entry.toFinset) ⟨1, decimal 1, decimal 1⟩ ∧
      (IDL.range (MDB_IDL_UM_MAX + 2) (2 * MDB_IDL_UM_MAX + 1)).Valid ∧
      ¬ ∀ sizes, (∀ k, 1 ≤ sizes k) → PagedLossless s ⟨1, decimal 1, decimal 1⟩ .subtree (fun _ => true)
        (.range (MDB_IDL_UM_MAX + 2) (2 * MDB_IDL_UM_MAX + 1)) sizes := by
  have hM : 3 ≤ MDB_IDL_UM_MAX := by decide
  have hno : 2 * MDB_IDL_UM_MAX + 2 < NOID := by decide
  obtain ⟨M, hMM⟩ : ∃ M, M = MDB_IDL_UM_MAX := ⟨_, rfl⟩
  rw [← hMM] at hM hno ⊢
  obtain ⟨s, hs, hset, -⟩ := exists_crowded hM hno
  have hv : (IDL.range (M + 2) (2 * M + 1)).Valid := ⟨by omega, by omega⟩
  refine ⟨s, hs, hset, hv, fun hall => ?_⟩
  have hparent := @nodesOf_parent (crowded M) decimal s.id2entry.toFinset
  have hacyclic := hset.tree.acyclic
  rw [hparent] at hacyclic
  have hlost : Lost (crowded M) s.id2entry.toFinset 1 (Set.Icc (M + 2) (2 * M + 1)) (2 * M + 1) := by
    refine lost_crowded hMM hM fun x hx1 hx2 => ?_
    rw [hs, List.mem_toFinset, mem_range'_1]
    omega
  have hshown : ∀ x, Reaches (crowded M) x 1 → Shown (nodesOf (crowded M) decimal s.id2entry.toFinset)
      ⟨1, decimal 1, decimal 1⟩ .subtree (fun _ => true) x := by
    intro x hx
    rw [← hparent] at hx
    obtain ⟨ps, hps⟩ := Up.of_reaches hx
    exact ⟨ps, hps, trivial, rfl⟩
  have hsent : ∀ x, M + 2 ≤ x → x ≤ 2 * M → Reaches (crowded M) x 1 →
      Sent s (nodesOf (crowded M) decimal s.id2entry.toFinset) ⟨1, decimal 1, decimal 1⟩ .subtree (fun _ => true)
        (Set.Icc (M + 2) (2 * M + 1)) x := by
    intro x hx hx' hr
    refine ⟨⟨hx, by omega⟩, hshown x hr, fun _ => ?_⟩
    rw [hparent]
    refine not_lost hacyclic (lt_of_le_of_lt (@seenCount_crowded M s.id2entry.toFinset x hM hx') ?_)
    omega
  -- behind `2 * M - 1` there is one candidate with two superiors, and `2 * M + 1`
  have hroom : ¬ Lost (crowded M) s.id2entry.toFinset 1 (behind (Set.Icc (M + 2) (2 * M + 1)) (2 * M - 1)) (2 * M + 1) := by
    refine not_lost hacyclic ?_
    classical
    have hsub : (s.id2entry.toFinset.filter fun x =>
        Seen (crowded M) 1 (behind (Set.Icc (M + 2) (2 * M + 1)) (2 * M - 1)) (2 * M + 1) x) ⊆ {M, M + 1} := by
      intro x hx
      obtain ⟨-, c, ⟨-, hc⟩, hct, hbet⟩ := Finset.mem_filter.mp hx
      have hx' := (between_last hM (by omega) (by omega)).mp hbet
      simpa using hx'
    have hcard := (Finset.card_le_card hsub).trans Finset.card_le_two
    unfold seenCount
    omega
  rcases hset.candidateLoop_spec hv .subtree with ⟨-, rc, hrc⟩ | ⟨-, out, hloop, hsorted, hmem⟩
  · obtain ⟨out, -, -, hout, -⟩ := hall (fun _ => 1) fun _ => le_refl 1
    rw [hrc] at hout
    cases hout
  have hl : Loop s (nodesOf (crowded M) decimal s.id2entry.toFinset) ⟨1, decimal 1, decimal 1⟩ .subtree
      (IDL.range (M + 2) (2 * M + 1)).denote out := ⟨hsorted, hmem⟩
  have h1 := hsent (2 * M - 1) (by omega) (by omega)
    ((reaches_leaf hM (by omega) (by omega)).mpr (.inr (.inr (.inl rfl))))
  have h2 := hsent (2 * M) (by omega) (le_refl _)
    ((reaches_last hM (le_refl _) (by omega)).mpr (.inr (.inr (.inr (.inl rfl)))))
  have hsrc := (hset.paged_iff hl hloop).mp hall (some (2 * M - 1)) (hl.starts_iff.mpr ⟨h1, 2 * M, by omega, h2⟩)
  have hsame := (@Setting.source_iff s true _ _ .subtree _ (fun _ => true) out hset hv rfl hl (some (2 * M - 1)) (.inr h1.1)
    (hset.sent_lt h1)).mp hsrc (.inl rfl) (2 * M + 1) ⟨by omega, le_refl _⟩ (by rw [getD_some]; omega)
  have hdiff := hsame.2 (hshown _ ((reaches_last hM (by omega) (le_refl _)).mpr (.inr (.inr (.inr (.inl rfl))))))
  rw [hparent] at hdiff
  exact hroom (hdiff.mpr hlost)

end BackMdb
end ReOpenLDAP
