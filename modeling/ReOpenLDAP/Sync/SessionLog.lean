import Mathlib.Data.Finset.Card
import ReOpenLDAP.Lib.Chain
import ReOpenLDAP.Lib.Run
import ReOpenLDAP.Sync.Cookie

/-!
# Sync.SessionLog

The session log of the sync provider: a linked list of the last operations, ordered by their time. Operations are added
and old ones dropped under `sl_mutex`. A player copies what its consumer needs without the mutex: `sl_playing` keeps the
list from being freed meanwhile, but it still grows.
-/

namespace ReOpenLDAP
namespace Sync

open SyncCookie List Function

inductive Tag where
  | add
  | delete
  | modify
  | modrdn
  | extended
deriving DecidableEq

/-- `struct slog_entry` -/
structure SlogEntry (υ : Type) where
  uuid : υ
  csn : Csn
  sid : Nat
  tag : Tag

/-- `struct sessionlog`, and the memory it points to. -/
structure SessionLog (υ : Type) where
  cells : Nat → Option (Cell (SlogEntry υ))
  head : Option Nat
  tail : Option Nat
  num : Int
  size : Int
  playing : Int
  cookie : SyncCookie

variable {ι υ : Type}

def slogEntry (uuid : υ) (csn : Csn) (tag : Tag) : SlogEntry υ := ⟨uuid, csn, csn.sid, tag⟩

namespace SessionLog

def empty (size : Int) (cookie : SyncCookie) : SessionLog υ := ⟨fun _ => none, none, none, 0, size, 0, cookie⟩

def freeAll : Nat → SessionLog υ → Option (SessionLog υ)
  | 0, _ => none
  | fuel + 1, sl =>
    match sl.head with
    | none => some sl
    | some a =>
      match sl.cells a with
      | none => none
      | some c => freeAll fuel { sl with head := c.next, cells := Function.update sl.cells a none }

/-- `syncprov_add_slog` for an operation without a CSN. -/
def wipeSlog (fuel : Nat) (sl : SessionLog υ) : Option (SessionLog υ) :=
  (if sl.playing = 0 then freeAll fuel sl else some sl).map fun sl => { sl with tail := none, num := 0 }

/-- The first cell whose CSN is newer, and the cell before it (`none` for `sl_head`). -/
def findPlace (cells : Nat → Option (Cell (SlogEntry υ))) (csn : Csn) :
    Nat → Option Nat → Option Nat → Option (Option (Option Nat × Nat))
  | _, _, none => some none
  | 0, _, some _ => none
  | fuel + 1, prev, some a =>
    match cells a with
    | none => none
    | some c =>
      if slapCsnCompareTs csn.text c.data.csn.text = .lt then some (some (prev, a))
      else findPlace cells csn fuel (some a) c.next

/-- `se->se_next = *sep; *sep = se`, or nothing if the loop has found no place. -/
def link (sl : SessionLog υ) (n : Nat) (e : SlogEntry υ) : Option (Option Nat × Nat) → Option (SessionLog υ)
  | none => some { sl with cells := Function.update sl.cells n (some ⟨none, e⟩) }
  | some (none, a) => some { sl with cells := Function.update sl.cells n (some ⟨some a, e⟩), head := some n }
  | some (some b, a) =>
    match sl.cells b with
    | none => none
    | some c =>
      some { sl with
        cells := Function.update (Function.update sl.cells n (some ⟨some a, e⟩)) b (some ⟨some n, c.data⟩) }

/-- The record at the address `n` gets its place. -/
def insertEntry (fuel : Nat) (sl : SessionLog υ) (n : Nat) (e : SlogEntry υ) : Option (SessionLog υ) :=
  match sl.head with
  | some _ =>
    match sl.tail with
    | none => none
    | some t =>
      match sl.cells t with
      | none => none
      | some c =>
        if slapCsnCompareTs c.data.csn.text e.csn.text ≠ .gt then
          some { sl with
            cells := Function.update (Function.update sl.cells n (some ⟨none, e⟩)) t (some ⟨some n, c.data⟩)
            tail := some n }
        else (findPlace sl.cells e.csn fuel none sl.head).bind (link sl n e)
  | none =>
    some { sl with
      cells := Function.update sl.cells n (some ⟨none, e⟩), head := some n, tail := some n
      cookie := if sl.cookie.csns = [] then { sl.cookie with csns := [(e.sid, e.csn)] } else sl.cookie }

/-- What `sl_cookie` remembers of a record that is dropped. -/
def forget (cookie : SyncCookie) (e : SlogEntry υ) : SyncCookie :=
  let i := scanSid e.sid cookie.csns
  match cookie.csns[i]? with
  | none => cookie.slapInsertCsnSids i e.sid e.csn
  | some p =>
    if p.1 ≠ e.sid then cookie.slapInsertCsnSids i e.sid e.csn
    else if slapCsnCompareTs p.2.text e.csn.text = .lt then { cookie with csns := cookie.csns.set i (p.1, e.csn) }
    else cookie

def trim : Nat → SessionLog υ → Option (SessionLog υ)
  | 0, sl => some sl
  | k + 1, sl =>
    match sl.head with
    | none => none
    | some a =>
      match sl.cells a with
      | none => none
      | some c =>
        trim k { sl with
          head := c.next, cookie := forget sl.cookie c.data, cells := Function.update sl.cells a none, num := sl.num - 1 }

/-- `syncprov_add_slog` for an operation with a CSN; `n` is the address of the new record. -/
def syncprovAddSlog (fuel : Nat) (sl : SessionLog υ) (n : Nat) (e : SlogEntry υ) : Option (SessionLog υ) :=
  (insertEntry fuel sl n e).bind fun sl =>
    let sl := { sl with num := sl.num + 1 }
    if sl.playing = 0 then trim (sl.num - sl.size).toNat sl else some sl

end SessionLog

/-! ## Playing -/

/-- Where a player is: before it reads `sl_head`, before it looks at a record, before it reads `se_next`, behind the
loop. -/
inductive Phase where
  | head
  | body (a : Nat)
  | next (a : Nat)
  | done
deriving DecidableEq

/-- The variables of `syncprov_playlog`. -/
structure Player (υ : Type) where
  num : Nat
  consumer : List (Nat × Csn)
  ctxcsn : List (Nat × Csn)
  uuids : Int → Option υ
  ndel : Nat
  nmods : Nat
  phase : Phase

namespace Player

def tooOld (p : Player υ) (e : SlogEntry υ) : Bool :=
  match p.consumer.find? fun k => k.1 = e.sid with
  | some k => slapCsnCompareTs e.csn.text k.2.text ≠ .gt
  | none => false

def tooNew (p : Player υ) (e : SlogEntry υ) : Bool :=
  match p.ctxcsn.find? fun k => k.1 = e.sid with
  | some k => slapCsnCompareTs e.csn.text k.2.text = .gt
  | none => false

def visit (p : Player υ) (a : Nat) (e : SlogEntry υ) : Player υ :=
  if p.tooOld e then { p with phase := .next a }
  else if p.tooNew e then { p with phase := .done }
  else
    match e.tag with
    | .delete => { p with uuids := Function.update p.uuids p.ndel (some e.uuid), ndel := p.ndel + 1, phase := .next a }
    | .add => { p with phase := .next a }
    | _ =>
      { p with
        uuids := Function.update p.uuids (p.num - (p.nmods + 1 : Nat)) (some e.uuid), nmods := p.nmods + 1
        phase := .next a }

end Player

def atPtr : Option Nat → Phase
  | none => .done
  | some a => .body a

def playRound (sl : SessionLog υ) (p : Player υ) : Option (Player υ) :=
  match p.phase with
  | .head => some { p with phase := atPtr sl.head }
  | .body a => (sl.cells a).map fun c => p.visit a c.data
  | .next a => (sl.cells a).map fun c => { p with phase := atPtr c.next }
  | .done => some p

structure Playing (ι υ : Type) where
  log : SessionLog υ
  players : ι → Option (Player υ)

inductive SlogAct (ι υ : Type) where
  | add (n : Nat) (e : SlogEntry υ)
  | wipe
  | play (id : ι) (consumer ctxcsn : List (Nat × Csn))
  | round (id : ι)
  | finish (id : ι)

def newPlayer (num : Nat) (consumer ctxcsn : List (Nat × Csn)) : Player υ :=
  ⟨num, consumer, ctxcsn, fun _ => none, 0, 0, .head⟩

inductive SlogStep [DecidableEq ι] : Playing ι υ → SlogAct ι υ → Playing ι υ → Prop where
  | add {s : Playing ι υ} {sl : SessionLog υ} {fuel n : Nat} {e : SlogEntry υ} :
      s.log.cells n = none → e.sid = e.csn.sid → s.log.syncprovAddSlog fuel n e = some sl →
      SlogStep s (.add n e) { s with log := sl }
  | wipe {s : Playing ι υ} {sl : SessionLog υ} {fuel : Nat} :
      s.log.wipeSlog fuel = some sl → SlogStep s .wipe { s with log := sl }
  | skip {s : Playing ι υ} {id : ι} {consumer ctxcsn : List (Nat × Csn)} :
      s.log.num = 0 → SlogStep s (.play id consumer ctxcsn) s
  | play {s : Playing ι υ} {id : ι} {consumer ctxcsn : List (Nat × Csn)} :
      s.log.num ≠ 0 → s.players id = none →
      SlogStep s (.play id consumer ctxcsn)
        ⟨{ s.log with playing := s.log.playing + 1 },
          Function.update s.players id (some (newPlayer s.log.num.toNat consumer ctxcsn))⟩
  | round {s : Playing ι υ} {id : ι} {p p' : Player υ} :
      s.players id = some p → playRound s.log p = some p' →
      SlogStep s (.round id) { s with players := Function.update s.players id (some p') }
  | finish {s : Playing ι υ} {id : ι} {p : Player υ} :
      s.players id = some p → p.phase = .done →
      SlogStep s (.finish id) ⟨{ s.log with playing := s.log.playing - 1 }, Function.update s.players id none⟩

structure LogInv (sl : SessionLog υ) (l : List (Nat × SlogEntry υ)) : Prop where
  chain : CellChain sl.cells sl.head l
  nodup : (l.map Prod.fst).Nodup
  tail : l ≠ [] → sl.tail = l.getLast?.map Prod.fst
  num : sl.num = l.length
  sorted : l.Pairwise fun x y => x.2.csn.ts ≤ y.2.csn.ts
  sids : ∀ x ∈ l, x.2.sid = x.2.csn.sid
  cookie : DupSort.SortedBy Prod.fst sl.cookie.csns

namespace SessionLog

variable {sl : SessionLog υ} {l : List (Nat × SlogEntry υ)} {n : Nat} {e : SlogEntry υ}

theorem ne_of_free (h : CellChain sl.cells sl.head l) (hn : sl.cells n = none) : ∀ x ∈ l, x.1 ≠ n := by
  intro x hx heq
  obtain ⟨m, hm⟩ := h.cell_of_mem hx
  rw [heq, hn] at hm
  cases hm

theorem findPlace_spec {cells : Nat → Option (Cell (SlogEntry υ))} {csn : Csn} {prev p : Option Nat} (h : CellChain cells p l)
    {fuel : Nat} (hfuel : l.length ≤ fuel) (hex : ∃ x ∈ l, csn.ts < x.2.csn.ts) :
    ∃ u a d w, l = u ++ (a, d) :: w ∧ (∀ x ∈ u, x.2.csn.ts ≤ csn.ts) ∧ csn.ts < d.csn.ts ∧
      findPlace cells csn fuel prev p = some (some ((u.getLast?.map Prod.fst).or prev, a)) := by
  induction l generalizing p prev fuel with
  | nil =>
    obtain ⟨x, hx, -⟩ := hex
    cases hx
  | cons x l ih =>
    obtain ⟨rfl, m, hm, hl⟩ := h
    cases fuel with
    | zero => exact absurd hfuel (by simp)
    | succ fuel =>
      if hlt : csn.ts < x.2.csn.ts then
        refine ⟨[], x.1, x.2, l, rfl, by simp, hlt, ?_⟩
        rw [findPlace, hm]
        exact if_pos (Csn.compareTs_lt.mpr hlt)
      else
        have hex' : ∃ y ∈ l, csn.ts < y.2.csn.ts := by
          obtain ⟨y, hy, hylt⟩ := hex
          cases List.mem_cons.mp hy with
          | inl heq => exact absurd (heq ▸ hylt) hlt
          | inr hy => exact ⟨y, hy, hylt⟩
        obtain ⟨u, a, d, w, hl', hu, hd, hfind⟩ := @ih (some x.1) m hl fuel (Nat.le_of_succ_le_succ hfuel) hex'
        refine ⟨x :: u, a, d, w, by rw [hl', cons_append], ?_, hd, ?_⟩
        · intro y hy
          cases List.mem_cons.mp hy with
          | inl heq => exact heq ▸ not_lt.mp hlt
          | inr hy => exact hu y hy
        · rw [findPlace, hm]
          dsimp only
          rw [if_neg fun hc => hlt (Csn.compareTs_lt.mp hc), hfind]
          cases u with
          | nil => rfl
          | cons z u => simp [List.getLast?_cons]

variable {sl' : SessionLog υ}

theorem logInv_insert {u w : List (Nat × SlogEntry υ)} (h : LogInv sl l) (hn : sl.cells n = none)
    (he : e.sid = e.csn.sid) (hl : l = u ++ w) (hu : ∀ x ∈ u, x.2.csn.ts ≤ e.csn.ts)
    (hw : ∀ x ∈ w, e.csn.ts ≤ x.2.csn.ts) (hchain : CellChain sl'.cells sl'.head (u ++ (n, e) :: w))
    (htail : sl'.tail = (u ++ (n, e) :: w).getLast?.map Prod.fst) (hnum : sl'.num = sl.num)
    (hcookie : DupSort.SortedBy Prod.fst sl'.cookie.csns) : LogInv { sl' with num := sl'.num + 1 } (u ++ (n, e) :: w) := by
  have hperm : (u ++ (n, e) :: w).Perm ((n, e) :: l) := hl ▸ perm_middle
  refine ⟨hchain, ?_, fun _ => htail, ?_, ?_, ?_, hcookie⟩
  · refine (hperm.map Prod.fst).nodup_iff.mpr (List.nodup_cons.mpr ⟨?_, h.nodup⟩)
    intro hmem
    obtain ⟨x, hx, hxn⟩ := List.mem_map.mp hmem
    exact ne_of_free h.chain hn x hx hxn
  · dsimp only
    rw [hnum, h.num, hperm.length_eq, length_cons]
    rfl
  · obtain ⟨hpu, hpw, hcross⟩ := List.pairwise_append.mp (hl ▸ h.sorted)
    refine List.pairwise_append.mpr ⟨hpu, List.pairwise_cons.mpr ⟨hw, hpw⟩, ?_⟩
    intro x hx y hy
    cases List.mem_cons.mp hy with
    | inl heq => exact heq ▸ hu x hx
    | inr hy => exact hcross x hx y hy
  · intro x hx
    cases List.mem_cons.mp (hperm.mem_iff.mp hx) with
    | inl heq => exact heq ▸ he
    | inr hx => exact h.sids x hx

/-- What `insertEntry` leaves: the new record is somewhere in the list, and everything else of the log stays, but for the
first cookie. -/
def Inserted (sl sl' : SessionLog υ) (l : List (Nat × SlogEntry υ)) (n : Nat) (e : SlogEntry υ) : Prop :=
  ∃ u w, l = u ++ w ∧ LogInv { sl' with num := sl'.num + 1 } (u ++ (n, e) :: w) ∧ sl'.playing = sl.playing ∧
    sl'.size = sl.size ∧ ∀ sid c, sl.cookie.at? sid = some c → sl'.cookie.at? sid = some c

theorem insertEntry_nil (h : LogInv sl []) (hn : sl.cells n = none) (he : e.sid = e.csn.sid) (fuel : Nat) :
    ∃ sl', insertEntry fuel sl n e = some sl' ∧ Inserted sl sl' [] n e := by
  have hhead : sl.head = none := h.chain
  unfold insertEntry
  rw [hhead]
  refine ⟨_, rfl, [], [], rfl, ?_, rfl, rfl, ?_⟩
  · refine logInv_insert h hn he rfl (by simp) (by simp) ⟨rfl, none, update_self _ _ _, rfl⟩ rfl rfl ?_
    dsimp only
    split_ifs
    · exact pairwise_singleton _ _
    · exact h.cookie
  · intro sid c hc
    dsimp only
    split_ifs with hnil
    · have hnone : sl.cookie.at? sid = none := by
        unfold at?
        rw [hnil]
        rfl
      rw [hnone] at hc
      cases hc
    · exact hc

theorem inserted_last {u : List (Nat × SlogEntry υ)} {t : Nat} {d : SlogEntry υ} (h : LogInv sl (u ++ [(t, d)]))
    (hn : sl.cells n = none) (he : e.sid = e.csn.sid) (hle : d.csn.ts ≤ e.csn.ts) :
    Inserted sl { sl with
      cells := Function.update (Function.update sl.cells n (some ⟨none, e⟩)) t (some ⟨some n, d⟩), tail := some n }
      (u ++ [(t, d)]) n e := by
  obtain ⟨m, hm, hmnil⟩ := h.chain.suffix
  have hins := @CellChain.insert_after _ _ _ _ _ _ _ _ e _ h.chain h.nodup (ne_of_free h.chain hn) hm
  rw [show m = none from hmnil] at hins
  have hu : ∀ x ∈ u ++ [(t, d)], x.2.csn.ts ≤ e.csn.ts := by
    intro x hx
    cases List.mem_append.mp hx with
    | inl hx => exact ((List.pairwise_append.mp h.sorted).2.2 x hx _ mem_cons_self).trans hle
    | inr hx => exact List.mem_singleton.mp hx ▸ hle
  refine ⟨u ++ [(t, d)], [], (List.append_nil _).symm, ?_, rfl, rfl, fun _ _ hc => hc⟩
  refine logInv_insert h hn he (List.append_nil _).symm hu (by simp) ?_ (by simp) rfl h.cookie
  rw [append_assoc]
  exact hins

theorem inserted_before {u w : List (Nat × SlogEntry υ)} {a : Nat} {d : SlogEntry υ} (h : LogInv sl (u ++ (a, d) :: w))
    (hn : sl.cells n = none) (he : e.sid = e.csn.sid) (hu : ∀ x ∈ u, x.2.csn.ts ≤ e.csn.ts) (hlt : e.csn.ts < d.csn.ts) :
    ∃ sl', link sl n e (some ((u.getLast?.map Prod.fst).or none, a)) = some sl' ∧ Inserted sl sl' (u ++ (a, d) :: w) n e := by
  have hw : ∀ x ∈ (a, d) :: w, e.csn.ts ≤ x.2.csn.ts := by
    intro x hx
    cases List.mem_cons.mp hx with
    | inl heq => exact heq ▸ hlt.le
    | inr hx => exact hlt.le.trans ((List.pairwise_cons.mp (List.pairwise_append.mp h.sorted).2.1).1 x hx)
  have htail : sl.tail = (u ++ (n, e) :: (a, d) :: w).getLast?.map Prod.fst := by
    rw [h.tail (by simp), List.getLast?_append_of_ne_nil _ (by simp), List.getLast?_append_of_ne_nil _ (by simp),
      List.getLast?_cons_cons]
  cases u using List.reverseRecOn with
  | nil =>
    have hc : CellChain sl.cells (some a) ((a, d) :: w) := h.chain.1 ▸ h.chain
    refine ⟨_, rfl, [], _, rfl, ?_, rfl, rfl, fun _ _ hc => hc⟩
    exact logInv_insert h hn he rfl hu hw (hc.push (ne_of_free h.chain hn)) htail rfl h.cookie
  | append_singleton v b _ =>
    obtain ⟨b, bd⟩ := b
    have happ : v ++ [(b, bd)] ++ (a, d) :: w = v ++ (b, bd) :: (a, d) :: w := by simp
    obtain ⟨m, hm, hcb⟩ := (happ ▸ h.chain : CellChain sl.cells sl.head (v ++ (b, bd) :: (a, d) :: w)).suffix
    have hins := @CellChain.insert_after _ _ _ _ _ _ n _ e _ (happ ▸ h.chain) (happ ▸ h.nodup)
      (happ ▸ ne_of_free h.chain hn) hm
    rw [show m = some a from hcb.1] at hins
    refine ⟨{ sl with
      cells := Function.update (Function.update sl.cells n (some ⟨some a, e⟩)) b (some ⟨some n, bd⟩) }, ?_, v ++ [(b, bd)],
      _, rfl, ?_, rfl, rfl, fun _ _ hc => hc⟩
    · simp [link, hm]
    · refine logInv_insert h hn he rfl hu hw ?_ htail rfl h.cookie
      rw [append_assoc]
      exact hins

theorem insertEntry_spec (h : LogInv sl l) (hn : sl.cells n = none) (he : e.sid = e.csn.sid) {fuel : Nat}
    (hfuel : l.length ≤ fuel) : ∃ sl', insertEntry fuel sl n e = some sl' ∧ Inserted sl sl' l n e := by
  cases l using List.reverseRecOn with
  | nil => exact insertEntry_nil h hn he fuel
  | append_singleton u t _ =>
    obtain ⟨t, d⟩ := t
    have htail : sl.tail = some t := by
      rw [h.tail (by simp)]
      simp
    obtain ⟨m, hm, -⟩ := h.chain.suffix
    unfold insertEntry
    split
    · rw [htail]
      dsimp only
      rw [hm]
      dsimp only
      if hle : slapCsnCompareTs d.csn.text e.csn.text ≠ .gt then
        rw [if_pos hle]
        exact ⟨_, rfl, inserted_last h hn he (not_lt.mp fun hlt => hle (Csn.compareTs_gt.mpr hlt))⟩
      else
        have hgt : e.csn.ts < d.csn.ts := Csn.compareTs_gt.mp (not_not.mp hle)
        obtain ⟨v, b, c, w, hl, hv, hc, hfind⟩ :=
          @findPlace_spec _ _ _ e.csn none _ h.chain fuel hfuel ⟨(t, d), by simp, hgt⟩
        rw [if_neg hle, hfind, Option.bind_some, hl]
        exact inserted_before (hl ▸ h) hn he hv hc
    · rename_i hhead
      exact absurd (CellChain.nil_iff.mp (hhead ▸ h.chain)) (by simp)

/-- A record that may be dropped: the cookie has its server with a CSN that is not older. -/
def Covers (cookie : SyncCookie) (e : SlogEntry υ) : Prop := ∃ c, cookie.at? e.sid = some c ∧ e.csn.ts ≤ c.ts

def Advanced (old new : SyncCookie) : Prop := ∀ sid c, old.at? sid = some c → ∃ c', new.at? sid = some c' ∧ c.ts ≤ c'.ts

theorem Advanced.refl (c : SyncCookie) : Advanced c c := fun _ c hc => ⟨c, hc, le_refl _⟩

theorem Advanced.trans {c₁ c₂ c₃ : SyncCookie} (h₁ : Advanced c₁ c₂) (h₂ : Advanced c₂ c₃) : Advanced c₁ c₃ := by
  intro sid c hc
  obtain ⟨c', hc', hle⟩ := h₁ sid c hc
  obtain ⟨c'', hc'', hle'⟩ := h₂ sid c' hc'
  exact ⟨c'', hc'', hle.trans hle'⟩

theorem Covers.advance {c₁ c₂ : SyncCookie} (h : Covers c₁ e) (hadv : Advanced c₁ c₂) : Covers c₂ e := by
  obtain ⟨c, hc, hle⟩ := h
  obtain ⟨c', hc', hle'⟩ := hadv _ c hc
  exact ⟨c', hc', hle.trans hle'⟩

theorem forget_eq (cookie : SyncCookie) (e : SlogEntry υ) :
    forget cookie e = (mergeRound (cookie, none) (e.sid, e.csn)).1 := by
  unfold forget mergeRound
  dsimp only
  cases cookie.csns[scanSid e.sid cookie.csns]? with
  | none => rfl
  | some p =>
    have hswap : slapCsnCompareTs p.2.text e.csn.text = .lt ↔ slapCsnCompareTs e.csn.text p.2.text = .gt := by
      rw [Csn.compareTs_lt, Csn.compareTs_gt]
    dsimp only
    if hs : e.sid = p.1 then
      rw [if_neg (not_not_intro hs.symm), if_pos hs]
      if hlt : slapCsnCompareTs p.2.text e.csn.text = .lt then
        rw [if_pos hlt, if_pos (hswap.mp hlt)]
      else
        rw [if_neg hlt, if_neg fun hgt => hlt (hswap.mpr hgt)]
    else
      rw [if_pos fun heq => hs heq.symm, if_neg hs]

theorem forget_spec {cookie : SyncCookie} (h : DupSort.SortedBy Prod.fst cookie.csns) (e : SlogEntry υ) :
    DupSort.SortedBy Prod.fst (forget cookie e).csns ∧ Advanced cookie (forget cookie e) ∧ Covers (forget cookie e) e := by
  obtain ⟨hsorted, hat⟩ := mergeRound_spec h e.sid e.csn none
  rw [← forget_eq] at hsorted hat
  have hnewest : ∀ old : Option Csn, ∃ c, newest old (some e.csn) = some c ∧ e.csn.ts ≤ c.ts ∧
      ∀ o, old = some o → o.ts ≤ c.ts := by
    intro old
    cases old with
    | none => exact ⟨e.csn, rfl, le_refl _, fun _ ho => by cases ho⟩
    | some o =>
      if hlt : o.ts < e.csn.ts then
        refine ⟨e.csn, if_pos hlt, le_refl _, ?_⟩
        intro o' ho
        cases ho
        exact hlt.le
      else
        refine ⟨o, if_neg hlt, not_lt.mp hlt, ?_⟩
        intro o' ho
        cases ho
        exact le_refl _
  obtain ⟨c, hc, hle, hold⟩ := hnewest (cookie.at? e.sid)
  refine ⟨hsorted, ?_, c, by rw [hat, if_pos rfl, hc], hle⟩
  intro sid o ho
  if hs : sid = e.sid then
    exact ⟨c, by rw [hat, if_pos hs, hs, hc], hold o (hs ▸ ho)⟩
  else
    exact ⟨o, by rw [hat, if_neg hs, ho], le_refl _⟩

theorem trim_spec {u w : List (Nat × SlogEntry υ)} (h : LogInv sl (u ++ w)) :
    ∃ sl', trim u.length sl = some sl' ∧ LogInv sl' w ∧ sl'.playing = sl.playing ∧ sl'.size = sl.size ∧
      Advanced sl.cookie sl'.cookie ∧ ∀ x ∈ u, Covers sl'.cookie x.2 := by
  induction u generalizing sl with
  | nil => exact ⟨sl, rfl, h, rfl, rfl, .refl _, by simp⟩
  | cons x u ih =>
    obtain ⟨a, d⟩ := x
    obtain ⟨m, hm, hpop⟩ := h.chain.pop h.nodup
    obtain ⟨hsorted, hadv, hcov⟩ := forget_spec h.cookie d
    have hstep : LogInv { sl with
        head := m, cookie := forget sl.cookie d, cells := Function.update sl.cells a none, num := sl.num - 1 } (u ++ w) := by
      refine ⟨hpop, (List.nodup_cons.mp h.nodup).2, ?_, ?_, (List.pairwise_cons.mp h.sorted).2,
        fun y hy => h.sids y (mem_cons_of_mem _ hy), hsorted⟩
      · intro hne
        rw [h.tail (by simp), cons_append]
        cases hl : u ++ w with
        | nil => exact absurd hl hne
        | cons y l => rw [List.getLast?_cons_cons]
      · have := h.num
        dsimp only
        rw [cons_append, length_cons] at this
        omega
    obtain ⟨sl', hrun, hinv, hplay, hsize, hadv', hcov'⟩ := ih hstep
    refine ⟨sl', ?_, hinv, hplay, hsize, hadv.trans hadv', ?_⟩
    · rw [length_cons, trim, h.chain.1]
      dsimp only
      rw [hm]
      exact hrun
    · intro y hy
      cases List.mem_cons.mp hy with
      | inl heq => exact heq ▸ hcov.advance hadv'
      | inr hy => exact hcov' y hy

theorem findPlace_mono {cells : Nat → Option (Cell (SlogEntry υ))} {csn : Csn} {fuel fuel' : Nat} {prev p : Option Nat}
    {r : Option (Option Nat × Nat)} (h : findPlace cells csn fuel prev p = some r) (hle : fuel ≤ fuel') :
    findPlace cells csn fuel' prev p = some r := by
  induction fuel generalizing prev p fuel' with
  | zero =>
    cases p with
    | none =>
      rw [findPlace] at h ⊢
      exact h
    | some a =>
      rw [findPlace] at h
      cases h
  | succ fuel ih =>
    cases p with
    | none =>
      rw [findPlace] at h ⊢
      exact h
    | some a =>
      obtain ⟨k, rfl⟩ := Nat.exists_eq_add_of_le' (Nat.le_of_succ_le hle : fuel ≤ fuel')
      cases k with
      | zero => exact absurd hle (by omega)
      | succ k =>
        rw [show k + 1 + fuel = (k + fuel) + 1 by omega, findPlace]
        rw [findPlace] at h
        cases hc : cells a with
        | none =>
          rw [hc] at h
          cases h
        | some c =>
          rw [hc] at h
          dsimp only at h ⊢
          split_ifs at h ⊢
          · exact h
          · exact ih h (by omega)

theorem insertEntry_mono {fuel fuel' : Nat} (h : insertEntry fuel sl n e = some sl') (hle : fuel ≤ fuel') :
    insertEntry fuel' sl n e = some sl' := by
  unfold insertEntry at h ⊢
  split at h
  · split at h
    · cases h
    · split at h
      · cases h
      · split_ifs at h ⊢
        · exact h
        · obtain ⟨r, hr, hlink⟩ := Option.bind_eq_some_iff.mp h
          rw [findPlace_mono hr hle]
          exact hlink
  · exact h

/-- `syncprov_add_slog` with a CSN: what is in the list, and what has been dropped. -/
structure Added (sl sl' : SessionLog υ) (l : List (Nat × SlogEntry υ)) (n : Nat) (e : SlogEntry υ)
    (u w dropped kept : List (Nat × SlogEntry υ)) : Prop where
  split : l = u ++ w
  whole : u ++ (n, e) :: w = dropped ++ kept
  inv : LogInv sl' kept
  playing : sl'.playing = sl.playing
  size : sl'.size = sl.size
  all : sl.playing ≠ 0 → dropped = []
  some : 1 ≤ sl.size → kept ≠ []
  advanced : Advanced sl.cookie sl'.cookie
  covers : ∀ x ∈ dropped, Covers sl'.cookie x.2

theorem addSlog_spec (h : LogInv sl l) (hn : sl.cells n = none) (he : e.sid = e.csn.sid) (hsize : 0 ≤ sl.size) {fuel : Nat}
    (hfuel : l.length ≤ fuel) :
    ∃ sl' u w dropped kept, syncprovAddSlog fuel sl n e = some sl' ∧ Added sl sl' l n e u w dropped kept := by
  obtain ⟨sl₁, hrun, u, w, hl, hinv, hplay, hsz, hcookie⟩ := insertEntry_spec h hn he hfuel
  have hadv : Advanced sl.cookie sl₁.cookie := fun sid c hc => ⟨c, hcookie sid c hc, le_refl _⟩
  unfold syncprovAddSlog
  rw [hrun, Option.bind_some]
  dsimp only
  if hp : sl₁.playing = 0 then
    rw [if_pos hp]
    have hnum : sl₁.num + 1 = (u ++ (n, e) :: w).length := hinv.num
    have hsplit := take_append_drop (sl₁.num + 1 - sl₁.size).toNat (u ++ (n, e) :: w)
    have hlen : ((u ++ (n, e) :: w).take (sl₁.num + 1 - sl₁.size).toNat).length = (sl₁.num + 1 - sl₁.size).toNat := by
      rw [length_take]
      omega
    obtain ⟨sl₂, htrim, hinv₂, hplay₂, hsize₂, hadv₂, hcov⟩ := trim_spec (hsplit.symm ▸ hinv)
    rw [hlen] at htrim
    refine ⟨sl₂, u, w, _, _, htrim, hl, hsplit.symm, hinv₂, hplay₂.trans hplay, hsize₂.trans hsz, ?_, ?_,
      hadv.trans hadv₂, hcov⟩
    · exact fun hne => absurd (hplay ▸ hp) hne
    · intro hone hnil
      have hzero := congrArg List.length hnil
      have hpos : 0 < (u ++ (n, e) :: w).length := List.length_pos_iff.mpr (by simp)
      rw [length_drop, length_nil] at hzero
      omega
  else
    rw [if_neg hp]
    exact ⟨_, u, w, [], _, rfl, hl, rfl, hinv, hplay, hsz, fun _ => rfl, by simp, hadv, by simp⟩

theorem addSlog_run (h : LogInv sl l) (hn : sl.cells n = none) (he : e.sid = e.csn.sid) (hsize : 0 ≤ sl.size) {fuel : Nat} (hrun : syncprovAddSlog fuel sl n e = some sl') :
    ∃ u w dropped kept, Added sl sl' l n e u w dropped kept := by
  obtain ⟨sl'', u, w, dropped, kept, hrun', hadded⟩ := addSlog_spec h hn he hsize (le_max_right fuel l.length)
  unfold syncprovAddSlog at hrun hrun'
  obtain ⟨sl₁, h₁, h₂⟩ := Option.bind_eq_some_iff.mp hrun
  rw [insertEntry_mono h₁ (le_max_left fuel l.length), Option.bind_some, h₂] at hrun'
  cases hrun'
  exact ⟨u, w, dropped, kept, hadded⟩

theorem freeAll_run {fuel : Nat} (hrun : freeAll fuel sl = some sl') :
    sl'.head = none ∧ sl'.playing = sl.playing ∧ sl'.size = sl.size ∧ sl'.cookie = sl.cookie := by
  induction fuel generalizing sl with
  | zero => cases hrun
  | succ fuel ih =>
    rw [freeAll] at hrun
    split at hrun
    · rename_i hhead
      cases hrun
      exact ⟨hhead, rfl, rfl, rfl⟩
    · split at hrun
      · cases hrun
      · have hrest := ih hrun
        exact hrest

theorem freeAll_some (h : CellChain sl.cells sl.head l) (hnd : (l.map Prod.fst).Nodup) {fuel : Nat} (hfuel : l.length < fuel) :
    (freeAll fuel sl).isSome = true := by
  cases fuel with
  | zero => exact absurd hfuel (Nat.not_lt_zero _)
  | succ fuel =>
    induction l generalizing sl fuel with
    | nil =>
      rw [freeAll, show sl.head = none from h]
      rfl
    | cons x l ih =>
      obtain ⟨m, hm, hpop⟩ := h.pop hnd
      rw [freeAll, h.1]
      dsimp only
      rw [hm]
      cases fuel with
      | zero => exact absurd hfuel (by simp)
      | succ fuel =>
        exact @ih { sl with head := m, cells := Function.update sl.cells x.1 none } hpop (List.nodup_cons.mp hnd).2 fuel
          (by simpa using hfuel)

theorem wipeSlog_run (h : LogInv sl l) {fuel : Nat} (hrun : wipeSlog fuel sl = some sl') (hplay : sl.playing = 0) :
    LogInv sl' [] ∧ sl'.tail = none ∧ sl'.playing = 0 ∧ sl'.size = sl.size ∧ sl'.cookie = sl.cookie := by
  unfold wipeSlog at hrun
  rw [if_pos hplay] at hrun
  obtain ⟨sl₁, hfree, rfl⟩ := Option.map_eq_some_iff.mp hrun
  obtain ⟨hhead, hp, hs, hc⟩ := freeAll_run hfree
  refine ⟨⟨hhead, nodup_nil, fun hne => absurd rfl hne, rfl, List.Pairwise.nil, by simp, hc ▸ h.cookie⟩, rfl,
    hp.trans hplay, hs, hc⟩

theorem wipeSlog_some (h : LogInv sl l) : ∃ fuel sl', wipeSlog fuel sl = some sl' := by
  unfold wipeSlog
  if hplay : sl.playing = 0 then
    obtain ⟨sl', hrun⟩ := Option.isSome_iff_exists.mp (freeAll_some h.chain h.nodup (Nat.lt_succ_self l.length))
    exact ⟨_, _, by rw [if_pos hplay, hrun]; rfl⟩
  else
    exact ⟨0, _, by rw [if_neg hplay]; rfl⟩

end SessionLog
/-! ## The players -/

def Player.takes (p : Player υ) (e : SlogEntry υ) : Bool := !p.tooOld e && !p.tooNew e && e.tag ≠ .add

/-- The player has `seen` behind it and `rest` before it. -/
def At (seen rest : List (Nat × SlogEntry υ)) : Phase → Prop
  | .head => seen = []
  | .body a => ∃ e w, rest = (a, e) :: w
  | .next a => ∃ u e, seen = u ++ [(a, e)]
  | .done => rest = []

/-- The slots are enough for what the player has copied and what it is going to copy. -/
def PlayerInv (l : List (Nat × SlogEntry υ)) (p : Player υ) : Prop :=
  ∃ seen rest, l = seen ++ rest ∧ At seen rest p.phase ∧ p.ndel + p.nmods + rest.countP (fun x => p.takes x.2) ≤ p.num

def Room (l : List (Nat × SlogEntry υ)) (p : Player υ) : Prop :=
  ∀ seen rest, l = seen ++ rest → At seen rest p.phase → p.ndel + p.nmods + rest.countP (fun x => p.takes x.2) < p.num

section

variable {sl : SessionLog υ} {l u w : List (Nat × SlogEntry υ)} {p : Player υ} {n : Nat} {e : SlogEntry υ}

theorem visit_spec (p : Player υ) (a : Nat) (e : SlogEntry υ) :
    (p.visit a e).num = p.num ∧ (p.visit a e).consumer = p.consumer ∧ (p.visit a e).ctxcsn = p.ctxcsn ∧
    (p.visit a e).ndel + (p.visit a e).nmods = p.ndel + p.nmods + (if p.takes e = true then 1 else 0) ∧
    ((p.visit a e).phase = .next a ∨ (p.visit a e).phase = .done ∧ p.tooOld e = false ∧ p.tooNew e = true) := by
  unfold Player.visit Player.takes
  cases hold : p.tooOld e with
  | true => simp
  | false =>
    cases hnew : p.tooNew e with
    | true => simp
    | false =>
      cases htag : e.tag <;> simp <;> omega

theorem takes_congr {p' : Player υ} (hc : p'.consumer = p.consumer) (hx : p'.ctxcsn = p.ctxcsn) (e : SlogEntry υ) :
    p'.takes e = p.takes e := by
  unfold Player.takes Player.tooOld Player.tooNew
  rw [hc, hx]

theorem at_atPtr {seen rest : List (Nat × SlogEntry υ)} {ptr : Option Nat} (h : CellChain sl.cells ptr rest) :
    At seen rest (atPtr ptr) := by
  cases rest with
  | nil =>
    rw [show ptr = none from h]
    rfl
  | cons x rest =>
    rw [h.1]
    exact ⟨x.2, rest, rfl⟩

theorem PlayerInv.round (h : CellChain sl.cells sl.head l) (hp : PlayerInv l p) :
    ∃ p', playRound sl p = some p' ∧ PlayerInv l p' := by
  obtain ⟨seen, rest, hl, hat, hslots⟩ := hp
  unfold playRound
  cases hphase : p.phase with
  | head =>
    rw [hphase] at hat
    have hseen : seen = [] := hat
    rw [hl, hseen] at h
    exact ⟨_, rfl, seen, rest, hl, at_atPtr h, hslots⟩
  | body a =>
    rw [hphase] at hat
    obtain ⟨e, w, hrest⟩ := hat
    rw [hl, hrest] at h
    obtain ⟨m, hm, -⟩ := h.suffix
    obtain ⟨hnum, hc, hx, hcount, hnext⟩ := visit_spec p a e
    dsimp only
    rw [hm]
    refine ⟨p.visit a e, rfl, ?_⟩
    rw [hrest, countP_cons] at hslots
    dsimp only at hslots
    have htakes : (fun x : Nat × SlogEntry υ => (p.visit a e).takes x.2) = fun x => p.takes x.2 :=
      funext fun x => takes_congr hc hx x.2
    obtain hnext | ⟨hdone, -, -⟩ := hnext
    · refine ⟨seen ++ [(a, e)], w, by rw [hl, hrest]; simp, ?_, ?_⟩
      · rw [hnext]
        exact ⟨seen, e, rfl⟩
      · rw [htakes, hnum]
        omega
    · refine ⟨l, [], (List.append_nil l).symm, ?_, ?_⟩
      · rw [hdone]
        rfl
      · rw [hnum, countP_nil]
        omega
  | next a =>
    rw [hphase] at hat
    obtain ⟨u, e, hseen⟩ := hat
    rw [hl, hseen, append_assoc] at h
    obtain ⟨m, hm, hrest⟩ := h.suffix
    dsimp only
    rw [hm]
    exact ⟨_, rfl, seen, rest, hl, at_atPtr hrest, hslots⟩
  | done =>
    refine ⟨p, rfl, seen, rest, hl, ?_, hslots⟩
    exact hat

theorem At.insert {seen rest : List (Nat × SlogEntry υ)} {phase : Phase} (h : At seen rest phase)
    (hl : u ++ w = seen ++ rest) :
    ∃ seen' rest', u ++ (n, e) :: w = seen' ++ rest' ∧ At seen' rest' phase ∧
      (rest' = rest ∨ phase ≠ .done ∧ ∃ v z, rest = v ++ z ∧ rest' = v ++ (n, e) :: z) := by
  -- right between what is behind and what is before
  have hmid : ∃ seen' rest', seen ++ (n, e) :: rest = seen' ++ rest' ∧ At seen' rest' phase ∧
      (rest' = rest ∨ phase ≠ .done ∧ ∃ v z, rest = v ++ z ∧ rest' = v ++ (n, e) :: z) := by
    cases phase with
    | head => exact ⟨seen, (n, e) :: rest, rfl, h, .inr ⟨by simp, [], rest, rfl, rfl⟩⟩
    | body a => exact ⟨seen ++ [(n, e)], rest, by simp, h, .inl rfl⟩
    | next a => exact ⟨seen, (n, e) :: rest, rfl, h, .inr ⟨by simp, [], rest, rfl, rfl⟩⟩
    | done => exact ⟨seen ++ [(n, e)], rest, by simp, h, .inl rfl⟩
  obtain ⟨v, hseen, hw⟩ | ⟨v, hu, hrest⟩ := List.append_eq_append_iff.mp hl
  · cases v using List.reverseRecOn with
    | nil =>
      rw [List.append_nil] at hseen
      rw [hw, List.nil_append, ← hseen]
      exact hmid
    | append_singleton v x _ =>
      refine ⟨u ++ (n, e) :: (v ++ [x]), rest, by rw [hw]; simp, ?_, .inl rfl⟩
      cases phase with
      | head => exact absurd (hseen.symm.trans h) (by simp)
      | body a => exact h
      | next a =>
        obtain ⟨u', e', hlast⟩ := h
        have hx : x = (a, e') := by
          have := congrArg List.getLast? (hseen.symm.trans hlast)
          simpa using this
        exact ⟨u ++ (n, e) :: v, e', by rw [hx]; simp⟩
      | done => exact h
  · cases v with
    | nil =>
      rw [List.append_nil] at hu
      rw [List.nil_append] at hrest
      rw [hu, ← hrest]
      exact hmid
    | cons x v =>
      refine ⟨seen, x :: v ++ (n, e) :: w, by rw [hu]; simp, ?_, .inr ⟨?_, x :: v, w, hrest, rfl⟩⟩
      · cases phase with
        | head => exact h
        | body a =>
          obtain ⟨e', w', hr⟩ := h
          have hx : x = (a, e') := head_eq_of_cons_eq (hrest.symm.trans hr)
          exact ⟨e', v ++ (n, e) :: w, by rw [hx]; rfl⟩
        | next a => exact h
        | done => exact absurd (hrest.symm.trans h) (by simp)
      · intro hdone
        rw [hdone] at h
        exact absurd (hrest.symm.trans h) (by simp)

theorem slots_insert {rest rest' : List (Nat × SlogEntry υ)}
    (hcase : rest' = rest ∨ p.phase ≠ .done ∧ ∃ v z, rest = v ++ z ∧ rest' = v ++ (n, e) :: z)
    (hslots : p.ndel + p.nmods + rest.countP (fun x => p.takes x.2) ≤ p.num)
    (hroom : p.phase ≠ .done → p.takes e = true → p.ndel + p.nmods + rest.countP (fun x => p.takes x.2) < p.num) :
    p.ndel + p.nmods + rest'.countP (fun x => p.takes x.2) ≤ p.num := by
  obtain heq | ⟨hphase, v, z, hrest, hrest'⟩ := hcase
  · rw [heq]
    exact hslots
  · have hcount : rest'.countP (fun x => p.takes x.2) =
        rest.countP (fun x => p.takes x.2) + if p.takes e = true then 1 else 0 := by
      rw [hrest, hrest', countP_append, countP_append, countP_cons]
      dsimp only
      omega
    rw [hcount]
    split_ifs with htakes
    · exact hroom hphase htakes
    · exact hslots

theorem PlayerInv.insert (h : PlayerInv (u ++ w) p) (hroom : p.phase ≠ .done → p.takes e = true → Room (u ++ w) p) :
    PlayerInv (u ++ (n, e) :: w) p := by
  obtain ⟨seen, rest, hl, hat, hslots⟩ := h
  obtain ⟨seen', rest', hl', hat', hcase⟩ := @At.insert _ _ _ n e _ _ _ hat hl
  exact ⟨seen', rest', hl', hat', slots_insert hcase hslots fun hphase htakes => hroom hphase htakes seen rest hl hat⟩

end

structure PlayInv (s : Playing ι υ) (l : List (Nat × SlogEntry υ)) : Prop where
  log : LogInv s.log l
  size : 0 ≤ s.log.size
  count : ∃ ids : Finset ι, (∀ id, id ∈ ids ↔ (s.players id).isSome = true) ∧ s.log.playing = ids.card
  players : ∀ id p, s.players id = some p → PlayerInv l p

/-- The steps that keep the representation. A log is not wiped under a player, and while a player copies, no record comes
that it would copy too, unless a slot is left for it. -/
def Harmless (s : Playing ι υ) : SlogAct ι υ → Prop
  | .add _ e => ∀ id p, s.players id = some p → p.phase ≠ .done → p.takes e = true →
      ∀ l, CellChain s.log.cells s.log.head l → Room l p
  | .wipe => s.log.playing = 0
  | _ => True

section

variable [DecidableEq ι] {s s' : Playing ι υ} {l : List (Nat × SlogEntry υ)}

omit [DecidableEq ι] in
theorem PlayInv.no_players (h : PlayInv s l) (h0 : s.log.playing = 0) (id : ι) : s.players id = none := by
  obtain ⟨ids, hids, hcard⟩ := h.count
  rw [h0] at hcard
  have hempty : ids = ∅ := Finset.card_eq_zero.mp (by exact_mod_cast hcard.symm)
  cases hp : s.players id with
  | none => rfl
  | some p =>
    have := (hids id).mpr (by rw [hp]; rfl)
    rw [hempty] at this
    exact absurd this (Finset.notMem_empty id)

omit [DecidableEq ι] in
theorem PlayInv.add {n : Nat} {e : SlogEntry υ} {sl : SessionLog υ} {u w dropped kept : List (Nat × SlogEntry υ)}
    (h : PlayInv s l) (hok : Harmless s (.add n e)) (hadd : SessionLog.Added s.log sl l n e u w dropped kept) :
    PlayInv { s with log := sl } kept := by
  refine ⟨hadd.inv, hadd.size ▸ h.size, hadd.playing ▸ h.count, ?_⟩
  intro id p hp
  have hplay : s.log.playing ≠ 0 := by
    intro h0
    rw [h.no_players h0 id] at hp
    cases hp
  have hkept : kept = u ++ (n, e) :: w := by
    have := hadd.whole
    rw [hadd.all hplay] at this
    exact this.symm
  rw [hkept]
  refine PlayerInv.insert (hadd.split ▸ h.players id p hp) ?_
  intro hphase htakes
  exact hadd.split ▸ hok id p hp hphase htakes l h.log.chain

theorem PlayInv.play {id : ι} {consumer ctxcsn : List (Nat × Csn)} (h : PlayInv s l) (hnone : s.players id = none) :
    PlayInv ⟨{ s.log with playing := s.log.playing + 1 },
      Function.update s.players id (some (newPlayer s.log.num.toNat consumer ctxcsn))⟩ l := by
  obtain ⟨ids, hids, hcard⟩ := h.count
  have hfresh : id ∉ ids := by
    intro hid
    have := (hids id).mp hid
    rw [hnone] at this
    cases this
  refine ⟨⟨h.log.chain, h.log.nodup, h.log.tail, h.log.num, h.log.sorted, h.log.sids, h.log.cookie⟩, h.size, ?_, ?_⟩
  · refine ⟨Insert.insert id ids, ?_, ?_⟩
    · intro j
      rw [Finset.mem_insert, hids]
      if hj : j = id then
        rw [hj]
        simp
      else
        simp [hj]
    · rw [Finset.card_insert_of_notMem hfresh, hcard]
      rfl
  · intro j p hp
    if hj : j = id then
      rw [hj] at hp
      dsimp only at hp
      rw [update_self] at hp
      cases hp
      refine ⟨[], l, rfl, rfl, ?_⟩
      have hle := @countP_le_length _ (fun x : Nat × SlogEntry υ =>
        (newPlayer s.log.num.toNat consumer ctxcsn : Player υ).takes x.2) l
      have hnum := h.log.num
      show 0 + 0 + _ ≤ s.log.num.toNat
      omega
    else
      dsimp only at hp
      rw [update_of_ne hj] at hp
      exact h.players j p hp

theorem PlayInv.round {id : ι} {p p' : Player υ} (h : PlayInv s l) (hp : s.players id = some p)
    (hround : playRound s.log p = some p') : PlayInv { s with players := Function.update s.players id (some p') } l := by
  obtain ⟨p'', hround', hinv⟩ := (h.players id p hp).round h.log.chain
  rw [hround] at hround'
  cases hround'
  obtain ⟨ids, hids, hcard⟩ := h.count
  refine ⟨h.log, h.size, ⟨ids, ?_, hcard⟩, ?_⟩
  · intro j
    rw [hids]
    if hj : j = id then
      rw [hj, hp]
      simp
    else
      simp [hj]
  · intro j q hq
    dsimp only at hq
    if hj : j = id then
      rw [hj, update_self] at hq
      cases hq
      exact hinv
    else
      rw [update_of_ne hj] at hq
      exact h.players j q hq

theorem PlayInv.finish {id : ι} {p : Player υ} (h : PlayInv s l) (hp : s.players id = some p) :
    PlayInv ⟨{ s.log with playing := s.log.playing - 1 }, Function.update s.players id none⟩ l := by
  obtain ⟨ids, hids, hcard⟩ := h.count
  have hin : id ∈ ids := (hids id).mpr (by rw [hp]; rfl)
  refine ⟨⟨h.log.chain, h.log.nodup, h.log.tail, h.log.num, h.log.sorted, h.log.sids, h.log.cookie⟩, h.size, ?_, ?_⟩
  · refine ⟨ids.erase id, ?_, ?_⟩
    · intro j
      rw [Finset.mem_erase, hids]
      if hj : j = id then
        rw [hj]
        simp
      else
        simp [hj]
    · have hpos : 0 < ids.card := Finset.card_pos.mpr ⟨id, hin⟩
      rw [Finset.card_erase_of_mem hin]
      dsimp only
      omega
  · intro j q hq
    dsimp only at hq
    if hj : j = id then
      rw [hj, update_self] at hq
      cases hq
    else
      rw [update_of_ne hj] at hq
      exact h.players j q hq

omit [DecidableEq ι] in
theorem PlayInv.wipe {fuel : Nat} {sl : SessionLog υ} (h : PlayInv s l) (hplay : s.log.playing = 0)
    (hrun : s.log.wipeSlog fuel = some sl) : PlayInv { s with log := sl } [] := by
  obtain ⟨hinv, -, hplay', hsize, -⟩ := SessionLog.wipeSlog_run h.log hrun hplay
  refine ⟨hinv, hsize ▸ h.size, ?_, ?_⟩
  · obtain ⟨ids, hids, hcard⟩ := h.count
    exact ⟨ids, hids, hplay'.trans (hplay.symm.trans hcard)⟩
  · intro id p hp
    rw [h.no_players hplay id] at hp
    cases hp

theorem PlayInv.step {a : SlogAct ι υ} (h : PlayInv s l) (hok : Harmless s a) (hstep : SlogStep s a s') :
    ∃ l', PlayInv s' l' ∧ s'.log.size = s.log.size ∧ (1 ≤ s.log.size → (l = [] → s.log.tail = none) → l' = [] → s'.log.tail = none) := by
  cases hstep with
  | add hn he hrun =>
    obtain ⟨u, w, dropped, kept, hadd⟩ := SessionLog.addSlog_run h.log hn he h.size hrun
    exact ⟨kept, h.add hok hadd, hadd.size, fun hone _ hnil => absurd hnil (hadd.some hone)⟩
  | wipe hrun =>
    obtain ⟨-, htail, -, hsize, -⟩ := SessionLog.wipeSlog_run h.log hrun hok
    exact ⟨[], h.wipe hok hrun, hsize, fun _ _ _ => htail⟩
  | skip _ => exact ⟨l, h, rfl, fun _ ht => ht⟩
  | play _ hnone => exact ⟨l, h.play hnone, rfl, fun _ ht => ht⟩
  | round hp hround => exact ⟨l, h.round hp hround, rfl, fun _ ht => ht⟩
  | finish hp _ => exact ⟨l, h.finish hp, rfl, fun _ ht => ht⟩

omit [DecidableEq ι] in
theorem PlayInv.start {size : Int} {cookie : SyncCookie} (hsize : 0 ≤ size) (hcookie : DupSort.SortedBy Prod.fst cookie.csns) :
    PlayInv (⟨SessionLog.empty size cookie, fun _ => none⟩ : Playing ι υ) [] :=
  ⟨⟨rfl, nodup_nil, fun hne => absurd rfl hne, rfl, List.Pairwise.nil, by simp, hcookie⟩, hsize, ⟨∅, by simp, rfl⟩,
    by simp⟩

theorem PlayInv.run {size : Int} {cookie : SyncCookie} {acts : List (SlogAct ι υ)} (hsize : 0 ≤ size)
    (hcookie : DupSort.SortedBy Prod.fst cookie.csns)
    (hrun : Steps (fun s a s' => Harmless s a ∧ SlogStep s a s') ⟨SessionLog.empty size cookie, fun _ => none⟩ acts s') :
    ∃ l, PlayInv s' l ∧ s'.log.size = size ∧ (1 ≤ size → l = [] → s'.log.tail = none) := by
  refine hrun.invariant (fun s' => ∃ l, PlayInv s' l ∧ s'.log.size = size ∧ (1 ≤ size → l = [] → s'.log.tail = none)) ?_ ?_
  · intro s a s' ⟨l, hinv, hsz, htail⟩ ⟨hok, hstep⟩
    obtain ⟨l', hinv', hsz', htail'⟩ := hinv.step hok hstep
    exact ⟨l', hinv', hsz'.trans hsz, fun hone => htail' (hsz ▸ hone) (htail hone)⟩
  · exact ⟨[], PlayInv.start hsize hcookie, rfl, fun _ _ => rfl⟩

/-- The log is one list, ordered by time, and no access to it fails; a player never has more records than slots. -/
theorem session_log_representation {size : Int} {cookie : SyncCookie} {acts : List (SlogAct ι υ)} (hsize : 1 ≤ size)
    (hcookie : DupSort.SortedBy Prod.fst cookie.csns)
    (hrun : Steps (fun s a s' => Harmless s a ∧ SlogStep s a s') ⟨SessionLog.empty size cookie, fun _ => none⟩ acts s') :
    (s'.log.head = none ↔ s'.log.tail = none) ∧
    (∃ l, CellChain s'.log.cells s'.log.head l ∧ s'.log.tail = l.getLast?.map Prod.fst ∧ s'.log.num = l.length ∧
      l.Pairwise fun x y => x.2.csn.ts ≤ y.2.csn.ts) ∧
    DupSort.SortedBy Prod.fst s'.log.cookie.csns ∧
    (∀ n e, s'.log.cells n = none → e.sid = e.csn.sid → ∃ fuel sl, s'.log.syncprovAddSlog fuel n e = some sl) ∧
    (∃ fuel sl, s'.log.wipeSlog fuel = some sl) ∧
    (∀ id p, s'.players id = some p → (∃ p', playRound s'.log p = some p') ∧ p.ndel + p.nmods ≤ p.num) := by
  obtain ⟨l, hinv, hsz, hnil⟩ := PlayInv.run (by omega : 0 ≤ size) hcookie hrun
  have htail : s'.log.tail = l.getLast?.map Prod.fst := by
    if hl : l = [] then
      rw [hnil hsize hl, hl]
      rfl
    else
      exact hinv.log.tail hl
  refine ⟨?_, ⟨l, hinv.log.chain, htail, hinv.log.num, hinv.log.sorted⟩, hinv.log.cookie, ?_,
    SessionLog.wipeSlog_some hinv.log, ?_⟩
  · have hchain := hinv.log.chain
    cases l with
    | nil => exact ⟨fun _ => htail, fun _ => hchain⟩
    | cons x l =>
      rw [htail, hchain.1]
      simp
  · intro n e hn he
    obtain ⟨sl, -, -, -, -, hadd, -⟩ := SessionLog.addSlog_spec hinv.log hn he hinv.size (le_refl l.length)
    exact ⟨l.length, sl, hadd⟩
  · intro id p hp
    obtain ⟨p', hround, -⟩ := (hinv.players id p hp).round hinv.log.chain
    obtain ⟨-, rest, -, -, hslots⟩ := hinv.players id p hp
    exact ⟨⟨p', hround⟩, by omega⟩

end

def deleteEntry (csn : Csn) : SlogEntry Nat := slogEntry 0 csn .delete

def newLog (size : Int) : Playing Nat Nat := ⟨SessionLog.empty size ⟨-1, -1, []⟩, fun _ => none⟩

/-- Two deletes are logged and copied. -/
theorem session_log_representation_twoDeletes :
    ∃ s, Steps (fun s a s' => Harmless s a ∧ SlogStep s a s') (newLog 2)
      [.add 0 (deleteEntry firstCsn), .add 1 (deleteEntry otherCsn), .play 0 [] [], .round 0, .round 0] s ∧
      (s.log.head = none ↔ s.log.tail = none) := by
  have hnone : ∀ (s : Playing Nat Nat) (n : Nat) (e : SlogEntry Nat), (∀ id, s.players id = none) →
      Harmless s (.add n e) := by
    intro s n e h id p hp
    rw [h id] at hp
    cases hp
  have hrun : ∃ s, Steps (fun s a s' => Harmless s a ∧ SlogStep s a s') (newLog 2)
      [.add 0 (deleteEntry firstCsn), .add 1 (deleteEntry otherCsn), .play 0 [] [], .round 0, .round 0] s :=
    ⟨_, .cons ⟨hnone _ _ _ fun _ => rfl, @SlogStep.add _ _ _ _ _ 2 _ _ rfl rfl rfl⟩
      (.cons ⟨hnone _ _ _ fun _ => rfl, @SlogStep.add _ _ _ _ _ 2 _ _ rfl rfl rfl⟩
      (.cons ⟨trivial, .play (by decide) rfl⟩ (.cons ⟨trivial, .round rfl rfl⟩ (.cons ⟨trivial, .round rfl rfl⟩ .refl))))⟩
  obtain ⟨s, hrun⟩ := hrun
  exact ⟨s, hrun, (@session_log_representation Nat Nat _ _ 2 ⟨-1, -1, []⟩ _ (by decide) List.Pairwise.nil hrun).1⟩

/-- A log that is wiped under a player loses its tail, and the next operation reads through it; a record that comes while a
player copies gets a slot that is not there; a log of size 0 keeps a tail that is freed. -/
theorem session_log_broken :
    (∃ s : Playing Nat Nat, Steps SlogStep (newLog 2) [.add 0 (deleteEntry firstCsn), .play 0 [] [], .wipe] s ∧
      s.log.head ≠ none ∧ s.log.tail = none ∧ ∀ fuel, s.log.syncprovAddSlog fuel 1 (deleteEntry otherCsn) = none) ∧
    (∃ s : Playing Nat Nat, Steps SlogStep (newLog 2)
      [.add 0 (deleteEntry firstCsn), .play 0 [] [], .round 0, .round 0, .add 1 (deleteEntry otherCsn), .round 0, .round 0] s ∧
      ∃ p, s.players 0 = some p ∧ p.num = 1 ∧ p.ndel + p.nmods = 2) ∧
    (∃ s : Playing Nat Nat, Steps SlogStep (newLog 0) [.add 0 (deleteEntry firstCsn)] s ∧
      s.log.head = none ∧ s.log.tail = some 0 ∧ s.log.cells 0 = none) := by
  refine ⟨⟨_, .cons (@SlogStep.add _ _ _ _ _ 2 _ _ rfl rfl rfl) (.cons (.play (by decide) rfl)
    (.cons (@SlogStep.wipe _ _ _ _ _ 0 rfl) .refl)), ?_⟩, ⟨_, .cons (@SlogStep.add _ _ _ _ _ 2 _ _ rfl rfl rfl)
    (.cons (.play (by decide) rfl) (.cons (.round rfl rfl) (.cons (.round rfl rfl)
    (.cons (@SlogStep.add _ _ _ _ _ 2 _ _ rfl rfl rfl) (.cons (.round rfl rfl) (.cons (.round rfl rfl) .refl)))))), ?_⟩,
    ⟨_, .cons (@SlogStep.add _ _ _ _ _ 2 _ _ rfl rfl rfl) .refl, ?_⟩⟩
  · exact ⟨by simp, rfl, fun _ => rfl⟩
  · exact ⟨_, rfl, rfl, rfl⟩
  · exact ⟨rfl, rfl, rfl⟩

end Sync
end ReOpenLDAP
