import Mathlib.Algebra.Order.Ring.Int
import Mathlib.Data.List.Sort

/-!
# Lib.Paging

A list that is handed out in pages. Its elements have increasing keys, and the cookie of a page is the key of its last
element.
-/

namespace ReOpenLDAP
namespace Paging

open List

variable {α κ ε : Type*}

structure Page (α κ : Type*) where
  items : List α
  cookie : Option κ
deriving DecidableEq

/-- What is added to a page that has the elements `sent`, of which the last one has the key `last`. -/
def fillFrom (key : α → κ) (n : Nat) : List α → κ → List α → Page α κ
  | sent, _, [] => ⟨sent, none⟩
  | sent, last, a :: l => if n ≤ sent.length then ⟨sent, some last⟩ else fillFrom key n (sent ++ [a]) (key a) l

/-- The requests from a cookie on, the first of which has the size `sizes 0`. -/
def session (answer : Nat → Option κ → Except ε (Page α κ)) : Nat → (Nat → Nat) → Option κ → Option (List (Page α κ))
  | 0, _, _ => none
  | fuel + 1, sizes, t =>
    match answer (sizes 0) t with
    | .error _ => none
    | .ok page =>
      match page.cookie with
      | none => some [page]
      | some c => (session answer fuel (fun k => sizes (k + 1)) (some c)).map (page :: ·)

/-- The session from `t` on ends, its pages give `l`, and all but the last have the size that was asked for. -/
def LosslessFrom (answer : Nat → Option κ → Except ε (Page α κ)) (l : List α) (sizes : Nat → Nat) (t : Option κ) : Prop :=
  ∃ fuel pages, session answer fuel sizes t = some pages ∧ pages.flatMap Page.items = l ∧
    ∀ k page, pages[k]? = some page → k + 1 < pages.length → page.items.length = sizes k

/-- The requests are answered from the list `source t`; where there is none, no page is the last one. -/
structure Answers (key : α → κ) (start : κ) (source : Option κ → Except ε (List α))
    (answer : Nat → Option κ → Except ε (Page α κ)) : Prop where
  ok : ∀ n t l, 1 ≤ n → source t = .ok l → answer n t = .ok (fillFrom key n [] start l)
  error : ∀ n t rc page, source t = .error rc → answer n t = .ok page → page.cookie ≠ none

def after [LinearOrder κ] (key : α → κ) (t : Option κ) (l : List α) : List α :=
  match t with
  | none => l
  | some t => l.filter fun a => t < key a

/-- The cookies that a client may get for `l`: all but that of the last element. -/
def Starts (key : α → κ) (l : List α) (t : Option κ) : Prop :=
  t = none ∨ ∃ u a b w, l = u ++ a :: b :: w ∧ t = some (key a)

section

variable {key : α → κ} {n : Nat} {sent l : List α} {last start : κ}

theorem fillFrom_all (h : sent.length + l.length ≤ n) : fillFrom key n sent last l = ⟨sent ++ l, none⟩ := by
  induction l generalizing sent last with
  | nil => rw [List.append_nil]; rfl
  | cons a l ih =>
    rw [length_cons] at h
    have hlen : (sent ++ [a]).length + l.length ≤ n := by simp; omega
    rw [fillFrom, if_neg (by omega), ih hlen, append_assoc]
    rfl

theorem fillFrom_full {u w : List α} {a b : α} (h : sent.length + u.length + 1 = n) :
    fillFrom key n sent last (u ++ a :: b :: w) = ⟨sent ++ u ++ [a], some (key a)⟩ := by
  induction u generalizing sent last with
  | nil =>
    rw [length_nil] at h
    have hlen : n ≤ (sent ++ [a]).length := by simp; omega
    rw [List.nil_append, fillFrom, if_neg (by omega), fillFrom, if_pos hlen, List.append_nil]
  | cons c u ih =>
    rw [length_cons] at h
    have hlen : (sent ++ [c]).length + u.length + 1 = n := by simp; omega
    rw [cons_append, fillFrom, if_neg (by omega), ih hlen]
    simp

theorem fillFrom_last (h : (fillFrom key n sent last l).cookie = none) : (fillFrom key n sent last l).items = sent ++ l := by
  induction l generalizing sent last with
  | nil => exact (List.append_nil sent).symm
  | cons a l ih =>
    unfold fillFrom at h ⊢
    by_cases hn : n ≤ sent.length
    · rw [if_pos hn] at h
      cases h
    · rw [if_neg hn] at h ⊢
      rw [ih h, append_assoc]
      rfl

end

section

variable [LinearOrder κ] {key : α → κ} {start : κ} {source : Option κ → Except ε (List α)}
  {answer : Nat → Option κ → Except ε (Page α κ)} {l : List α}

theorem after_append {u w : List α} {a : α} (hs : (u ++ a :: w).Pairwise fun x y => key x < key y) :
    after key (some (key a)) (u ++ a :: w) = w := by
  obtain ⟨-, hw, huw⟩ := List.pairwise_append.mp hs
  have hu : (u.filter fun x => key a < key x) = [] := by
    rw [filter_eq_nil_iff]
    intro x hx
    have := huw x hx a mem_cons_self
    simpa using this.le
  have hw' : (w.filter fun x => key a < key x) = w := by
    rw [filter_eq_self]
    intro x hx
    simpa using (List.pairwise_cons.mp hw).1 x hx
  have ha : ¬ key a < key a := lt_irrefl _
  simp only [after, filter_append, filter_cons, hu, hw', ha, decide_false]
  rfl

theorem losslessFrom_after (ha : Answers key start source answer) (hs : l.Pairwise fun x y => key x < key y)
    (h : ∀ t, Starts key l t → source t = .ok (after key t l)) {t : Option κ} (ht : Starts key l t)
    {sizes : Nat → Nat} (hsizes : ∀ k, 1 ≤ sizes k) : LosslessFrom answer (after key t l) sizes t := by
  -- induction on what is left; a page takes at least one element of it
  induction hn : (after key t l).length using Nat.strong_induction_on generalizing t sizes with
  | _ n ih =>
    have hans := ha.ok (sizes 0) t _ (hsizes 0) (h t ht)
    by_cases hle : (after key t l).length ≤ sizes 0
    · rw [fillFrom_all (by simpa using hle), List.nil_append] at hans
      refine ⟨1, [⟨after key t l, none⟩], ?_, ?_, ?_⟩
      · unfold session
        simp only [hans]
      · simp
      · intro k page _ hk
        simp at hk
    · obtain ⟨u, a, b, w, huw, hu⟩ : ∃ u a b w, after key t l = u ++ a :: b :: w ∧ u.length + 1 = sizes 0 := by
        have h1 := hsizes 0
        have hdrop : (after key t l).drop (sizes 0 - 1) ≠ [] := by
          intro hnil
          rw [drop_eq_nil_iff] at hnil
          omega
        obtain ⟨a, rest, hrest⟩ := exists_cons_of_ne_nil hdrop
        have hlen := congrArg List.length hrest
        rw [length_drop, length_cons] at hlen
        obtain ⟨b, w, rfl⟩ := exists_cons_of_length_pos (l := rest) (by omega)
        refine ⟨(after key t l).take (sizes 0 - 1), a, b, w, ?_, ?_⟩
        · rw [← hrest, take_append_drop]
        · rw [length_take]
          omega
      -- the page ends with an element of `l` that is not the last one
      obtain ⟨v, hv⟩ : ∃ v, l = v ++ after key t l := by
        rcases ht with rfl | ⟨u', a', b', w', rfl, rfl⟩
        · exact ⟨[], rfl⟩
        · rw [after_append hs]
          exact ⟨u' ++ [a'], by simp⟩
      have hl : l = (v ++ u) ++ a :: b :: w := by rw [hv, huw, append_assoc]
      have hstart : Starts key l (some (key a)) := .inr ⟨v ++ u, a, b, w, hl, rfl⟩
      have hafter : after key (some (key a)) l = b :: w := by
        rw [hl] at hs ⊢
        exact after_append hs
      have hlt : (after key (some (key a)) l).length < n := by
        rw [hafter, ← hn, huw, length_append, length_cons, length_cons, length_cons]
        omega
      obtain ⟨fuel, pages, hpages, hflat, hfull⟩ := ih _ hlt hstart (fun k => hsizes (k + 1)) rfl
      rw [huw, fillFrom_full (by simpa using hu)] at hans
      refine ⟨fuel + 1, ⟨u ++ [a], some (key a)⟩ :: pages, ?_, ?_, ?_⟩
      · unfold session
        simp only [hans, hpages, List.nil_append, Option.map_some]
      · rw [flatMap_cons, hflat, hafter, huw]
        simp
      · intro k page hk hlen
        cases k with
        | zero =>
          obtain rfl := Option.some.inj hk
          simpa using hu
        | succ k => exact hfull k page hk (by simpa using hlen)

omit [LinearOrder κ] in
theorem source_of_lossless (ha : Answers key start source answer) {t : Option κ} {m : List α} {sizes : Nat → Nat}
    (h : LosslessFrom answer m sizes t) (hbig : m.length < sizes 0) : source t = .ok m := by
  obtain ⟨fuel, pages, hpages, hflat, hfull⟩ := h
  cases fuel with
  | zero => cases hpages
  | succ fuel =>
    unfold session at hpages
    cases hans : answer (sizes 0) t with
    | error rc =>
      rw [hans] at hpages
      cases hpages
    | ok page =>
      simp only [hans] at hpages
      have hitems : ∀ rest, pages = page :: rest → page.items.length ≤ m.length := by
        rintro rest rfl
        rw [← hflat, flatMap_cons, length_append]
        omega
      cases hc : page.cookie with
      | some c =>
        simp only [hc] at hpages
        obtain ⟨rest, hrest, rfl⟩ := Option.map_eq_some_iff.mp hpages
        have hpos : 0 < rest.length := by
          cases rest with
          | nil =>
            cases fuel with
            | zero => cases hrest
            | succ fuel =>
              unfold session at hrest
              split at hrest
              · cases hrest
              · split at hrest
                · cases hrest
                · obtain ⟨_, _, h⟩ := Option.map_eq_some_iff.mp hrest
                  cases h
          | cons _ _ => exact Nat.succ_pos _
        have hsize := hfull 0 page rfl (by rw [length_cons]; omega)
        have := hitems rest rfl
        omega
      | none =>
        simp only [hc] at hpages
        obtain rfl := Option.some.inj hpages
        have hm : page.items = m := by simpa using hflat
        cases hsrc : source t with
        | error rc => exact absurd hc (ha.error _ _ _ _ hsrc hans)
        | ok l =>
          have hok := ha.ok (sizes 0) t l (by omega) hsrc
          obtain rfl := Except.ok.inj (hans.symm.trans hok)
          rw [← hm, fillFrom_last hc, List.nil_append]

theorem lossless_iff (ha : Answers key start source answer) (hs : l.Pairwise fun x y => key x < key y) :
    (∀ sizes, (∀ k, 1 ≤ sizes k) → LosslessFrom answer l sizes none) ↔
      ∀ t, Starts key l t → source t = .ok (after key t l) := by
  constructor
  · intro hall
    have hnone : source none = .ok l :=
      source_of_lossless ha (hall (fun _ => l.length + 1) fun _ => Nat.succ_pos _) (Nat.lt_succ_self _)
    rintro t (rfl | ⟨u, a, b, w, hl, rfl⟩)
    · exact hnone
    -- the first page ends with `a`, and the second one has room for all that is left
    · let sizes : Nat → Nat := fun k => if k = 0 then u.length + 1 else l.length + 1
      have hpos : ∀ k, 1 ≤ sizes k := by
        intro k
        dsimp only [sizes]
        split <;> omega
      have hlen : l.length = u.length + (w.length + 2) := by rw [hl]; simp
      have hans := ha.ok (sizes 0) none l (hpos 0) hnone
      have hfirst : fillFrom key (sizes 0) [] start l = ⟨u ++ [a], some (key a)⟩ := by
        rw [hl, fillFrom_full (by simp [sizes])]
        rfl
      rw [hfirst] at hans
      obtain ⟨fuel, pages, hpages, hflat, hfull⟩ := hall sizes hpos
      cases fuel with
      | zero => cases hpages
      | succ fuel =>
        unfold session at hpages
        simp only [hans] at hpages
        obtain ⟨rest, hrest, rfl⟩ := Option.map_eq_some_iff.mp hpages
        have hitems : rest.flatMap Page.items = b :: w := by
          rw [flatMap_cons, hl] at hflat
          simpa using hflat
        have hafter : after key (some (key a)) l = b :: w := by
          rw [hl] at hs ⊢
          exact after_append hs
        rw [hafter, ← hitems]
        refine source_of_lossless ha ⟨fuel, rest, hrest, rfl, ?_⟩ ?_
        · intro k page hk hlt
          exact hfull (k + 1) page hk (by simpa using hlt)
        · rw [hitems]
          simp [sizes]
          omega
  · intro h sizes hsizes
    exact losslessFrom_after ha hs h (.inl rfl) hsizes

end

end Paging
end ReOpenLDAP
