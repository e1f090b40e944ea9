import ReOpenLDAP.Lib.Chain

/-!
# Lib.LinkQueue

Queues in one heap. Each queue is a linked list with a pointer to its first and to its last cell.
-/

namespace ReOpenLDAP

open List Function

structure LinkQueue where
  head : Option Nat
  tail : Option Nat

namespace LinkQueue

variable {ι δ : Type*}

def empty : LinkQueue := ⟨none, none⟩

/-- The cell at the address `n` becomes the last one. `none` is a null or freed pointer. -/
def enqueue (h : Nat → Option (Cell δ)) (q : LinkQueue) (n : Nat) (d : δ) : Option ((Nat → Option (Cell δ)) × LinkQueue) :=
  let h := Function.update h n (some ⟨none, d⟩)
  match q.head with
  | none => some (h, ⟨some n, some n⟩)
  | some a =>
    q.tail.bind fun t => (h t).map fun c => (Function.update h t (some ⟨some n, c.data⟩), ⟨some a, some n⟩)

def behind (q : LinkQueue) (next : Option Nat) : LinkQueue := ⟨next, if next = none then none else q.tail⟩

structure Linked (h : Nat → Option (Cell δ)) (q : ι → LinkQueue) (content : ι → List (Nat × δ)) : Prop where
  chain : ∀ i, CellChain h (q i).head (content i)
  tail : ∀ i, (q i).tail = (content i).getLast?.map Prod.fst
  nodup : ∀ i, ((content i).map Prod.fst).Nodup
  disjoint : ∀ i j, i ≠ j → ∀ x ∈ content i, ∀ y ∈ content j, x.1 ≠ y.1

namespace Linked

variable {h : Nat → Option (Cell δ)} {q : ι → LinkQueue} {content : ι → List (Nat × δ)} {i : ι} {a n : Nat} {d : δ}

theorem ne_of_free (hl : Linked h q content) (hn : h n = none) (j : ι) : ∀ x ∈ content j, x.1 ≠ n := by
  intro x hx heq
  obtain ⟨m, hm⟩ := (hl.chain j).cell_of_mem hx
  rw [heq, hn] at hm
  cases hm

theorem head_none (hl : Linked h q content) (i : ι) : (q i).head = none ↔ content i = [] := by
  constructor
  · intro hhead
    exact CellChain.nil_iff.mp (hhead ▸ hl.chain i)
  · intro hnil
    have hc := hl.chain i
    rw [hnil] at hc
    exact hc

variable [DecidableEq ι]

theorem update {h' : Nat → Option (Cell δ)} {qi : LinkQueue} {l : List (Nat × δ)} (hl : Linked h q content)
    (hchain : CellChain h' qi.head l) (htail : qi.tail = l.getLast?.map Prod.fst) (hnodup : (l.map Prod.fst).Nodup)
    (hsame : ∀ j, j ≠ i → ∀ x ∈ content j, h' x.1 = h x.1) (hdisj : ∀ j, j ≠ i → ∀ x ∈ content j, ∀ y ∈ l, x.1 ≠ y.1) :
    Linked h' (Function.update q i qi) (Function.update content i l) := by
  constructor
  · intro j
    by_cases hj : j = i
    · subst hj
      rw [update_self, update_self]
      exact hchain
    · rw [update_of_ne hj, update_of_ne hj]
      exact (hl.chain j).frame (hsame j hj)
  · intro j
    by_cases hj : j = i
    · subst hj
      rw [update_self, update_self]
      exact htail
    · rw [update_of_ne hj, update_of_ne hj]
      exact hl.tail j
  · intro j
    by_cases hj : j = i
    · subst hj
      rw [update_self]
      exact hnodup
    · rw [update_of_ne hj]
      exact hl.nodup j
  · intro j k hjk x hx y hy
    by_cases hj : j = i
    · subst hj
      rw [update_self] at hx
      rw [update_of_ne hjk.symm] at hy
      exact (hdisj k hjk.symm y hy x hx).symm
    · rw [update_of_ne hj] at hx
      by_cases hk : k = i
      · subst hk
        rw [update_self] at hy
        exact hdisj j hj x hx y hy
      · rw [update_of_ne hk] at hy
        exact hl.disjoint j k hjk x hx y hy

theorem enqueue (hl : Linked h q content) (hn : h n = none) (i : ι) (d : δ) :
    ∃ h' qi, LinkQueue.enqueue h (q i) n d = some (h', qi) ∧
      Linked h' (Function.update q i qi) (Function.update content i (content i ++ [(n, d)])) ∧ qi.head ≠ none := by
  have hfree := hl.ne_of_free hn
  have hnodup : ((content i ++ [(n, d)]).map Prod.fst).Nodup := by
    rw [map_append, nodup_append]
    refine ⟨hl.nodup i, nodup_singleton n, fun b hb c hc => ?_⟩
    obtain ⟨x, hx, rfl⟩ := List.mem_map.mp hb
    rw [List.mem_singleton.mp hc]
    exact hfree i x hx
  have hdisj : ∀ j, j ≠ i → ∀ x ∈ content j, ∀ y ∈ content i ++ [(n, d)], x.1 ≠ y.1 := by
    intro j hj x hx y hy
    rcases List.mem_append.mp hy with hy | hy
    · exact hl.disjoint j i hj x hx y hy
    · rw [List.mem_singleton.mp hy]
      exact hfree j x hx
  have htail : ((some n : Option Nat)) = (content i ++ [(n, d)]).getLast?.map Prod.fst := by
    rw [List.getLast?_append, List.getLast?_singleton]
    rfl
  unfold LinkQueue.enqueue
  cases hhead : (q i).head with
  | none =>
    have hnil := (hl.head_none i).mp hhead
    refine ⟨_, _, rfl, ?_⟩
    refine ⟨hl.update ?_ htail hnodup ?_ hdisj, by simp⟩
    · rw [hnil]
      exact ⟨rfl, none, update_self _ _ _, rfl⟩
    · exact fun j _ x hx => update_of_ne (hfree j x hx) _ _
  | some a =>
    have hne : content i ≠ [] := fun hnil => by
      rw [(hl.head_none i).mpr hnil] at hhead
      cases hhead
    obtain ⟨u, ⟨t, e⟩, hsplit⟩ : ∃ u x, content i = u ++ [x] := ⟨_, _, (dropLast_append_getLast hne).symm⟩
    have hchain := hl.chain i
    rw [hsplit] at hchain
    obtain ⟨m, ht, hm⟩ := hchain.suffix
    have hm : m = none := hm
    subst hm
    have hlast : (q i).tail = some t := by rw [hl.tail i, hsplit, List.getLast?_append, List.getLast?_singleton]; rfl
    have hmem : (t, e) ∈ content i := hsplit ▸ mem_append_right u mem_cons_self
    have htn : t ≠ n := hfree i (t, e) hmem
    have hread : Function.update h n (some ⟨none, d⟩) t = some ⟨none, e⟩ := (update_of_ne htn _ _).trans ht
    have hnew := hchain.insert_after (hsplit ▸ hl.nodup i) (hsplit ▸ hfree i) ht (e := d)
    simp only [hlast, hread, Option.bind_some, Option.map_some]
    refine ⟨_, _, rfl, ?_⟩
    refine ⟨hl.update ?_ htail hnodup ?_ hdisj, by simp⟩
    · rw [hsplit, append_assoc, ← hhead]
      exact hnew
    · intro j hj x hx
      rw [update_of_ne (hl.disjoint j i hj x hx (t, e) hmem), update_of_ne (hfree j x hx)]

theorem dequeue (hl : Linked h q content) {w : List (Nat × δ)} (hc : content i = (a, d) :: w) :
    ∃ m, h a = some ⟨m, d⟩ ∧
      Linked (Function.update h a none) (Function.update q i ((q i).behind m)) (Function.update content i w) := by
  have hchain := hl.chain i
  have hnodup := hl.nodup i
  have htail := hl.tail i
  rw [hc] at hchain hnodup htail
  obtain ⟨m, hm, hw⟩ := hchain.pop hnodup
  refine ⟨m, hm, hl.update hw ?_ (List.nodup_cons.mp hnodup).2 ?_ ?_⟩
  · cases w with
    | nil =>
      have hnone : m = none := hw
      rw [behind, hnone, if_pos rfl]
      rfl
    | cons x w =>
      have hsome : m ≠ none := by
        rw [hw.1]
        simp
      rw [behind, if_neg hsome, htail, List.getLast?_cons_cons]
  · intro j hj x hx
    exact update_of_ne (hl.disjoint j i hj x hx (a, d) (hc ▸ mem_cons_self)) _ _
  · intro j hj x hx y hy
    exact hl.disjoint j i hj x hx y (hc ▸ mem_cons_of_mem _ hy)

end Linked
end LinkQueue
end ReOpenLDAP
