import Mathlib.Algebra.Order.Ring.Int

/-!
# Lib.Copying

Programs that allocate, and that log what they examine.

* `Heap`, `Copier` — the first address that is free, the log, and a program.
-/

namespace ReOpenLDAP
namespace Copying

open List

structure Heap (ρ : Type*) where
  next : ℕ
  log : List ρ

def Copier (ρ : Type*) (α : Type*) : Type _ := Heap ρ → Option (α × Heap ρ)

variable {ρ : Type*} {α β : Type*}

def ret (a : α) : Copier ρ α := fun h => some (a, h)

def fail : Copier ρ α := fun _ => none

def bind (x : Copier ρ α) (k : α → Copier ρ β) : Copier ρ β := fun h => (x h).bind fun r => k r.1 r.2

def malloc : Copier ρ ℕ := fun h => some (h.next, { h with next := h.next + 1 })

def examine (r : ρ) (x : Option α) : Copier ρ α := fun h => x.map fun a => (a, { h with log := h.log ++ [r] })

def mapM (f : α → Copier ρ β) : List α → Copier ρ (List β)
  | [] => ret []
  | a :: as => bind (f a) fun b => bind (mapM f as) fun bs => ret (b :: bs)

/-- From heaps with everything below `base` in use. -/
def Makes (good : ρ → Prop) (base : ℕ) (x : Copier ρ α) (cond : Prop) (ok : α → Prop) : Prop :=
  ∀ h : Heap ρ, base ≤ h.next → ∃ a h', x h = some (a, h') ∧ ok a ∧ h.next ≤ h'.next ∧
    ∃ new, h'.log = h.log ++ new ∧ ((∀ r ∈ new, good r) ↔ cond)

variable {good : ρ → Prop} {base : ℕ}

theorem makes_ret {a : α} {ok : α → Prop} (h : ok a) : Makes good base (ret a) True ok :=
  fun heap _ => ⟨a, heap, rfl, h, le_refl _, [], by simp, by simp⟩

theorem makes_malloc : Makes good base (malloc : Copier ρ ℕ) True (base ≤ ·) :=
  fun heap hbase => ⟨heap.next, _, rfl, hbase, Nat.le_succ _, [], by simp, by simp⟩

theorem makes_bind {x : Copier ρ α} {k : α → Copier ρ β} {cond cond' : Prop} {ok : α → Prop} {ok' : β → Prop}
    (hx : Makes good base x cond ok) (hk : ∀ a, ok a → Makes good base (k a) cond' ok') :
    Makes good base (bind x k) (cond ∧ cond') ok' := by
  intro heap hbase
  obtain ⟨a, h₁, hrun, ha, hnext, new, hlog, hgood⟩ := hx heap hbase
  obtain ⟨b, h₂, hrun', hb, hnext', new', hlog', hgood'⟩ := hk a ha h₁ (hbase.trans hnext)
  refine ⟨b, h₂, ?_, hb, hnext.trans hnext', new ++ new', ?_, ?_⟩
  · rw [bind, hrun]
    exact hrun'
  · rw [hlog', hlog, append_assoc]
  · rw [forall_mem_append, hgood, hgood']

theorem makes_examine {r : ρ} {a : α} {k : α → Copier ρ β} {cond : Prop} {ok : β → Prop} (h : Makes good base (k a) cond ok) :
    Makes good base (bind (examine r (some a)) k) (good r ∧ cond) ok := by
  intro heap hbase
  obtain ⟨b, h', hrun, hb, hnext, new, hlog, hgood⟩ := h { heap with log := heap.log ++ [r] } hbase
  refine ⟨b, h', hrun, hb, hnext, r :: new, ?_, ?_⟩
  · rw [hlog, append_assoc, singleton_append]
  · rw [forall_mem_cons, hgood]

theorem Makes.imp {x : Copier ρ α} {cond cond' : Prop} {ok ok' : α → Prop} (h : Makes good base x cond ok) (hcond : cond ↔ cond')
    (hok : ∀ a, ok a → ok' a) : Makes good base x cond' ok' := by
  intro heap hbase
  obtain ⟨a, h', hrun, ha, hnext, new, hlog, hgood⟩ := h heap hbase
  exact ⟨a, h', hrun, hok a ha, hnext, new, hlog, hgood.trans hcond⟩

theorem makes_mapM {f : α → Copier ρ β} {as : List α} {cond : α → Prop} {ok : α → β → Prop}
    (h : ∀ a ∈ as, Makes good base (f a) (cond a) (ok a)) :
    Makes good base (mapM f as) (∀ a ∈ as, cond a) (List.Forall₂ ok as) := by
  induction as with
  | nil => exact (makes_ret .nil).imp (by simp) fun _ h => h
  | cons a as ih =>
    have hhead := h a mem_cons_self
    have htail := ih fun b hb => h b (mem_cons_of_mem a hb)
    refine (makes_bind hhead fun b hb => makes_bind htail fun bs hbs => makes_ret (.cons hb hbs)).imp ?_ fun _ h => h
    simp

end Copying
end ReOpenLDAP
