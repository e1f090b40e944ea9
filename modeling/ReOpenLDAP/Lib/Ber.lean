import Mathlib.Algebra.Order.Ring.Int

/-!
# Lib.Ber

BER elements in a row, as a reader meets them: an element is primitive or holds elements again.
-/

namespace ReOpenLDAP

inductive Elements (β : Type*) where
  | nil
  | prim (tag : Nat) (content : β) (rest : Elements β)
  | cons (tag : Nat) (content rest : Elements β)
deriving DecidableEq

namespace Elements

variable {β : Type*}

def append : Elements β → Elements β → Elements β
  | nil, s => s
  | prim tag v rest, s => prim tag v (rest.append s)
  | cons tag c rest, s => cons tag c (rest.append s)

def size : Elements β → Nat
  | nil => 0
  | prim _ _ rest => rest.size + 1
  | cons _ c rest => c.size + rest.size + 1

def tag? : Elements β → Option Nat
  | nil => none
  | prim tag _ _ => some tag
  | cons tag _ _ => some tag

/-- The elements that are read behind the first tag and length, and how many of them do not belong to that element. -/
def enter : Elements β → Option (Elements β × Nat)
  | cons _ c rest => some (c.append rest, rest.size)
  | _ => none

def skip : Elements β → Option (Elements β)
  | nil => none
  | prim _ _ rest => some rest
  | cons _ _ rest => some rest

/-- All primitive elements have one property, and the tags of all others another one. -/
def All (P : Nat → β → Prop) (C : Nat → Prop) : Elements β → Prop
  | nil => True
  | prim tag v rest => P tag v ∧ rest.All P C
  | cons tag c rest => C tag ∧ c.All P C ∧ rest.All P C

@[simp] theorem nil_append (s : Elements β) : nil.append s = s := rfl

@[simp] theorem append_nil (s : Elements β) : s.append nil = s := by
  induction s with
  | nil => rfl
  | prim tag v rest ih => exact congrArg (prim tag v) ih
  | cons tag c rest _ ih => exact congrArg (cons tag c) ih

@[simp] theorem size_append (s t : Elements β) : (s.append t).size = s.size + t.size := by
  induction s with
  | nil => simp [append, size]
  | prim tag v rest ih =>
    simp only [append, size, ih]
    omega
  | cons tag c rest _ ih =>
    simp only [append, size, ih]
    omega

theorem all_append {P : Nat → β → Prop} {C : Nat → Prop} {s t : Elements β} (hs : s.All P C) (ht : t.All P C) :
    (s.append t).All P C := by
  induction s with
  | nil => exact ht
  | prim tag v rest ih => exact ⟨hs.1, ih hs.2⟩
  | cons tag c rest _ ih => exact ⟨hs.1, hs.2.1, ih hs.2.2⟩

end Elements
end ReOpenLDAP
