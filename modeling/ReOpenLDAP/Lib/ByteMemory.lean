import Mathlib.Tactic.Ring

/-!
# Lib.ByteMemory

A memory of bytes and the words in it.

* `copy`, `fill`   — `memcpy` and `memset`.
-/

namespace ReOpenLDAP

abbrev Memory := ℕ → UInt8

namespace Memory

def load (m : Memory) : ℕ → ℕ → ℕ
  | 0, _ => 0
  | k + 1, a => (m a).toNat + 256 * load m k (a + 1)

def store (m : Memory) (k a v : ℕ) : Memory :=
  fun x => if a ≤ x ∧ x < a + k then UInt8.ofNat (v / 256 ^ (x - a)) else m x

def copy (m : Memory) (dst src n : ℕ) : Memory :=
  fun x => if dst ≤ x ∧ x < dst + n then m (src + (x - dst)) else m x

def fill (m : Memory) (a n : ℕ) (b : UInt8) : Memory :=
  fun x => if a ≤ x ∧ x < a + n then b else m x

variable {m m' : Memory} {k a b n x v dst src : ℕ}

theorem store_outside (h : x < a ∨ a + k ≤ x) : store m k a v x = m x := if_neg (by omega)

theorem copy_outside (h : x < dst ∨ dst + n ≤ x) : copy m dst src n x = m x := if_neg (by omega)

theorem copy_inside (h : x < n) : copy m dst src n (dst + x) = m (src + x) := by
  unfold copy
  rw [if_pos (by omega), Nat.add_sub_cancel_left]

theorem fill_outside {c : UInt8} (h : x < a ∨ a + n ≤ x) : fill m a n c x = m x := if_neg (by omega)

theorem fill_inside {c : UInt8} (hle : a ≤ x) (hlt : x < a + n) : fill m a n c x = c := if_pos ⟨hle, hlt⟩

theorem load_succ (m : Memory) (k a : ℕ) : load m (k + 1) a = (m a).toNat + 256 * load m k (a + 1) := rfl

theorem load_congr (h : ∀ x, a ≤ x → x < a + k → m x = m' x) : load m k a = load m' k a := by
  induction k generalizing a with
  | zero => rfl
  | succ k ih => rw [load_succ, load_succ, h a (Nat.le_refl _) (by omega), ih fun x hle hlt => h x (by omega) (by omega)]

theorem load_store_of_disjoint (h : b + n ≤ a ∨ a + k ≤ b) : load (store m k a v) n b = load m n b :=
  load_congr fun _ _ _ => store_outside (by omega)

theorem load_store (m : Memory) (k a v : ℕ) : load (store m k a v) k a = v % 256 ^ k := by
  induction k generalizing a v with
  | zero => rw [load, pow_zero, Nat.mod_one]
  | succ k ih =>
    have hlow : (store m (k + 1) a v a).toNat = v % 256 := by
      unfold store
      rw [if_pos (by omega), Nat.sub_self, pow_zero, Nat.div_one]
      exact UInt8.toNat_ofNat'
    -- the other bytes are those of the rest of the number, one place further on
    have hhigh : load (store m (k + 1) a v) k (a + 1) = load (store m k (a + 1) (v / 256)) k (a + 1) := by
      refine load_congr fun x hle hlt => ?_
      unfold store
      rw [if_pos (by omega), if_pos (by omega), Nat.div_div_eq_div_mul, ← pow_succ']
      congr 3
      omega
    rw [load_succ, hlow, hhigh, ih, pow_succ', Nat.mod_mul]

theorem load_store_of_lt (h : v < 256 ^ k) : load (store m k a v) k a = v := by
  rw [load_store, Nat.mod_eq_of_lt h]

end Memory
end ReOpenLDAP
