import Mathlib.Data.Fintype.Basic
import Mathlib.Data.Finset.Card

/-!
# Lib.ReaderWriter

The books of a lock for readers and a writer: a number of readers and a flag against what each place holds.
-/

namespace ReOpenLDAP

structure Depth where
  r : ℕ
  w : ℕ
  deriving DecidableEq

namespace ReaderWriter

open Function Finset

variable {ι : Type*} [Fintype ι]

def readers (held : ι → Depth) : Finset ι := univ.filter fun i => 0 < (held i).r

structure Books (count : ℕ) (writer : Bool) (held : ι → Depth) : Prop where
  count : count = (readers held).card
  writing : writer = true ↔ ∃ i, 0 < (held i).w
  alone : ∀ i, 0 < (held i).w → ∀ j, 0 < (held j).r ∨ 0 < (held j).w → j = i

variable {count : ℕ} {writer : Bool} {held : ι → Depth} {i : ι} {d : Depth}

@[simp] theorem mem_readers : i ∈ readers held ↔ 0 < (held i).r := by simp [readers]

namespace Books

theorem exists_reader (h : Books count writer held) (hcount : count ≠ 0) : ∃ i, 0 < (held i).r := by
  obtain ⟨i, hi⟩ := card_pos.mp (Nat.pos_of_ne_zero (h.count ▸ hcount))
  exact ⟨i, mem_readers.mp hi⟩

theorem no_writer (h : Books count false held) (i : ι) : (held i).w = 0 :=
  Nat.eq_zero_of_not_pos fun hw => Bool.false_ne_true (h.writing.mpr ⟨i, hw⟩)

theorem no_reader (h : Books 0 writer held) (i : ι) : (held i).r = 0 :=
  Nat.eq_zero_of_not_pos fun hr => Finset.notMem_empty i (card_eq_zero.mp h.count.symm ▸ mem_readers.mpr hr)

end Books

variable [DecidableEq ι]

theorem readers_update_pos (hr : 0 < d.r) : readers (update held i d) = insert i (readers held) := by
  ext j
  by_cases hj : j = i
  · simp [hj, hr]
  · simp [hj]

theorem readers_update_zero (hr : d.r = 0) : readers (update held i d) = (readers held).erase i := by
  ext j
  by_cases hj : j = i
  · simp [hj, hr]
  · simp [hj]

namespace Books

theorem same (h : Books count writer held) (hr : 0 < d.r ↔ 0 < (held i).r) (hw : 0 < d.w ↔ 0 < (held i).w) :
    Books count writer (update held i d) := by
  have hread : ∀ j, 0 < (update held i d j).r ↔ 0 < (held j).r := fun j => by
    by_cases hj : j = i
    · simp [hj, hr]
    · simp [hj]
  have hwrite : ∀ j, 0 < (update held i d j).w ↔ 0 < (held j).w := fun j => by
    by_cases hj : j = i
    · simp [hj, hw]
    · simp [hj]
  refine ⟨?_, ?_, fun j hj k hk => ?_⟩
  · rw [h.count]
    congr 1
    ext j
    simp [hread]
  · simp only [hwrite]
    exact h.writing
  · rw [hwrite] at hj
    rw [hread, hwrite] at hk
    exact h.alone j hj k hk

theorem read (h : Books count false held) (hzero : (held i).r = 0) (hr : 0 < d.r) (hw : d.w = 0) :
    Books (count + 1) false (update held i d) := by
  have hnone : ∀ j, (update held i d j).w = 0 := fun j => by
    by_cases hj : j = i
    · simp [hj, hw]
    · simp [hj, h.no_writer j]
  refine ⟨?_, ?_, fun j hj => absurd hj (by rw [hnone]; exact lt_irrefl 0)⟩
  · rw [readers_update_pos hr, card_insert_of_notMem (by simp [hzero]), ← h.count]
  · exact ⟨nofun, fun ⟨j, hj⟩ => absurd hj (by rw [hnone]; exact lt_irrefl 0)⟩

theorem write (h : Books 0 false held) (hw : 0 < d.w) : Books (if 0 < d.r then 1 else 0) true (update held i d) := by
  have hempty : readers held = ∅ := card_eq_zero.mp h.count.symm
  have hother : ∀ j, 0 < (update held i d j).r ∨ 0 < (update held i d j).w → j = i := fun j hj => by
    by_contra hne
    simp [hne, h.no_writer j, h.no_reader j] at hj
  refine ⟨?_, ⟨fun _ => ⟨i, by simp [hw]⟩, fun _ => rfl⟩, fun j hj k hk => (hother k hk).trans (hother j (.inr hj)).symm⟩
  by_cases hr : 0 < d.r
  · rw [if_pos hr, readers_update_pos hr, hempty]
    rfl
  · rw [if_neg hr, readers_update_zero (by omega), hempty]
    rfl

theorem dropRead (h : Books count writer held) (hpos : 0 < (held i).r) (hr : d.r = 0) (hw : 0 < d.w ↔ 0 < (held i).w) :
    Books (count - 1) writer (update held i d) := by
  have hwrite : ∀ j, 0 < (update held i d j).w ↔ 0 < (held j).w := fun j => by
    by_cases hj : j = i
    · simp [hj, hw]
    · simp [hj]
  refine ⟨?_, ?_, fun j hj k hk => ?_⟩
  · rw [readers_update_zero hr, card_erase_of_mem (mem_readers.mpr hpos), ← h.count]
  · simp only [hwrite]
    exact h.writing
  · rw [hwrite] at hj
    refine h.alone j hj k (hk.imp (fun hread => ?_) (hwrite k).mp)
    by_cases hki : k = i
    · rw [hki]
      exact hpos
    · simpa [hki] using hread

theorem dropWrite (h : Books count writer held) (hpos : 0 < (held i).w) (hw : d.w = 0) (hr : 0 < d.r ↔ 0 < (held i).r) :
    Books count false (update held i d) := by
  have hnone : ∀ j, (update held i d j).w = 0 := fun j => by
    by_cases hj : j = i
    · simp [hj, hw]
    · have hother : ¬0 < (held j).w := fun hjw => hj (h.alone i hpos j (.inr hjw))
      simpa [hj] using hother
  refine ⟨?_, ⟨nofun, fun ⟨j, hj⟩ => absurd hj (by rw [hnone]; exact lt_irrefl 0)⟩, fun j hj => absurd hj (by rw [hnone]; exact lt_irrefl 0)⟩
  rw [h.count]
  congr 1
  ext j
  by_cases hj : j = i
  · simp [hj, hr]
  · simp [hj]

end Books
end ReaderWriter
end ReOpenLDAP
