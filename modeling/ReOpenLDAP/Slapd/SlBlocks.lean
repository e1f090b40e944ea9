import Mathlib.Data.List.Basic
import ReOpenLDAP.Slapd.SlMalloc

/-!
# Slapd.SlBlocks

The slab as a stack of blocks, the last one first.

* `Blk`, `span`   — blocks, and the bytes they take.
-/

namespace ReOpenLDAP
namespace Slapd

open Memory List

section

variable {size gross : ℕ}

def headWord (size : ℕ) (freed : Bool) : ℕ := if freed then slSetFree size else size

theorem testBit_free (h : size < slFreeMask) (freed : Bool) : (headWord size freed).testBit 63 = freed := by
  have hbit : size.testBit 63 = false := Nat.testBit_lt_two_pow h
  cases freed with
  | false => exact hbit
  | true =>
    show (size ||| 2 ^ 63).testBit 63 = true
    rw [Nat.testBit_or, Nat.testBit_two_pow_self, Bool.or_true]

theorem headWord_and (h : size < slFreeMask) (freed : Bool) :
    headWord size freed &&& slFreeMask = if freed then slFreeMask else 0 := by
  refine Nat.eq_of_testBit_eq fun i => ?_
  rw [Nat.testBit_and]
  by_cases hi : i = 63
  · subst hi
    rw [testBit_free h]
    cases freed <;> rfl
  · have hmask : slFreeMask.testBit i = false := by
      unfold slFreeMask
      rw [Nat.testBit_two_pow, decide_eq_false (Ne.symm hi)]
    rw [hmask, Bool.and_false]
    cases freed with
    | false => exact (Nat.zero_testBit i).symm
    | true => exact hmask.symm

@[simp] theorem slGetFree_headWord (h : size < slFreeMask) (freed : Bool) : slGetFree (headWord size freed) = freed := by
  unfold slGetFree
  rw [headWord_and h]
  cases freed <;> rfl

theorem headWord_mod (h : size < slFreeMask) (freed : Bool) : headWord size freed % 2 ^ 63 = size := by
  have hmod : size % 2 ^ 63 = size := Nat.mod_eq_of_lt h
  cases freed with
  | false => exact hmod
  | true =>
    show (size ||| 2 ^ 63) % 2 ^ 63 = size
    rw [Nat.or_mod_two_pow, Nat.mod_self, Nat.or_zero, hmod]

@[simp] theorem slGetSize_headWord (h : size < slFreeMask) (freed : Bool) : slGetSize (headWord size freed) = size := by
  unfold slGetSize slFreeMask
  rw [Nat.and_two_pow_sub_one_eq_mod, headWord_mod h]

@[simp] theorem slSetFree_headWord (size : ℕ) (freed : Bool) : slSetFree (headWord size freed) = headWord size true := by
  cases freed with
  | false => rfl
  | true =>
    show size ||| slFreeMask ||| slFreeMask = size ||| slFreeMask
    rw [Nat.or_assoc, Nat.or_self]

theorem slUpdateSize_headWord (h : size < slFreeMask) (gross : ℕ) (freed : Bool) :
    slUpdateSize (headWord size freed) gross = headWord gross freed := by
  unfold slUpdateSize
  rw [headWord_and h]
  cases freed with
  | false => exact Nat.zero_or gross
  | true => exact Nat.or_comm _ _

theorem headWord_lt (h : size < slFreeMask) (freed : Bool) : headWord size freed < 256 ^ wordSize := by
  have hmask : slFreeMask < 2 ^ 64 := by decide
  show headWord size freed < 2 ^ 64
  cases freed with
  | false => exact h.trans hmask
  | true => exact Nat.or_lt_two_pow (h.trans hmask) hmask

theorem slUp2block_spec (hpos : 0 < gross) (hlt : gross < slMaxSize) :
    wordSize ∣ slUp2block gross ∧ 2 * wordSize ≤ slUp2block gross ∧ slUp2block gross < slFreeMask ∧
      gross + wordSize ≤ slUp2block gross := by
  have hmax : slMaxSize = 2 ^ 62 := by decide
  unfold slUp2block slAlign wordSize slFreeMask
  omega

end

namespace Slab

/-- A block: its size with the head, and the bytes that were asked for if it is not freed. -/
structure Blk where
  size : ℕ
  owner : Option ℕ
  aligned : wordSize ∣ size
  room : 2 * wordSize ≤ size
  small : size < slFreeMask
  holds : ∀ n, owner = some n → n + wordSize ≤ size

def Blk.freed (b : Blk) : Blk := { b with owner := none, holds := fun _ h => nomatch h }

def span : List Blk → ℕ
  | [] => 0
  | b :: bs => b.size + span bs

def topFreed : List Blk → Bool
  | [] => false
  | b :: _ => b.owner.isNone

def ownerAt (base : ℕ) : List Blk → ℕ → Option ℕ
  | [], _ => none
  | b :: bs, p => if p = base + span bs + wordSize then b.owner else ownerAt base bs p

structure Entry (m : Memory) (base : ℕ) (b : Blk) (bs : List Blk) : Prop where
  head : m.load wordSize (base + span bs) = headWord b.size (topFreed bs)
  tail : b.owner = none → m.load wordSize (base + span bs + b.size - wordSize) = b.size

def Layout (m : Memory) (base : ℕ) : List Blk → Prop
  | [] => True
  | b :: bs => Entry m base b bs ∧ Layout m base bs

section

variable {m m' : Memory} {base p q n k x : ℕ} {b : Blk} {bs above below rest : List Blk}

@[simp] theorem span_cons (b : Blk) (bs : List Blk) : span (b :: bs) = b.size + span bs := rfl

@[simp] theorem span_append (above rest : List Blk) : span (above ++ rest) = span above + span rest := by
  induction above with
  | nil => exact (Nat.zero_add _).symm
  | cons b above ih => rw [cons_append, span_cons, span_cons, ih, Nat.add_assoc]

theorem dvd_span (bs : List Blk) : wordSize ∣ span bs := by
  induction bs with
  | nil => exact Nat.dvd_zero _
  | cons b bs ih => exact Nat.dvd_add b.aligned ih

theorem ownerAt_head (b : Blk) (bs : List Blk) : ownerAt base (b :: bs) (base + span bs + wordSize) = b.owner := if_pos rfl

theorem ownerAt_cons_of_ne (h : p ≠ base + span bs + wordSize) : ownerAt base (b :: bs) p = ownerAt base bs p := if_neg h

theorem exists_block (h : ownerAt base bs p = some n) :
    ∃ above b below, bs = above ++ b :: below ∧ b.owner = some n ∧ p = base + span below + wordSize := by
  induction bs with
  | nil => cases h
  | cons b bs ih =>
    by_cases hp : p = base + span bs + wordSize
    · rw [hp, ownerAt_head] at h
      exact ⟨[], b, bs, rfl, h, hp⟩
    · rw [ownerAt_cons_of_ne hp] at h
      obtain ⟨above, c, below, rfl, hc⟩ := ih h
      exact ⟨b :: above, c, below, rfl, hc⟩

theorem ownerAt_range (h : ownerAt base bs p = some n) : base + wordSize ≤ p ∧ p + n ≤ base + span bs := by
  obtain ⟨above, b, below, rfl, hb, rfl⟩ := exists_block h
  have := b.holds n hb
  rw [span_append, span_cons]
  omega

theorem ownerAt_dvd (hbase : wordSize ∣ base) (h : ownerAt base bs p = some n) : wordSize ∣ p := by
  obtain ⟨-, -, below, -, -, rfl⟩ := exists_block h
  exact Nat.dvd_add (Nat.dvd_add hbase (dvd_span below)) (Nat.dvd_refl _)

theorem ownerAt_none_of_le (h : base + span bs ≤ p) : ownerAt base bs p = none := by
  refine Option.eq_none_iff_forall_ne_some.mpr fun n hn => ?_
  obtain ⟨above, b, below, rfl, hb, rfl⟩ := exists_block hn
  have := b.room
  have hword : wordSize = 8 := rfl
  rw [span_append, span_cons] at h
  omega

theorem ownerAt_beside (h : ownerAt base (above ++ b :: below) q = some k) (hne : q ≠ base + span below + wordSize) :
    base + span (b :: below) + wordSize ≤ q ∨ q + k ≤ base + span below := by
  induction above with
  | nil =>
    rw [List.nil_append, ownerAt_cons_of_ne hne] at h
    exact .inr (ownerAt_range h).2
  | cons c above ih =>
    by_cases hq : q = base + span (above ++ b :: below) + wordSize
    · rw [span_append] at hq
      omega
    · rw [cons_append, ownerAt_cons_of_ne hq] at h
      exact ih h

theorem ownerAt_apart (hp : ownerAt base bs p = some n) (hq : ownerAt base bs q = some k) (hne : p ≠ q) :
    p + n + wordSize ≤ q ∨ q + k + wordSize ≤ p := by
  obtain ⟨above, b, below, rfl, hb, rfl⟩ := exists_block hp
  have := b.holds n hb
  have := ownerAt_beside hq (Ne.symm hne)
  rw [span_cons] at this
  omega

theorem layout_congr (h : Layout m base bs)
    (hsame : ∀ x, base ≤ x → x < base + span bs → (∀ p n, ownerAt base bs p = some n → ¬(p ≤ x ∧ x < p + n)) → m' x = m x) :
    Layout m' base bs := by
  induction bs with
  | nil => trivial
  | cons b bs ih =>
    obtain ⟨⟨hhead, htail⟩, hbs⟩ := h
    have hroom := b.room
    have hword : wordSize = 8 := rfl
    rw [span_cons] at hsame
    have hbelow : ∀ p n, p ≠ base + span bs + wordSize → ownerAt base (b :: bs) p = some n → p + n ≤ base + span bs :=
      fun p n hp howner => (ownerAt_range ((ownerAt_cons_of_ne hp).symm.trans howner)).2
    refine ⟨⟨?_, fun hfree => ?_⟩, ih hbs fun x hle hlt hout => hsame x hle (by omega) fun p n howner => ?_⟩
    · rw [← hhead]
      refine load_congr fun x hle hlt => hsame x (by omega) (by omega) fun p n howner => ?_
      by_cases hp : p = base + span bs + wordSize
      · omega
      · have := hbelow p n hp howner
        omega
    · refine (load_congr fun x hle hlt => hsame x (by omega) (by omega) fun p n howner => ?_).trans (htail hfree)
      by_cases hp : p = base + span bs + wordSize
      · rw [hp, ownerAt_head, hfree] at howner
        cases howner
      · have := hbelow p n hp howner
        omega
    · by_cases hp : p = base + span bs + wordSize
      · omega
      · exact hout p n ((ownerAt_cons_of_ne hp).symm.trans howner)

theorem layout_above (h : Layout m base bs) (hsame : ∀ x, x < base + span bs → m' x = m x) : Layout m' base bs :=
  layout_congr h fun x _ hlt _ => hsame x hlt

theorem layout_rest (h : Layout m base (above ++ rest)) : Layout m base rest := by
  induction above with
  | nil => exact h
  | cons b above ih => exact ih h.2

theorem entry_congr {bs' : List Blk} (h : Entry m base b bs) (hspan : span bs' = span bs) (htop : topFreed bs' = topFreed bs)
    (hsame : ∀ x, base + span bs ≤ x → m' x = m x) : Entry m' base b bs' := by
  have hroom := b.room
  have hword : wordSize = 8 := rfl
  refine ⟨?_, fun hfree => ?_⟩
  · rw [hspan, htop, ← h.head]
    exact load_congr fun x hle _ => hsame x hle
  · rw [hspan]
    exact (load_congr fun x hle _ => hsame x (by omega)).trans (h.tail hfree)

/-! ## A block gets another owner -/

theorem span_replace {b' : Blk} (hsize : b'.size = b.size) (above below : List Blk) :
    span (above ++ b' :: below) = span (above ++ b :: below) := by
  rw [span_append, span_append, span_cons, span_cons, hsize]

theorem ownerAt_replace {b' : Blk} (hsize : b'.size = b.size) (above below : List Blk) (x : ℕ) :
    ownerAt base (above ++ b' :: below) x =
      if x = base + span below + wordSize then b'.owner else ownerAt base (above ++ b :: below) x := by
  induction above with
  | nil =>
    rw [List.nil_append, List.nil_append, ownerAt, ownerAt]
    by_cases hx : x = base + span below + wordSize
    · rw [if_pos hx, if_pos hx]
    · rw [if_neg hx, if_neg hx, if_neg hx]
  | cons c above ih =>
    have hroom := b.room
    rw [cons_append, cons_append, ownerAt, ownerAt, span_replace hsize, ih]
    by_cases hx : x = base + span (above ++ b :: below) + wordSize
    · have hne : x ≠ base + span below + wordSize := by
        rw [span_append, span_cons] at hx
        have hword : wordSize = 8 := rfl
        omega
      rw [if_pos hx, if_neg hne, if_pos hx]
    · rw [if_neg hx, if_neg hx]

theorem layout_replace {b' : Blk} (hsize : b'.size = b.size) (hb : b.owner.isSome) (hb' : b'.owner.isSome)
    (h : Layout m base (above ++ b :: below)) : Layout m base (above ++ b' :: below) := by
  induction above with
  | nil =>
    obtain ⟨hentry, hbelow⟩ := h
    refine ⟨⟨hsize ▸ hentry.head, fun hfree => ?_⟩, hbelow⟩
    rw [hfree] at hb'
    cases hb'
  | cons c above ih =>
    have htop : topFreed (above ++ b' :: below) = topFreed (above ++ b :: below) := by
      cases above with
      | nil => exact (Option.isNone_eq_false_iff.mpr hb').trans (Option.isNone_eq_false_iff.mpr hb).symm
      | cons d above => rfl
    exact ⟨entry_congr h.1 (span_replace hsize above below) htop fun _ _ => rfl, ih h.2⟩

def mark (m : Memory) (size next : ℕ) : Memory :=
  (m.store wordSize (next - wordSize) size).store wordSize next
    (slSetFree ((m.store wordSize (next - wordSize) size).load wordSize next))

theorem mark_outside {size next : ℕ} (hle : wordSize ≤ next) (h : x < next - wordSize ∨ next + wordSize ≤ x) :
    mark m size next x = m x := by
  unfold mark
  rw [store_outside (by omega), store_outside (by omega)]

theorem mark_next {size next : ℕ} {freed : Bool} (hle : wordSize ≤ next) (hsize : size < slFreeMask)
    (h : m.load wordSize next = headWord size freed) (v : ℕ) : (mark m v next).load wordSize next = headWord size true := by
  have hold : (m.store wordSize (next - wordSize) v).load wordSize next = headWord size freed := by
    rw [load_store_of_disjoint (by omega), h]
  rw [mark, hold, slSetFree_headWord, load_store_of_lt (headWord_lt hsize true)]

theorem mark_tail {size next : ℕ} (hle : wordSize ≤ next) (hsize : size < slFreeMask) :
    (mark m size next).load wordSize (next - wordSize) = size := by
  have hlt : size < 256 ^ wordSize := headWord_lt hsize false
  rw [mark, load_store_of_disjoint (by omega), load_store_of_lt hlt]

theorem layout_mark (h : Layout m base (above ++ b :: below)) (hne : above ≠ []) :
    Layout (mark m b.size (base + span (b :: below))) base (above ++ b.freed :: below) := by
  have hroom := b.room
  have hword : wordSize = 8 := rfl
  have hle : wordSize ≤ base + span (b :: below) := by
    rw [span_cons]
    omega
  induction above with
  | nil => exact absurd rfl hne
  | cons c above ih =>
    rw [cons_append, Layout] at h ⊢
    obtain ⟨hc, habove⟩ := h
    cases above with
    | nil =>
      rw [List.nil_append] at hc habove ⊢
      obtain ⟨hb, hbelow⟩ := habove
      have hcroom := c.room
      refine ⟨⟨mark_next hle c.small hc.head _, fun hfree => ?_⟩, ⟨?_, fun _ => ?_⟩, ?_⟩
      · refine (load_congr fun x hx _ => mark_outside hle (.inr ?_)).trans (hc.tail hfree)
        change base + span (b :: below) + c.size - wordSize ≤ x at hx
        omega
      · refine (load_congr fun x _ hx => mark_outside hle (.inl ?_)).trans hb.head
        rw [span_cons]
        omega
      · have hend : base + span below + b.size = base + span (b :: below) := by
          rw [span_cons]
          omega
        show (mark m b.size (base + span (b :: below))).load wordSize (base + span below + b.size - wordSize) = b.size
        rw [hend, mark_tail hle b.small]
      · refine layout_above hbelow fun x hx => mark_outside hle (.inl ?_)
        rw [span_cons]
        omega
    | cons d above =>
      have hdroom := d.room
      refine ⟨entry_congr hc (@span_replace b b.freed rfl _ _) rfl fun x hx => mark_outside hle (.inr ?_), ih habove (cons_ne_nil _ _)⟩
      rw [cons_append, span_cons, span_append] at hx
      omega

def dropFreed (bs : List Blk) : List Blk := bs.dropWhile fun b => b.owner.isNone

theorem dropFreed_of_freed (h : b.owner.isNone = true) : dropFreed (b :: bs) = dropFreed bs := dropWhile_cons_of_pos h

theorem dropFreed_of_live (h : b.owner.isNone = false) : dropFreed (b :: bs) = b :: bs :=
  dropWhile_cons_of_neg (by rw [h]; exact Bool.false_ne_true)

theorem topFreed_dropFreed (bs : List Blk) : topFreed (dropFreed bs) = false := by
  induction bs with
  | nil => rfl
  | cons b bs ih =>
    cases hb : b.owner.isNone with
    | true => rwa [dropFreed_of_freed hb]
    | false =>
      rw [dropFreed_of_live hb]
      exact hb

theorem exists_dropFreed (bs : List Blk) : ∃ above, bs = above ++ dropFreed bs :=
  ⟨_, (takeWhile_append_dropWhile).symm⟩

theorem ownerAt_dropFreed (base : ℕ) (bs : List Blk) (x : ℕ) : ownerAt base (dropFreed bs) x = ownerAt base bs x := by
  induction bs with
  | nil => rfl
  | cons b bs ih =>
    cases hb : b.owner.isNone with
    | true =>
      rw [dropFreed_of_freed hb, ih]
      by_cases hx : x = base + span bs + wordSize
      · rw [hx, ownerAt_head, Option.isNone_iff_eq_none.mp hb]
        exact ownerAt_none_of_le (by omega)
      · rw [ownerAt_cons_of_ne hx]
    | false => rw [dropFreed_of_live hb]

theorem reclaim_layout {sh : SlabHeap} {size fuel : ℕ} (h : Layout sh.mem base bs) (hsize : size < slFreeMask)
    (hhead : sh.head (base + span bs) = headWord size (topFreed bs)) (hfuel : base + span bs < fuel) :
    reclaim sh fuel (base + span bs) = some (base + span (dropFreed bs)) := by
  induction bs generalizing size fuel with
  | nil =>
    obtain ⟨fuel, rfl⟩ := Nat.exists_eq_add_of_lt hfuel
    rw [reclaim, hhead, slGetFree_headWord hsize]
    rfl
  | cons b bs ih =>
    obtain ⟨hb, hbs⟩ := h
    have hroom := b.room
    have hword : wordSize = 8 := rfl
    obtain ⟨fuel, rfl⟩ := Nat.exists_eq_add_of_lt hfuel
    rw [reclaim, hhead, slGetFree_headWord hsize]
    cases hfree : b.owner.isNone with
    | false =>
      rw [dropFreed_of_live hfree, topFreed, hfree]
      rfl
    | true =>
      have hsub : base + span (b :: bs) - sh.head (base + span (b :: bs) - wordSize) = base + span bs := by
        have htail : sh.head (base + span bs + b.size - wordSize) = b.size := hb.tail (Option.isNone_iff_eq_none.mp hfree)
        rw [span_cons, Nat.add_comm b.size, ← Nat.add_assoc, htail]
        omega
      rw [dropFreed_of_freed hfree, topFreed, hfree, if_pos rfl, hsub]
      refine ih hbs b.small hb.head ?_
      rw [span_cons]
      omega

end

end Slab
end Slapd
end ReOpenLDAP
