import ReOpenLDAP.Slapd.SlBlocks

/-!
# Slapd.SlMallocRight

The slab over runs of calls.

* `slMalloc_sound`     — it holds in all runs of calls that ask for arrays properly.
-/

namespace ReOpenLDAP
namespace Slapd
namespace Slab

open Memory List Option

structure Stack (sh : SlabHeap) (bs : List Blk) : Prop where
  last : sh.shLast = sh.shBase + span bs
  le : sh.shLast ≤ sh.shEnd
  layout : Layout sh.mem sh.shBase bs
  top : topFreed bs = false

section

variable {sh sh' : SlabHeap} {bs : List Blk} {p n k gross x : ℕ}

theorem slapSlMallocIn_spec (h : Stack sh bs) (hpos : 0 < gross) (hlt : gross < slMaxSize)
    (hsome : slapSlMallocIn gross sh = some (p, sh')) :
    (p = sh.shLast + wordSize ∧ p + gross ≤ sh.shEnd ∧ sh'.shBase = sh.shBase ∧ sh'.shEnd = sh.shEnd) ∧
      (∀ x, x < sh.shLast ∨ sh.shEnd ≤ x → sh'.mem x = sh.mem x) ∧ ∃ b : Blk, b.owner = some gross ∧ Stack sh' (b :: bs) := by
  obtain ⟨hdvd, hroom, hsmall, hholds⟩ := slUp2block_spec hpos hlt
  have hword : wordSize = 8 := rfl
  have hle := h.le
  unfold slapSlMallocIn at hsome
  rw [ite_none_right_eq_some] at hsome
  obtain ⟨hfits, hsome⟩ := hsome
  rw [Option.some.injEq, Prod.mk.injEq] at hsome
  obtain ⟨rfl, rfl⟩ := hsome
  have hsame : ∀ x, x < sh.shLast ∨ sh.shEnd ≤ x → (sh.setHead sh.shLast (slUp2block gross)).mem x = sh.mem x :=
    fun x hx => store_outside (by omega)
  have hlt : slUp2block gross < 256 ^ wordSize := headWord_lt hsmall false
  refine ⟨⟨rfl, by omega, rfl, rfl⟩, hsame,
    ⟨slUp2block gross, some gross, hdvd, hroom, hsmall, fun n hn => Option.some.inj hn ▸ hholds⟩, rfl, ?_, ?_, ⟨⟨?_, by simp⟩, ?_⟩, rfl⟩
  · show sh.shLast + slUp2block gross = sh.shBase + (slUp2block gross + span bs)
    have := h.last
    omega
  · show sh.shLast + slUp2block gross ≤ sh.shEnd
    omega
  · show (sh.mem.store wordSize sh.shLast (slUp2block gross)).load wordSize (sh.shBase + span bs) = _
    rw [h.top, ← h.last, load_store_of_lt hlt]
    rfl
  · refine layout_above h.layout fun x hx => hsame x (.inl ?_)
    rw [h.last]
    exact hx

theorem slapSlFree_spec (h : Stack sh bs) (hp : ownerAt sh.shBase bs p = some n) :
    ∃ sh' bs', slapSlFree (some p) sh = some sh' ∧ (sh'.shBase = sh.shBase ∧ sh'.shEnd = sh.shEnd) ∧ Stack sh' bs' ∧
      (∀ x, ownerAt sh.shBase bs' x = if x = p then none else ownerAt sh.shBase bs x) ∧
      (∀ x, x < sh.shBase ∨ sh.shEnd ≤ x → sh'.mem x = sh.mem x) ∧
      ∀ q k, q ≠ p → ownerAt sh.shBase bs q = some k → ∀ x, q ≤ x → x < q + k → sh'.mem x = sh.mem x := by
  obtain ⟨above, b, below, rfl, hb, rfl⟩ := exists_block hp
  have hroom := b.room
  have hword : wordSize = 8 := rfl
  have hlast := h.last
  have hle := h.le
  have hentry := (layout_rest h.layout).1
  have hhead : sh.head (sh.shBase + span below) = headWord b.size (topFreed below) := hentry.head
  rw [span_append, span_cons] at hlast
  rw [slapSlFree, if_neg (by omega)]
  simp only [Nat.add_sub_cancel, hhead, slGetSize_headWord b.small]
  by_cases hmiddle : sh.shLast ≠ sh.shBase + span below + b.size
  · have hne : above ≠ [] := by
      rintro rfl
      exact hmiddle (by rw [hlast]; simp [span]; omega)
    have hcroom : 2 * wordSize ≤ span above := by
      obtain ⟨c, above, rfl⟩ := exists_cons_of_ne_nil hne
      have := c.room
      rw [span_cons]
      omega
    have hnext : sh.shBase + span below + b.size = sh.shBase + span (b :: below) := by
      rw [span_cons]
      omega
    rw [if_pos hmiddle]
    refine ⟨_, above ++ b.freed :: below, rfl, ⟨rfl, rfl⟩, ⟨?_, hle, ?_, ?_⟩, @ownerAt_replace _ b b.freed rfl above below, fun x hx => ?_,
      fun q k hq hk x hqx hxk => ?_⟩
    · rw [span_append]
      exact hlast.trans rfl
    · show Layout (mark sh.mem b.size (sh.shBase + span below + b.size)) sh.shBase _
      rw [hnext]
      exact layout_mark h.layout hne
    · obtain ⟨c, above, rfl⟩ := exists_cons_of_ne_nil hne
      exact h.top
    · exact mark_outside (by omega) (by omega)
    · have := ownerAt_beside hk hq
      rw [span_cons] at this
      exact mark_outside (by omega) (by omega)
  · have hnil : above = [] := by
      by_contra hne
      obtain ⟨c, above, rfl⟩ := exists_cons_of_ne_nil hne
      have := c.room
      rw [span_cons] at hlast
      omega
    subst hnil
    have hbelow := (layout_rest h.layout).2
    obtain ⟨freed, hfreed⟩ := exists_dropFreed below
    rw [if_neg hmiddle, reclaim_layout hbelow b.small hhead (by omega)]
    refine ⟨_, dropFreed below, rfl, ⟨rfl, rfl⟩, ⟨rfl, ?_, ?_, topFreed_dropFreed below⟩, fun x => ?_, fun _ _ => rfl, fun _ _ _ _ _ _ _ => rfl⟩
    · show sh.shBase + span (dropFreed below) ≤ sh.shEnd
      have := congrArg span hfreed
      rw [span_append] at this
      omega
    · rw [hfreed] at hbelow
      exact layout_rest hbelow
    · rw [ownerAt_dropFreed, List.nil_append]
      by_cases hx : x = sh.shBase + span below + wordSize
      · rw [if_pos hx, hx]
        exact ownerAt_none_of_le (by omega)
      · rw [if_neg hx, ownerAt_cons_of_ne hx]

theorem stack_write (h : Stack sh bs) {m : Memory} (hsame : ∀ x, sh.shBase ≤ x → x < sh.shEnd →
    (∀ p n, ownerAt sh.shBase bs p = some n → ¬(p ≤ x ∧ x < p + n)) → m x = sh.mem x) : Stack { sh with mem := m } bs := by
  have hlast := h.last
  have hle := h.le
  exact ⟨hlast, hle, layout_congr h.layout fun x hx hlt => hsame x hx (Nat.lt_of_lt_of_le hlt (hlast ▸ hle)), h.top⟩

theorem slapSlRealloc_spec (h : Stack sh bs) (hp : ownerAt sh.shBase bs p = some k) (hpos : 0 < n) (ch : Option ℕ) (heapSize : ℕ) :
    (∃ sh' bs', slapSlRealloc (some p) n ch heapSize sh = some (some p, sh') ∧ (sh'.shBase = sh.shBase ∧ sh'.shEnd = sh.shEnd) ∧
      Stack sh' bs' ∧ (∀ x, ownerAt sh.shBase bs' x = if x = p then some n else ownerAt sh.shBase bs x) ∧
      ∀ x, x < p - wordSize ∨ p ≤ x → sh'.mem x = sh.mem x) ∨
    ∃ oldNettSize, k ≤ oldNettSize ∧ slapSlRealloc (some p) n ch heapSize sh = slapSlMove p n oldNettSize ch sh := by
  obtain ⟨above, b, below, rfl, hb, rfl⟩ := exists_block hp
  have hroom := b.room
  have hholds := b.holds k hb
  have hword : wordSize = 8 := rfl
  have hlast := h.last
  have hle := h.le
  have hentry := (layout_rest h.layout).1
  have hhead : sh.head (sh.shBase + span below) = headWord b.size (topFreed below) := hentry.head
  rw [span_append, span_cons] at hlast
  rw [slapSlRealloc, if_neg (by omega), if_neg (by omega)]
  simp only [Nat.add_sub_cancel, hhead, slGetSize_headWord b.small]
  rw [if_neg (by omega)]
  by_cases hsame : n < slMaxSize ∧ slUp2block n ≤ b.size
  · obtain ⟨-, -, -, hnew⟩ := slUp2block_spec hpos hsame.1
    let b' : Blk := { b with owner := some n, holds := fun k hk => Option.some.inj hk ▸ hnew.trans hsame.2 }
    rw [if_pos hsame]
    refine .inl ⟨sh, above ++ b' :: below, rfl, ⟨rfl, rfl⟩, ⟨?_, hle, @layout_replace _ _ b _ _ b' rfl (by rw [hb]; rfl) rfl h.layout, ?_⟩,
      @ownerAt_replace _ b b' rfl above below, fun _ _ => rfl⟩
    · rw [@span_replace b b' rfl]
      exact h.last
    · cases above with
      | nil => rfl
      | cons c above => exact h.top
  rw [if_neg hsame]
  by_cases hgrow : n < slMaxSize ∧ sh.shBase + span below + b.size = sh.shLast ∧ slUp2block n < sh.shEnd - (sh.shBase + span below)
  · obtain ⟨hdvd, hroom', hsmall, hnew⟩ := slUp2block_spec hpos hgrow.1
    have hnil : above = [] := by
      by_contra hne
      obtain ⟨c, above, rfl⟩ := exists_cons_of_ne_nil hne
      have := c.room
      rw [span_cons] at hlast
      omega
    subst hnil
    let b' : Blk := ⟨slUp2block n, some n, hdvd, hroom', hsmall, fun k hk => Option.some.inj hk ▸ hnew⟩
    have hlt : headWord (slUp2block n) (topFreed below) < 256 ^ wordSize := headWord_lt hsmall _
    rw [if_pos hgrow, slUpdateSize_headWord b.small]
    refine .inl ⟨_, b' :: below, rfl, ⟨rfl, rfl⟩, ⟨?_, ?_, ⟨⟨?_, by simp⟩, ?_⟩, rfl⟩, fun x => ?_, fun x hx => store_outside (by omega)⟩
    · show sh.shBase + span below + slUp2block n = sh.shBase + (slUp2block n + span below)
      omega
    · show sh.shBase + span below + slUp2block n ≤ sh.shEnd
      omega
    · exact load_store_of_lt hlt
    · exact layout_above (layout_rest h.layout).2 fun x hx => store_outside (.inl hx)
    · by_cases hx : x = sh.shBase + span below + wordSize
      · rw [if_pos hx, hx]
        exact ownerAt_head b' below
      · rw [if_neg hx, ownerAt_cons_of_ne hx, List.nil_append, ownerAt_cons_of_ne hx]
  · rw [if_neg hgrow]
    exact .inr ⟨b.size - wordSize, by omega, rfl⟩

end

structure Inv (s : State) : Prop where
  aligned : wordSize ∣ s.sh.shBase
  blocks : ∃ bs, Stack s.sh bs ∧ ∀ x, s.InSlab x → s.live x = ownerAt s.sh.shBase bs x
  heap : ∀ p n, s.live p = some n → ¬s.InSlab p → p + n ≤ s.sh.shBase ∨ s.sh.shEnd ≤ p
  apart : ∀ p q n k, s.live p = some n → s.live q = some k → ¬s.InSlab p → ¬s.InSlab q → p ≠ q → p + n ≤ q ∨ q + k ≤ p

/-- What a call that gets `old` and returns `new` of `n` bytes does for all callers. -/
structure Gives (s : State) (old new : Option ℕ) (n : ℕ) (sh' : SlabHeap) : Prop where
  ends : sh'.shBase = s.sh.shBase ∧ sh'.shEnd = s.sh.shEnd
  blocks : ∃ bs, Stack sh' bs ∧ ∀ x, s.InSlab x → handOut s.live old new n x = ownerAt s.sh.shBase bs x
  heap : ∀ a, new = some a → ¬s.InSlab a → (a + n ≤ s.sh.shBase ∨ s.sh.shEnd ≤ a) ∧
    ∀ p k, s.live p = some k → old ≠ some p → a + n ≤ p ∨ p + k ≤ a
  fresh : ∀ a, new = some a → old ≠ some a → s.InSlab a → s.live a = none
  keeps : ∀ q k, s.live q = some k → old ≠ some q → ∀ x, q ≤ x → x < q + k → sh'.mem x = s.sh.mem x
  content : ∀ p k a, old = some p → s.live p = some k → new = some a → ∀ i < min k n, sh'.mem (a + i) = s.sh.mem (p + i)

section

variable {s : State} {sh' : SlabHeap} {old new ch : Option ℕ} {p q a n k x : ℕ} {live : ℕ → Option ℕ}

theorem handOut_of_ne (hnew : new ≠ some p) (hold : old ≠ some p) : handOut live old new n p = live p := by
  rw [handOut, if_neg hnew, if_neg hold]

theorem handOut_eq_some (h : handOut live old new n p = some k) : new = some p ∧ k = n ∨ old ≠ some p ∧ live p = some k := by
  unfold handOut at h
  by_cases hnew : new = some p
  · rw [if_pos hnew] at h
    exact .inl ⟨hnew, (Option.some.inj h).symm⟩
  · rw [if_neg hnew] at h
    by_cases hold : old = some p
    · rw [if_pos hold] at h
      cases h
    · rw [if_neg hold] at h
      exact .inr ⟨hold, h⟩

theorem handOut_handOut (hne : p ≠ a) (x : ℕ) :
    handOut (handOut live none (some a) n) (some p) none k x = handOut live (some p) (some a) n x := by
  by_cases hxa : x = a
  · have hpx : some p ≠ some x := fun hsome => hne ((Option.some.inj hsome).trans hxa)
    rw [handOut_of_ne (by simp) hpx, hxa, handOut, handOut, if_pos rfl, if_pos rfl]
  · have hax : some a ≠ some x := fun hsome => hxa (Option.some.inj hsome).symm
    by_cases hxp : x = p
    · rw [hxp] at hax ⊢
      rw [handOut, if_neg (by simp), if_pos rfl, handOut, if_neg hax, if_pos rfl]
    · have hpx : some p ≠ some x := fun hsome => hxp (Option.some.inj hsome).symm
      rw [handOut_of_ne (by simp) hpx, handOut_of_ne hax (by simp), handOut_of_ne hax hpx]

theorem inv_of_gives (h : Inv s) (hgives : Gives s old new n sh') : Inv ⟨sh', handOut s.live old new n⟩ := by
  obtain ⟨hbase, hend⟩ := hgives.ends
  have hin : ∀ x, State.InSlab ⟨sh', handOut s.live old new n⟩ x ↔ s.InSlab x := fun x => by
    show sh'.shBase ≤ x ∧ x < sh'.shEnd ↔ _
    rw [hbase, hend]
    rfl
  obtain ⟨bs, hstack, howners⟩ := hgives.blocks
  refine ⟨by rw [hbase]; exact h.aligned, ⟨bs, hstack, fun x hx => ?_⟩, fun p k hp hout => ?_, fun p q k j hp hq hpout hqout hne => ?_⟩
  · rw [hbase]
    exact howners x ((hin x).mp hx)
  · rw [hin] at hout
    rw [hbase, hend]
    rcases handOut_eq_some hp with ⟨hnew, rfl⟩ | ⟨-, hlive⟩
    · exact (hgives.heap p hnew hout).1
    · exact h.heap p k hlive hout
  · rw [hin] at hpout hqout
    rcases handOut_eq_some hp with ⟨hpnew, rfl⟩ | ⟨hpold, hplive⟩
    · rcases handOut_eq_some hq with ⟨hqnew, -⟩ | ⟨hqold, hqlive⟩
      · exact absurd (Option.some.inj (hpnew.symm.trans hqnew)) hne
      · exact (hgives.heap p hpnew hpout).2 q j hqlive hqold
    · rcases handOut_eq_some hq with ⟨hqnew, rfl⟩ | ⟨-, hqlive⟩
      · exact ((hgives.heap q hqnew hqout).2 p k hplive hpold).symm
      · exact h.apart p q k j hplive hqlive hpout hqout hne

theorem Inv.range (h : Inv s) (hp : s.live p = some n) (hin : s.InSlab p) :
    s.sh.shBase + wordSize ≤ p ∧ p + n ≤ s.sh.shLast ∧ s.sh.shLast ≤ s.sh.shEnd := by
  obtain ⟨bs, hstack, howners⟩ := h.blocks
  rw [howners p hin] at hp
  have := ownerAt_range hp
  rw [hstack.last]
  exact ⟨this.1, this.2, hstack.last ▸ hstack.le⟩

theorem Inv.disjoint (h : Inv s) (hp : s.live p = some n) (hq : s.live q = some k) (hne : p ≠ q) : p + n ≤ q ∨ q + k ≤ p := by
  by_cases hpin : s.InSlab p
  · by_cases hqin : s.InSlab q
    · obtain ⟨bs, -, howners⟩ := h.blocks
      rw [howners p hpin] at hp
      rw [howners q hqin] at hq
      have := ownerAt_apart hp hq hne
      omega
    · have hrange := h.range hp hpin
      have := h.heap q k hq hqin
      omega
  · by_cases hqin : s.InSlab q
    · have hrange := h.range hq hqin
      have := h.heap p n hp hpin
      omega
    · exact h.apart p q n k hp hq hpin hqin hne

theorem write_inv (h : Inv s) {mem : Memory} (hsame : ∀ x, s.InSlab x → ¬s.Covers x → mem x = s.sh.mem x) :
    Inv { s with sh := { s.sh with mem := mem } } := by
  obtain ⟨bs, hstack, howners⟩ := h.blocks
  refine ⟨h.aligned, ⟨bs, stack_write hstack fun x hle hlt hout => hsame x ⟨hle, hlt⟩ ?_, howners⟩, h.heap, h.apart⟩
  rintro ⟨p, n, hp, hpx, hxp⟩
  by_cases hin : s.InSlab p
  · exact hout p n ((howners p hin).symm.trans hp) ⟨hpx, hxp⟩
  · have := h.heap p n hp hin
    omega

/-! ## The functions -/

theorem gives_refl (h : Inv s) (n : ℕ) : Gives s none none n s.sh := by
  obtain ⟨bs, hstack, howners⟩ := h.blocks
  exact ⟨⟨rfl, rfl⟩, ⟨bs, hstack, fun x hx => (handOut_of_ne (by simp) (by simp)).trans (howners x hx)⟩, by simp, by simp, fun _ _ _ _ _ _ _ => rfl,
    by simp⟩

theorem gives_in (h : Inv s) (hpos : 0 < n) (hlt : n < slMaxSize) (hsome : slapSlMallocIn n s.sh = some (a, sh')) {m : Memory}
    (hm : ∀ x, x < a ∨ a + n ≤ x → m x = sh'.mem x) : Gives s none (some a) n { sh' with mem := m } := by
  obtain ⟨bs, hstack, howners⟩ := h.blocks
  obtain ⟨⟨rfl, hfits, hbase, hend⟩, hsame, b, hb, hstack'⟩ := slapSlMallocIn_spec hstack hpos hlt hsome
  have hlast := hstack.last
  have hlater : s.sh.shLast + wordSize = s.sh.shBase + span bs + wordSize := by rw [hlast]
  have hhead : ownerAt s.sh.shBase (b :: bs) (s.sh.shLast + wordSize) = some n := by rw [hlater, ownerAt_head, hb]
  refine ⟨⟨hbase, hend⟩, ⟨b :: bs, stack_write hstack' fun x _ _ hout => hm x ?_, fun x hx => ?_⟩, fun a ha hout => ?_,
    fun a ha _ hin => ?_, fun q k hq _ x hqx hxk => ?_, by simp⟩
  · rw [hbase] at hout
    have := hout _ _ hhead
    omega
  · by_cases hxa : x = s.sh.shLast + wordSize
    · rw [hxa, hhead, handOut, if_pos rfl]
    · rw [handOut_of_ne (fun hsome => hxa (Option.some.inj hsome).symm) (by simp), howners x hx, ownerAt_cons_of_ne (by omega)]
  · obtain rfl := Option.some.inj ha
    exact absurd ⟨by omega, by omega⟩ hout
  · obtain rfl := Option.some.inj ha
    rw [howners _ hin]
    exact ownerAt_none_of_le (by omega)
  · have hbelow : x < s.sh.shLast ∨ s.sh.shEnd ≤ x := by
      by_cases hin : s.InSlab q
      · have := h.range hq hin
        omega
      · have := h.heap q k hq hin
        omega
    show m x = s.sh.mem x
    rw [hm x (by omega), hsame x hbelow]

theorem gives_heap (h : Inv s) (hpos : 0 < n) (hold : ∀ p, old = some p → ¬s.InSlab p) (hfar : a + n ≤ s.sh.shBase ∨ s.sh.shEnd ≤ a)
    (hapart : ∀ p k, s.live p = some k → old ≠ some p → a + n ≤ p ∨ p + k ≤ a) {m : Memory}
    (hm : ∀ x, x < a ∨ a + n ≤ x → m x = s.sh.mem x)
    (hcontent : ∀ p k, old = some p → s.live p = some k → ∀ i < min k n, m (a + i) = s.sh.mem (p + i)) :
    Gives s old (some a) n { s.sh with mem := m } := by
  obtain ⟨bs, hstack, howners⟩ := h.blocks
  refine ⟨⟨rfl, rfl⟩, ⟨bs, stack_write hstack fun x hle hlt _ => hm x (by omega), fun x hx => ?_⟩, fun b hb _ => ?_,
    fun b hb _ hin => ?_, fun q k hq hne x hqx hxk => hm x ?_, fun p k b hp hk hb => ?_⟩
  · have hxa : some a ≠ some x := fun hsome => by
      obtain ⟨hle, hlt⟩ := hx
      obtain rfl := Option.some.inj hsome
      omega
    rw [handOut_of_ne hxa fun hsome => hold x hsome hx, howners x hx]
  · obtain rfl := Option.some.inj hb
    exact ⟨hfar, hapart⟩
  · obtain rfl := Option.some.inj hb
    obtain ⟨hle, hlt⟩ := hin
    omega
  · have := hapart q k hq hne
    omega
  · obtain rfl := Option.some.inj hb
    exact hcontent p k hp hk

def HeapApart (s : State) (n : ℕ) (ch : Option ℕ) : Prop :=
  ∀ a, ch = some a → (a + n ≤ s.sh.shBase ∨ s.sh.shEnd ≤ a) ∧ ∀ p k, s.live p = some k → a + n ≤ p ∨ p + k ≤ a

theorem slapSlMalloc_gives (h : Inv s) (hch : HeapApart s n ch) (hsome : slapSlMalloc n ch s.sh = some (new, sh')) :
    Gives s none new n sh' := by
  unfold slapSlMalloc at hsome
  by_cases hzero : n = 0
  · rw [if_pos hzero] at hsome
    cases hsome
    exact gives_refl h n
  rw [if_neg hzero] at hsome
  have hpos := Nat.pos_of_ne_zero hzero
  cases hin : (if n < slMaxSize then slapSlMallocIn n s.sh else none) with
  | some r =>
    obtain ⟨a, sh⟩ := r
    rw [hin] at hsome
    cases hsome
    obtain ⟨hlt, hin⟩ := Option.ite_none_right_eq_some.mp hin
    exact gives_in h hpos hlt hin fun _ _ => rfl
  | none =>
    rw [hin] at hsome
    obtain ⟨a, ha, heq⟩ := Option.map_eq_some_iff.mp hsome
    rw [chMalloc, if_neg hzero] at ha
    cases heq
    obtain ⟨hfar, hapart⟩ := hch a ha
    exact gives_heap h hpos (by simp) hfar (fun p k hp _ => hapart p k hp) (fun _ _ => rfl) (by simp)

theorem slapSlCalloc_gives {k : ℕ} (h : Inv s) (hch : HeapApart s (n * k) ch) (hproper : (Call.calloc n k).Proper)
    (hsome : slapSlCalloc n k ch s.sh = some (new, sh')) : Gives s none new (n * k) sh' := by
  unfold slapSlCalloc at hsome
  by_cases hzero : n ||| k = 0
  · obtain ⟨rfl, rfl⟩ := Nat.or_eq_zero_iff.mp hzero
    rw [if_pos hzero] at hsome
    cases hsome
    exact gives_refl h _
  rw [if_neg hzero, ite_none_left_eq_some] at hsome
  obtain ⟨hrange, hsome⟩ := hsome
  obtain ⟨hpos, hlt⟩ : 0 < n * k ∧ n * k < 2 ^ 64 := by
    rcases hproper with ⟨rfl, rfl⟩ | hout | hproduct
    · exact absurd (Nat.or_self 0) hzero
    · exact absurd hout hrange
    · exact hproduct
  simp only [Nat.mod_eq_of_lt hlt] at hsome
  cases hin : (if n * k < slMaxSize then slapSlMallocIn (n * k) s.sh else none) with
  | some r =>
    obtain ⟨a, sh⟩ := r
    rw [hin] at hsome
    cases hsome
    obtain ⟨hlt, hin⟩ := Option.ite_none_right_eq_some.mp hin
    exact gives_in h hpos hlt hin fun x hx => fill_outside hx
  | none =>
    rw [hin] at hsome
    obtain ⟨a, ha, heq⟩ := Option.map_eq_some_iff.mp hsome
    rw [chCalloc, ite_none_left_eq_some] at ha
    cases heq
    obtain ⟨hfar, hapart⟩ := hch a ha.2
    exact gives_heap h hpos (by simp) hfar (fun p k hp _ => hapart p k hp) (fun x hx => fill_outside hx) (by simp)

theorem slapSlFree_gives (h : Inv s) (hp : s.live p = some k) (n : ℕ) :
    ∃ sh', slapSlFree (some p) s.sh = some sh' ∧ Gives s (some p) none n sh' := by
  obtain ⟨bs, hstack, howners⟩ := h.blocks
  have hnone : ∀ x, x ≠ p → handOut s.live (some p) none n x = s.live x := fun x hx =>
    handOut_of_ne (by simp) fun hsome => hx (Option.some.inj hsome).symm
  by_cases hin : s.InSlab p
  · obtain ⟨sh', bs', hfree, hends, hstack', howners', hout, hkeep⟩ := slapSlFree_spec hstack ((howners p hin).symm.trans hp)
    refine ⟨sh', hfree, hends, ⟨bs', hstack', fun x hx => ?_⟩, by simp, by simp, fun q j hq hne x hqx hxj => ?_, by simp⟩
    · rw [howners']
      by_cases hxp : x = p
      · rw [if_pos hxp, hxp, handOut, if_neg (by simp), if_pos rfl]
      · rw [if_neg hxp, hnone x hxp, howners x hx]
    · by_cases hqin : s.InSlab q
      · exact hkeep q j (fun hqp => hne (congrArg some hqp.symm)) ((howners q hqin).symm.trans hq) x hqx hxj
      · have := h.heap q j hq hqin
        exact hout x (by omega)
  · have hfree : slapSlFree (some p) s.sh = some s.sh := by
      rw [slapSlFree, if_pos]
      unfold State.InSlab at hin
      omega
    refine ⟨s.sh, hfree, ⟨rfl, rfl⟩, ⟨bs, hstack, fun x hx => ?_⟩, by simp, by simp, fun _ _ _ _ _ _ _ => rfl, by simp⟩
    rw [hnone x (fun hxp => hin (hxp ▸ hx)), howners x hx]

theorem slapSlMalloc_ne_none (hpos : 0 < n) {sh : SlabHeap} (hsome : slapSlMalloc n ch sh = some (new, sh')) : ∃ a, new = some a := by
  unfold slapSlMalloc at hsome
  rw [if_neg hpos.ne'] at hsome
  cases hin : (if n < slMaxSize then slapSlMallocIn n sh else none) with
  | some r =>
    rw [hin] at hsome
    cases hsome
    exact ⟨_, rfl⟩
  | none =>
    rw [hin] at hsome
    obtain ⟨a, -, heq⟩ := Option.map_eq_some_iff.mp hsome
    cases heq
    exact ⟨a, rfl⟩

theorem slapSlMove_gives {oldNettSize : ℕ} (h : Inv s) (hp : s.live p = some k) (hin : s.InSlab p) (hpos : 0 < n)
    (hle : k ≤ oldNettSize) (hch : HeapApart s n ch) (hsome : slapSlMove p n oldNettSize ch s.sh = some (new, sh')) :
    Gives s (some p) new n sh' := by
  unfold slapSlMove at hsome
  cases hmalloc : slapSlMalloc n ch s.sh with
  | none =>
    rw [hmalloc] at hsome
    cases hsome
  | some r =>
    obtain ⟨r, sh1⟩ := r
    obtain ⟨a, rfl⟩ := slapSlMalloc_ne_none hpos hmalloc
    rw [hmalloc] at hsome
    have hgives := slapSlMalloc_gives h hch hmalloc
    have hnew := inv_of_gives h hgives
    let s1 : State := ⟨sh1, handOut s.live none (some a) n⟩
    have hlive : ∀ q j, s.live q = some j → 0 < j → q ≠ a := by
      rintro q j hq hj rfl
      by_cases hqin : s.InSlab q
      · rw [hgives.fresh q rfl (by simp) hqin] at hq
        cases hq
      · have := (hgives.heap q rfl hqin).2 q j hq (by simp)
        omega
    have hpa : p ≠ a := by
      rintro rfl
      rw [hgives.fresh p rfl (by simp) hin] at hp
      cases hp
    have hkept : ∀ q j, q ≠ a → s.live q = some j → s1.live q = some j := fun q j hqa hq =>
      (handOut_of_ne (fun hsome => hqa (Option.some.inj hsome).symm) (by simp)).trans hq
    have ha : s1.live a = some n := if_pos rfl
    have hcopy : Inv { s1 with sh := { sh1 with mem := sh1.mem.copy a p (min oldNettSize n) } } :=
      write_inv hnew fun x _ hout => copy_outside (by
        by_contra hx
        exact hout ⟨a, n, ha, by omega, by omega⟩)
    obtain ⟨sh3, hfree, hgives3⟩ := slapSlFree_gives hcopy (hkept p k hpa hp) n
    obtain ⟨sh4, heq4, heq⟩ := Option.map_eq_some_iff.mp hsome
    obtain rfl : sh3 = sh4 := Option.some.inj (hfree.symm.trans heq4)
    cases heq
    obtain ⟨bs, hstack, howners⟩ := hgives3.blocks
    refine ⟨⟨hgives3.ends.1.trans hgives.ends.1, hgives3.ends.2.trans hgives.ends.2⟩, ⟨bs, hstack, fun x hx => ?_⟩,
      fun b hb hout => ?_, fun b hb _ hbin => hgives.fresh b hb (by simp) hbin, fun q j hq hne x hqx hxj => ?_,
      fun q j b hq hj hb i hi => ?_⟩
    · have hx' : State.InSlab { s1 with sh := { sh1 with mem := sh1.mem.copy a p (min oldNettSize n) } } x := by
        show sh1.shBase ≤ x ∧ x < sh1.shEnd
        rw [hgives.ends.1, hgives.ends.2]
        exact hx
      have hone := howners x hx'
      rw [show ownerAt s.sh.shBase bs x = ownerAt sh1.shBase bs x by rw [hgives.ends.1], ← hone]
      exact (handOut_handOut hpa x).symm
    · obtain ⟨hfar, hapart⟩ := hgives.heap b hb hout
      exact ⟨hfar, fun q j hq _ => hapart q j hq (by simp)⟩
    · have hqa := hlive q j hq (by omega)
      have hdisjoint := hnew.disjoint ha (hkept q j hqa hq) (Ne.symm hqa)
      rw [hgives3.keeps q j (hkept q j hqa hq) hne x hqx hxj, ← hgives.keeps q j hq (by simp) x hqx hxj]
      exact copy_outside (by omega)
    · obtain rfl := Option.some.inj hb
      obtain rfl := Option.some.inj hq
      obtain rfl : k = j := Option.some.inj (hp.symm.trans hj)
      rw [hgives3.keeps a n ha (fun hpb => hpa (Option.some.inj hpb)) (a + i) (by omega) (by omega),
        ← hgives.keeps p k hp (by simp) (p + i) (by omega) (by omega)]
      exact copy_inside (by omega)

theorem slapSlRealloc_gives (h : Inv s) (hold : ∀ p, old = some p → (s.live p).isSome)
    (hch : ∀ a, ch = some a → (a + n ≤ s.sh.shBase ∨ s.sh.shEnd ≤ a) ∧ ∀ p k, s.live p = some k → old ≠ some p → a + n ≤ p ∨ p + k ≤ a)
    (hsome : slapSlRealloc old n ch ((old.bind s.live).getD 0) s.sh = some (new, sh')) : Gives s old new n sh' := by
  cases old with
  | none => exact slapSlMalloc_gives h (fun a ha => ⟨(hch a ha).1, fun p k hp => (hch a ha).2 p k hp (by simp)⟩) hsome
  | some p =>
    obtain ⟨k, hp⟩ := Option.isSome_iff_exists.mp (hold p rfl)
    by_cases hin : s.InSlab p
    · have hrange := h.range hp hin
      have hword : wordSize = 8 := rfl
      obtain ⟨hbase, hend⟩ := hin
      rcases Nat.eq_zero_or_pos n with rfl | hpos
      · rw [slapSlRealloc, if_neg (by omega), if_pos rfl] at hsome
        obtain ⟨sh3, hfree, hgives⟩ := slapSlFree_gives h hp 0
        rw [hfree] at hsome
        cases hsome
        exact hgives
      · obtain ⟨bs, hstack, howners⟩ := h.blocks
        have hhere := (howners p ⟨hbase, hend⟩).symm.trans hp
        rcases slapSlRealloc_spec hstack hhere hpos ch (((some p).bind s.live).getD 0) with
          ⟨sh3, bs', hplace, hends, hstack', howners', hsame⟩ | ⟨oldNettSize, hle, hmove⟩
        · rw [hplace] at hsome
          cases hsome
          refine ⟨hends, ⟨bs', hstack', fun x hx => ?_⟩, fun a ha hout => ?_, fun a ha hne => absurd ha hne,
            fun q j hq hne x hqx hxj => hsame x ?_, fun q j a hq hj ha i hi => ?_⟩
          · rw [howners']
            by_cases hxp : x = p
            · rw [hxp, handOut, if_pos rfl, if_pos rfl]
            · have hpx : some p ≠ some x := fun hsome => hxp (Option.some.inj hsome).symm
              rw [handOut_of_ne hpx hpx, if_neg hxp, howners x hx]
          · obtain rfl := Option.some.inj ha
            exact absurd ⟨hbase, hend⟩ hout
          · by_cases hqin : s.InSlab q
            · have := ownerAt_apart hhere ((howners q hqin).symm.trans hq) fun hpq => hne (congrArg some hpq)
              omega
            · have := h.heap q j hq hqin
              omega
          · obtain rfl := Option.some.inj ha
            obtain rfl := Option.some.inj hq
            exact hsame _ (.inr (by omega))
        · rw [hmove] at hsome
          refine slapSlMove_gives h hp ⟨hbase, hend⟩ hpos hle (fun a ha => ⟨(hch a ha).1, fun q j hq => ?_⟩) hsome
          by_cases hqp : some p = some q
          · obtain rfl := Option.some.inj hqp
            obtain rfl : k = j := Option.some.inj (hp.symm.trans hq)
            have := (hch a ha).1
            omega
          · exact (hch a ha).2 q j hq hqp
    · have hout : p ≤ s.sh.shBase ∨ s.sh.shEnd ≤ p := by
        unfold State.InSlab at hin
        omega
      rw [slapSlRealloc, if_pos hout] at hsome
      obtain ⟨a, ha, heq⟩ := Option.map_eq_some_iff.mp hsome
      obtain ⟨hzero, ha⟩ := Option.ite_none_left_eq_some.mp ha
      cases heq
      rw [bind_some, hp, getD_some]
      refine gives_heap h (Nat.pos_of_ne_zero hzero) (fun q hq => ?_) (hch a ha).1 (hch a ha).2 (fun x hx => copy_outside (by omega))
        fun q j hq hj i hi => ?_
      · obtain rfl := Option.some.inj hq
        exact hin
      · obtain rfl := Option.some.inj hq
        obtain rfl : k = j := Option.some.inj (hp.symm.trans hj)
        exact copy_inside hi

theorem exec_gives {c : Call} (h : Inv s) (hproper : c.Proper) (hadmits : s.Admits c) (hheap : s.HeapGives c ch)
    (hexec : s.exec ch c = some (new, sh')) : Gives s c.ptr new c.size sh' := by
  have hapart : c.ptr = none → HeapApart s c.size ch := fun hptr a ha =>
    ⟨(hheap a ha).1, fun p k hp => (hheap a ha).2 p k hp (by simp [hptr])⟩
  cases c with
  | malloc n => exact slapSlMalloc_gives h (hapart rfl) hexec
  | calloc n k => exact slapSlCalloc_gives h (hapart rfl) hproper hexec
  | realloc p n => exact slapSlRealloc_gives h hadmits.2 hheap hexec
  | free p =>
    obtain ⟨sh3, hfree, heq⟩ := Option.map_eq_some_iff.mp hexec
    cases heq
    cases p with
    | none =>
      cases hfree
      exact gives_refl h 0
    | some p =>
      obtain ⟨k, hp⟩ := Option.isSome_iff_exists.mp (hadmits.2 p rfl)
      obtain ⟨sh4, hfree4, hgives⟩ := slapSlFree_gives h hp 0
      rw [Option.some.inj (hfree.symm.trans hfree4)]
      exact hgives

theorem step_inv {s' : State} {act : Act} (h : Inv s) (hproper : act.Proper) (hstep : Step s act s') : Inv s' := by
  cases hstep with
  | call hadmits hheap hexec => exact inv_of_gives h (exec_gives h hproper hadmits hheap hexec)
  | write hsame => exact write_inv h hsame

theorem Fresh.inv (h : s.Fresh) : Inv s := by
  refine ⟨h.aligned, ⟨[], ⟨h.last, h.last.trans_le h.le, trivial, rfl⟩, fun x _ => h.live x⟩, fun p n hp => ?_, fun p q n k hp => ?_⟩
  · rw [h.live] at hp
    cases hp
  · rw [h.live] at hp
    cases hp

end

structure Sound (s : State) : Prop where
  aligned : ∀ p n, s.live p = some n → s.InSlab p → wordSize ∣ p
  inside : ∀ p n, s.live p = some n → s.InSlab p → s.sh.shBase + wordSize ≤ p ∧ p + n ≤ s.sh.shLast ∧ s.sh.shLast ≤ s.sh.shEnd
  disjoint : ∀ p q n k, s.live p = some n → s.live q = some k → p ≠ q → p + n ≤ q ∨ q + k ≤ p
  /-- The block in front of `sh_last` is one that a caller has. -/
  last : s.sh.shLast ≠ s.sh.shBase →
    ∃ p n, s.live p = some n ∧ s.InSlab p ∧ p - wordSize + slGetSize (s.sh.head (p - wordSize)) = s.sh.shLast
  empty : (∀ p, s.InSlab p → s.live p = none) → s.sh.shLast = s.sh.shBase
  frees : ∀ p n, s.live p = some n → (slapSlFree (some p) s.sh).isSome

theorem Inv.last {s : State} (h : Inv s) (hlast : s.sh.shLast ≠ s.sh.shBase) :
    ∃ p n, s.live p = some n ∧ s.InSlab p ∧ p - wordSize + slGetSize (s.sh.head (p - wordSize)) = s.sh.shLast := by
  obtain ⟨bs, hstack, howners⟩ := h.blocks
  cases bs with
  | nil => exact absurd hstack.last hlast
  | cons b bs =>
    obtain ⟨n, hn⟩ := Option.isSome_iff_exists.mp (Option.isNone_eq_false_iff.mp hstack.top)
    have hroom := b.room
    have hword : wordSize = 8 := rfl
    have hend := hstack.last
    have hle := hstack.le
    rw [span_cons] at hend
    have hin : s.InSlab (s.sh.shBase + span bs + wordSize) := ⟨by omega, by omega⟩
    refine ⟨_, n, (howners _ hin).trans ((ownerAt_head b bs).trans hn), hin, ?_⟩
    have hhead : s.sh.head (s.sh.shBase + span bs) = headWord b.size (topFreed bs) := hstack.layout.1.head
    rw [Nat.add_sub_cancel, hhead, slGetSize_headWord b.small]
    omega

theorem Inv.sound {s : State} (h : Inv s) : Sound s where
  aligned p n hp hin := by
    obtain ⟨bs, -, howners⟩ := h.blocks
    exact ownerAt_dvd h.aligned ((howners p hin).symm.trans hp)
  inside _ _ hp hin := h.range hp hin
  disjoint _ _ _ _ hp hq hne := h.disjoint hp hq hne
  last := h.last
  empty hnone := by
    by_contra hlast
    obtain ⟨p, n, hp, hin, -⟩ := h.last hlast
    rw [hnone p hin] at hp
    cases hp
  frees p n hp := by
    obtain ⟨sh', hfree, -⟩ := slapSlFree_gives h hp 0
    rw [hfree]
    rfl

/-- In all runs of calls, in any order, of which none asks for an array without bytes, or of more bytes than 64 bits count, in a way that
the test lets through. Of each call after such a run: the bytes of the other blocks are left alone, and those of a block that is
reallocated are in the new one. -/
theorem slMalloc_sound {s s' : State} {acts : List Act} (hfresh : s.Fresh) (hrun : Steps Step s acts s')
    (hproper : ∀ a ∈ acts, a.Proper) :
    Sound s' ∧ ∀ c ch new sh, c.Proper → s'.Admits c → s'.HeapGives c ch → s'.exec ch c = some (new, sh) →
      (∀ q k, s'.live q = some k → c.ptr ≠ some q → ∀ x, q ≤ x → x < q + k → sh.mem x = s'.sh.mem x) ∧
      ∀ p k a, c.ptr = some p → s'.live p = some k → new = some a → ∀ i < min k c.size, sh.mem (a + i) = s'.sh.mem (p + i) := by
  have hinv : Inv s' := hrun.invariant_of Inv Act.Proper (fun _ _ _ h hp hstep => step_inv h hp hstep) hproper (Fresh.inv hfresh)
  refine ⟨hinv.sound, fun c ch new sh hc hadmits hheap hexec => ?_⟩
  have hgives := exec_gives hinv hc hadmits hheap hexec
  exact ⟨hgives.keeps, hgives.content⟩

def emptySlab : State := ⟨⟨64, 64, 256, fun _ => 0⟩, fun _ => none⟩

theorem emptySlab_fresh : emptySlab.Fresh := ⟨by decide, by decide, rfl, fun _ => rfl⟩

theorem slMalloc_sound_three :
    ∃ s, emptySlab.calls [.malloc 8, .calloc 2 8, .realloc (some 72) 24] = some s ∧ s.sh.shLast = 136 ∧ Sound s := by
  obtain ⟨s, hs⟩ := Option.isSome_iff_exists.mp
    (show (emptySlab.calls [.malloc 8, .calloc 2 8, .realloc (some 72) 24]).isSome by decide +kernel)
  have hlast : (emptySlab.calls [.malloc 8, .calloc 2 8, .realloc (some 72) 24]).map (·.sh.shLast) = some 136 := by decide +kernel
  rw [hs] at hlast
  refine ⟨s, hs, Option.some.inj hlast, (slMalloc_sound emptySlab_fresh (steps_of_calls hs) fun a ha => ?_).1⟩
  simp only [map_cons, map_nil, mem_cons, not_mem_nil, or_false] at ha
  rcases ha with rfl | rfl | rfl
  · trivial
  · exact .inr (.inr ⟨by decide, by decide⟩)
  · trivial

/-- An array without bytes is a block without a tail of its own: freed, it writes its size over its head. -/
theorem slMalloc_not_sound :
    ∃ s, emptySlab.Fresh ∧ Steps Step emptySlab ([Call.malloc 8, .calloc 0 1, .malloc 8, .free (some 72), .free (some 88),
      .free (some 96)].map fun c => .call c none) s ∧ s.sh.shLast = 80 ∧ (∀ p, s.InSlab p → s.live p = none) ∧ ¬Sound s := by
  have hrun : (emptySlab.calls [.malloc 8, .calloc 0 1, .malloc 8, .free (some 72), .free (some 88), .free (some 96)]).map
      (fun s => (s.sh.shBase, s.sh.shEnd, s.sh.shLast, (List.range 256).all fun p => (s.live p).isNone)) =
      some (64, 256, 80, true) := by
    decide +kernel
  obtain ⟨s, hs, hstate⟩ := Option.map_eq_some_iff.mp hrun
  simp only [Prod.mk.injEq, List.all_eq_true, mem_range, isNone_iff_eq_none] at hstate
  obtain ⟨hbase, hend, hlast, hnone⟩ := hstate
  have hempty : ∀ p, s.InSlab p → s.live p = none := fun p hp => hnone p (hend ▸ hp.2)
  refine ⟨s, emptySlab_fresh, steps_of_calls hs, hlast, hempty, fun hsound => ?_⟩
  have := hsound.empty hempty
  omega

end Slab
end Slapd
end ReOpenLDAP
