import Mathlib.Data.Set.Card
import ReOpenLDAP.Slapd.Rurwl

/-!
# Slapd.RurwlRight

The lock over runs.

* `rurw_consistent`    — the lock in all proper runs.
-/

namespace ReOpenLDAP
namespace Slapd
namespace Rurw

open Function ReaderWriter

variable {τ : Type*}

def Nests (s : System τ) (t : τ) : Call → Prop
  | .rLock => ∀ i, (s.lock.state i).thr = some t → 0 < (s.lock.state i).state.r
  | .wLock => ∀ i, (s.lock.state i).thr = some t → 0 < (s.lock.state i).state.w
  | .obtain state => state = ⟨0, 0⟩ ∨ ∀ i, (s.lock.state i).thr ≠ some t
  | _ => True

def OneSlot (s : System τ) (t : τ) : Prop :=
  ∀ i j : Place, (s.lock.state i).thr = some t → s.index t = j + 1 → (s.lock.state j).thr ≠ none

def Proper (s : System τ) : Act τ → Prop
  | .call t c => Nests s t c ∧ (c.acquire = true → OneSlot s t)
  | _ => True

def AtOnce (s : System τ) : Act τ → Prop
  | .lock t =>
    match s.pc t with
    | .locking (.obtain state) _ => s.lock.rurwWriter = false ∧ (0 < state.w → s.lock.rurwReaders = 0)
    | _ => True
  | _ => True

section

variable [DecidableEq τ]

instance (s : System τ) (t : τ) : DecidablePred (Nests s t)
  | .rLock => inferInstanceAs (Decidable (∀ _, _))
  | .wLock => inferInstanceAs (Decidable (∀ _, _))
  | .obtain _ => inferInstanceAs (Decidable (_ ∨ _))
  | .rUnlock | .wUnlock | .retreat => .isTrue trivial

instance (s : System τ) (t : τ) : Decidable (OneSlot s t) := inferInstanceAs (Decidable (∀ _ _, _))

instance (s : System τ) : DecidablePred (Proper s)
  | .call _ _ => inferInstanceAs (Decidable (_ ∧ _))
  | .lock _ | .wake _ => .isTrue trivial

end

def Reads (s : System τ) (t : τ) : Prop := ∃ i, (s.lock.state i).thr = some t ∧ 0 < (s.lock.state i).state.r

def Writes (s : System τ) (t : τ) : Prop := ∃ i, (s.lock.state i).thr = some t ∧ 0 < (s.lock.state i).state.w

/-- A thread that waits in `rurw_obtain`. -/
def Pc.obtaining : Pc → Bool
  | .waiting (.obtain _) _ => true
  | _ => false

structure Consistent (s : System τ) (counts : τ → Prop) : Prop where
  readers : s.lock.rurwReaders = {t | counts t ∧ Reads s t}.ncard
  writer : s.lock.rurwWriter = true ↔ ∃! t, counts t ∧ Writes s t
  alone : ∀ t u, counts t → Writes s t → counts u → Reads s u ∨ Writes s u → u = t

/-- Who comes to wait in a step does so for another one, that reads or writes. -/
def WaitsForOther (s : System τ) (a : Act τ) (s' : System τ) : Prop :=
  ∀ c i, s'.pc a.thread = .waiting c i → ∃ u, u ≠ a.thread ∧ (s.pc u).obtaining = false ∧ (Reads s u ∨ Writes s u)

def Fits : Call → Depth → Prop
  | .rUnlock, d => 0 < d.r
  | .wUnlock, d => 0 < d.w
  | .retreat, d => d ≠ ⟨0, 0⟩
  | _, _ => False

def PcOk (slots : Place → ThrState τ) (index : ℕ) (t : τ) : Pc → Prop
  | .idle => ∀ i, (slots i).thr = some t → (slots i).state ≠ ⟨0, 0⟩
  | .locking c (.found i) => (slots i).thr = some t ∧ Fits c (slots i).state
  | .locking _ .null => False
  | .locking c (.lockOwn i) => (c.acquire ∧ c ≠ .obtain ⟨0, 0⟩) ∧ index = i + 1 ∧ ∀ j, (slots j).thr ≠ some t
  | .locking c (.lockScan mask) =>
    (c.acquire ∧ c ≠ .obtain ⟨0, 0⟩) ∧ (∀ j : Place, index = j + 1 → mask = some j) ∧
      (∀ j, mask = some j → index = j + 1) ∧ ∀ j, (slots j).thr ≠ some t
  | .waiting c i => (slots i).thr = some t ∧
    ((c = .rLock ∨ c = .wLock) ∧ (slots i).state = ⟨0, 0⟩ ∨ c = .obtain (slots i).state ∧ (slots i).state ≠ ⟨0, 0⟩)

def held (s : System τ) (i : Place) : Depth :=
  if ∃ t, (s.lock.state i).thr = some t ∧ (s.pc t).obtaining = true then ⟨0, 0⟩ else (s.lock.state i).state

structure Inv (s : System τ) : Prop where
  mutex : s.lock.rurwMutex = none
  misuse : s.misuse = false
  unique : ∀ i j t, (s.lock.state i).thr = some t → (s.lock.state j).thr = some t → i = j
  free : ∀ i, (s.lock.state i).thr = none → (s.lock.state i).state = ⟨0, 0⟩
  last : s.last ≤ 64
  index : ∀ t, s.index t ≤ s.last ∨ s.index t = 2 ^ 31 - 1
  single : ∀ t u, s.index t = s.index u → s.index t ≠ 0 → s.index t ≤ 64 → t = u
  assigned : ∀ i t, (s.lock.state i).thr = some t → s.index t ≠ 0
  scanned : ∀ (i j : Place) t, (s.lock.state i).thr = some t → s.index t = j + 1 → i ≠ j → s.lock.rurwFullscanBitmask j = true
  pc : ∀ t, PcOk s.lock.state (s.index t) t (s.pc t)
  locking : ∀ t, s.index t = 0 → s.pc t = .idle
  books : Books s.lock.rurwReaders s.lock.rurwWriter (held s)

section

variable {s s' : System τ} {t u : τ} {i j : Place} {d : Depth}

theorem pcOk_congr {slots slots' : Place → ThrState τ} {index : ℕ} {pc : Pc}
    (hsame : ∀ j, (slots j).thr = some u ∨ (slots' j).thr = some u → slots' j = slots j) (h : PcOk slots index u pc) :
    PcOk slots' index u pc := by
  have hno : (∀ j, (slots j).thr ≠ some u) → ∀ j, (slots' j).thr ≠ some u := fun hno j hj =>
    hno j (hsame j (.inr hj) ▸ hj)
  cases pc with
  | idle =>
    intro i hi
    have heq := hsame i (.inr hi)
    rw [heq] at hi ⊢
    exact h i hi
  | locking c e =>
    cases e with
    | found i =>
      obtain ⟨hi, hfits⟩ := h
      have heq := hsame i (.inl hi)
      exact ⟨by rw [heq]; exact hi, by rw [heq]; exact hfits⟩
    | null => exact h
    | lockOwn i => exact ⟨h.1, h.2.1, hno h.2.2⟩
    | lockScan mask => exact ⟨h.1, h.2.1, h.2.2.1, hno h.2.2.2⟩
  | waiting c i =>
    obtain ⟨hi, hstate⟩ := h
    have heq := hsame i (.inl hi)
    exact ⟨by rw [heq]; exact hi, by rw [heq]; exact hstate⟩

def Own (s : System τ) (t : τ) (i : Place) : Prop :=
  (s.lock.state i).thr = some t ∨ (s.lock.state i).thr = none ∧ ∀ j, (s.lock.state j).thr ≠ some t

theorem Own.ne (h : Own s t i) (hinv : Inv s) (hj : j ≠ i) : (s.lock.state j).thr ≠ some t := by
  rcases h with hi | ⟨-, hnone⟩
  · exact fun hj' => hj (hinv.unique j i t hj' hi)
  · exact hnone j

theorem Own.other (h : Own s t i) (hu : u ≠ t) : (s.lock.state i).thr ≠ some u := by
  rcases h with hi | ⟨hi, -⟩
  · exact fun h => hu (Option.some.inj (h.symm.trans hi))
  · exact fun h => nomatch h.symm.trans hi

theorem other_of_held (h : Inv s) (hown : Own s t i) (hzero : held s i = ⟨0, 0⟩) (hj : 0 < (held s j).r ∨ 0 < (held s j).w) :
    ∃ u, u ≠ t ∧ (s.pc u).obtaining = false ∧ (Reads s u ∨ Writes s u) := by
  have hji : j ≠ i := by
    rintro rfl
    rw [hzero] at hj
    simp at hj
  unfold held at hj
  by_cases hobtain : ∃ u, (s.lock.state j).thr = some u ∧ (s.pc u).obtaining = true
  · rw [if_pos hobtain] at hj
    simp at hj
  rw [if_neg hobtain] at hj
  cases hthr : (s.lock.state j).thr with
  | none =>
    rw [h.free j hthr] at hj
    simp at hj
  | some u =>
    have hne : u ≠ t := by
      rintro rfl
      exact hown.ne h hji hthr
    have hcounts : (s.pc u).obtaining = false := Bool.eq_false_iff.mpr fun hu => hobtain ⟨u, hthr, hu⟩
    exact ⟨u, hne, hcounts, hj.imp (fun hr => ⟨j, hthr, hr⟩) fun hw => ⟨j, hthr, hw⟩⟩

structure MaskOk (s : System τ) (t : τ) (i : Place) (bitmask : Place → Bool) : Prop where
  same : ∀ j : Place, bitmask j = s.lock.rurwFullscanBitmask j ∨ s.index t = j + 1
  scan : ∀ j : Place, s.index t = j + 1 → i ≠ j → bitmask j = true

theorem Inv.maskOk (h : Inv s) (hi : (s.lock.state i).thr = some t) : MaskOk s t i s.lock.rurwFullscanBitmask :=
  ⟨fun _ => .inl rfl, fun j hj hij => h.scanned i j t hi hj hij⟩

theorem held_of_not_obtaining (hi : (s.lock.state i).thr = some t) (hpc : (s.pc t).obtaining = false) :
    held s i = (s.lock.state i).state := by
  refine if_neg ?_
  rintro ⟨u, hu, hobtain⟩
  rw [hi, Option.some.injEq] at hu
  rw [← hu, hpc] at hobtain
  cases hobtain

theorem readers_pos (h : Inv s) (hr : 0 < (held s i).r) : 0 < s.lock.rurwReaders := by
  rw [h.books.count]
  exact Finset.card_pos.mpr ⟨i, mem_readers.mpr hr⟩

theorem held_free (h : Inv s) (hi : (s.lock.state i).thr = none) : held s i = ⟨0, 0⟩ := by
  unfold held
  rw [if_neg, h.free i hi]
  rintro ⟨u, hu, -⟩
  exact nomatch hi.symm.trans hu

variable {a : Act τ} {c : Call}

theorem waits_none (h : s'.pc a.thread = .idle) : WaitsForOther s a s' := fun c i hpc => by
  rw [h] at hpc
  cases hpc

variable [DecidableEq τ]

theorem Inv.set (h : Inv s) (hown : Own s t i) (hassigned : s.index t ≠ 0) {thr : Option τ} {pc : Pc} {readers : ℕ} {writer : Bool}
    {bitmask : Place → Bool} (hthr : thr = some t ∨ thr = none ∧ d = ⟨0, 0⟩)
    (hmask : ∀ j : Place, bitmask j = s.lock.rurwFullscanBitmask j ∨ s.index t = j + 1)
    (hscan : thr = some t → ∀ j : Place, s.index t = j + 1 → i ≠ j → bitmask j = true)
    (hpc : PcOk (update s.lock.state i ⟨thr, d⟩) (s.index t) t pc)
    (hbooks : Books readers writer (update (held s) i (if thr = some t ∧ pc.obtaining = true then ⟨0, 0⟩ else d))) :
    Inv { s with lock := ⟨none, readers, writer, bitmask, update s.lock.state i ⟨thr, d⟩⟩, pc := update s.pc t pc } := by
  have hthr' : ∀ u, thr = some u → u = t := fun u hu => by
    rcases hthr with hthr | ⟨hthr, -⟩
    · exact Option.some.inj (hu.symm.trans hthr)
    · exact nomatch hu.symm.trans hthr
  have hat : ∀ j u, (update s.lock.state i ⟨thr, d⟩ j).thr = some u → j = i ∧ thr = some t ∧ u = t ∨ j ≠ i ∧ (s.lock.state j).thr = some u :=
    fun j u hj => by
      by_cases hji : j = i
      · rw [hji, update_self] at hj
        obtain rfl := hthr' u hj
        exact .inl ⟨hji, hj, rfl⟩
      · rw [update_of_ne hji] at hj
        exact .inr ⟨hji, hj⟩
  have hheld : held { s with lock := ⟨none, readers, writer, bitmask, update s.lock.state i ⟨thr, d⟩⟩, pc := update s.pc t pc } =
      update (held s) i (if thr = some t ∧ pc.obtaining = true then ⟨0, 0⟩ else d) := by
    funext j
    unfold held
    by_cases hji : j = i
    · subst hji
      have hiff : (∃ u, thr = some u ∧ (update s.pc t pc u).obtaining = true) ↔ thr = some t ∧ pc.obtaining = true := by
        constructor
        · rintro ⟨u, hu, hobtain⟩
          obtain rfl := hthr' u hu
          rw [update_self] at hobtain
          exact ⟨hu, hobtain⟩
        · exact fun ⟨ht, hobtain⟩ => ⟨t, ht, by rw [update_self]; exact hobtain⟩
      simp only [update_self, hiff]
    · have hne := hown.ne h hji
      have hiff : (∃ u, (s.lock.state j).thr = some u ∧ (update s.pc t pc u).obtaining = true) ↔
          ∃ u, (s.lock.state j).thr = some u ∧ (s.pc u).obtaining = true := by
        refine exists_congr fun u => and_congr_right fun hu => ?_
        have hut : u ≠ t := fun hut => hne (hut ▸ hu)
        rw [update_of_ne hut]
      simp only [update_of_ne hji, hiff]
  constructor
  · rfl
  · exact h.misuse
  · intro j k u hj hk
    rcases hat j u hj with ⟨hji, -, hut⟩ | ⟨hji, hj'⟩
    · rcases hat k u hk with ⟨hki, -, -⟩ | ⟨hki, hk'⟩
      · exact hji.trans hki.symm
      · exact absurd (hut ▸ hk') (hown.ne h hki)
    · rcases hat k u hk with ⟨-, -, hut⟩ | ⟨-, hk'⟩
      · exact absurd (hut ▸ hj') (hown.ne h hji)
      · exact h.unique j k u hj' hk'
  · intro j hj
    by_cases hji : j = i
    · rw [hji] at hj ⊢
      simp only [update_self] at hj ⊢
      rcases hthr with hthr | ⟨-, hd⟩
      · exact nomatch hthr.symm.trans hj
      · exact hd
    · simp only [update_of_ne hji] at hj ⊢
      exact h.free j hj
  · exact h.last
  · exact h.index
  · exact h.single
  · intro j u hj
    rcases hat j u hj with ⟨-, -, hut⟩ | ⟨-, hj'⟩
    · rw [hut]
      exact hassigned
    · exact h.assigned j u hj'
  · intro j k u hj hk hjk
    rcases hat j u hj with ⟨hji, hthr, hut⟩ | ⟨hji, hj'⟩
    · exact hscan hthr k (hut ▸ hk) (hji ▸ hjk)
    · rcases hmask k with hsame | ht
      · exact hsame.trans (h.scanned j k u hj' hk hjk)
      · have hlt := k.isLt
        have hindex : s.index u = k + 1 := hk
        have hut := h.single u t (hindex.trans ht.symm) (by omega) (by omega)
        exact absurd (hut ▸ hj') (hown.ne h hji)
  · intro u
    by_cases hut : u = t
    · subst hut
      simp only [update_self]
      exact hpc
    · simp only [update_of_ne hut]
      refine pcOk_congr (fun j hj => ?_) (h.pc u)
      have hji : j ≠ i := by
        rintro rfl
        rcases hj with hj | hj
        · exact hown.other hut hj
        · rw [update_self] at hj
          exact hut (hthr' u hj)
      exact update_of_ne hji _ _
  · intro u hu
    by_cases hut : u = t
    · exact absurd (hut ▸ hu) hassigned
    · simp only [update_of_ne hut]
      exact h.locking u hu
  · rw [hheld]
    exact hbooks

/-! ## A section with the mutex -/

theorem idle_inv (h : Inv s) (hown : Own s t i) (hindex : s.index t ≠ 0) {bitmask : Place → Bool} (hmask : MaskOk s t i bitmask)
    {readers : ℕ} {writer : Bool} (hd : d ≠ ⟨0, 0⟩) (hbooks : Books readers writer (update (held s) i d)) :
    Inv { s with lock := ⟨none, readers, writer, bitmask, update s.lock.state i ⟨some t, d⟩⟩, pc := update s.pc t .idle } := by
  refine h.set hown hindex (.inl rfl) hmask.same (fun _ => hmask.scan) (fun j hj => ?_)
    (by rwa [if_neg (by simp [Pc.obtaining])])
  by_cases hji : j = i
  · rw [hji, update_self]
    exact hd
  · rw [update_of_ne hji] at hj
    exact absurd hj (hown.ne h hji)

theorem gone_inv (h : Inv s) (hown : Own s t i) (hindex : s.index t ≠ 0) {readers : ℕ} {writer : Bool}
    (hbooks : Books readers writer (update (held s) i ⟨0, 0⟩)) :
    Inv { s with
      lock := ⟨none, readers, writer, s.lock.rurwFullscanBitmask, update s.lock.state i ⟨none, ⟨0, 0⟩⟩⟩
      pc := update s.pc t .idle } := by
  refine h.set hown hindex (.inr ⟨rfl, rfl⟩) (fun j => .inl rfl) nofun (fun j hj => ?_) (by simpa using hbooks)
  by_cases hji : j = i
  · rw [hji, update_self] at hj
    cases hj
  · rw [update_of_ne hji] at hj
    exact absurd hj (hown.ne h hji)

def Asks (c : Call) (d : Depth) : Prop := (c = .rLock ∨ c = .wLock) ∧ d = ⟨0, 0⟩ ∨ c = .obtain d ∧ d ≠ ⟨0, 0⟩

theorem waits_inv (h : Inv s) (hown : Own s t i) (hindex : s.index t ≠ 0) {bitmask : Place → Bool} (hmask : MaskOk s t i bitmask) (hzero : held s i = ⟨0, 0⟩) (hasks : Asks c d) :
    Inv { s with
      lock := ⟨none, s.lock.rurwReaders, s.lock.rurwWriter, bitmask, update s.lock.state i ⟨some t, d⟩⟩
      pc := update s.pc t (.waiting c i) } := by
  have hsame : update (held s) i ⟨0, 0⟩ = held s := by rw [← hzero, update_eq_self]
  refine h.set hown hindex (.inl rfl) hmask.same (fun _ => hmask.scan) ?_ ?_
  · rw [PcOk, update_self]
    exact ⟨rfl, hasks⟩
  · rcases hasks with ⟨hc, rfl⟩ | ⟨rfl, -⟩
    · rw [ite_self, hsame]
      exact h.books
    · rw [if_pos ⟨rfl, rfl⟩, hsame]
      exact h.books

section

variable {readers : ℕ} {writer : Bool} {bitmask : Place → Bool} {slots : Place → ThrState τ} {thr : Option τ}

theorem rLockLoop_at : rLockLoop ⟨some t, readers, writer, bitmask, update slots i ⟨thr, d⟩⟩ t i =
    if writer then .waits ⟨none, readers, writer, bitmask, update slots i ⟨thr, d⟩⟩
    else .back ⟨none, readers + 1, writer, bitmask, update slots i ⟨thr, ⟨1, d.w⟩⟩⟩ := by
  simp [rLockLoop, RurwLock.wait, RurwLock.unlock, RurwLock.setState]

theorem wLockLoop_at : wLockLoop ⟨some t, readers, writer, bitmask, update slots i ⟨thr, d⟩⟩ t i =
    if readers ≠ 0 ∨ writer then .waits ⟨none, readers, writer, bitmask, update slots i ⟨thr, d⟩⟩
    else .back ⟨none, readers, true, bitmask, update slots i ⟨thr, ⟨d.r, 1⟩⟩⟩ := by
  simp [wLockLoop, RurwLock.wait, RurwLock.unlock, RurwLock.setState]

theorem obtainLoop_at : obtainLoop ⟨some t, readers, writer, bitmask, update slots i ⟨thr, d⟩⟩ t i =
    if d.w ≠ 0 then
      if readers ≠ 0 ∨ writer then .waits ⟨none, readers, writer, bitmask, update slots i ⟨thr, d⟩⟩
      else .back ⟨none, readers + if 0 < d.r then 1 else 0, true, bitmask, update slots i ⟨thr, d⟩⟩
    else if writer then .waits ⟨none, readers, writer, bitmask, update slots i ⟨thr, d⟩⟩
    else .back ⟨none, readers + 1, writer, bitmask, update slots i ⟨thr, d⟩⟩ := by
  simp [obtainLoop, RurwLock.wait, RurwLock.unlock]

end

theorem asks_inv (h : Inv s) (hown : Own s t i) (hindex : s.index t ≠ 0) {bitmask : Place → Bool} (hmask : MaskOk s t i bitmask) (hzero : held s i = ⟨0, 0⟩) (hasks : Asks c d)
    (hstep : s.after t c i (loop ⟨some t, s.lock.rurwReaders, s.lock.rurwWriter, bitmask, update s.lock.state i ⟨some t, d⟩⟩ t i c) =
      some s') :
    Inv s' ∧ ((∃ c' i', s'.pc t = .waiting c' i') → ∃ u, u ≠ t ∧ (s.pc u).obtaining = false ∧ (Reads s u ∨ Writes s u)) := by
  have hwaits := waits_inv h hown hindex hmask hzero hasks
  have hbusy : s.lock.rurwReaders ≠ 0 ∨ s.lock.rurwWriter = true →
      ∃ u, u ≠ t ∧ (s.pc u).obtaining = false ∧ (Reads s u ∨ Writes s u) := by
    rintro (hreaders | hwriter)
    · obtain ⟨j, hj⟩ := h.books.exists_reader hreaders
      exact other_of_held h hown hzero (.inl hj)
    · obtain ⟨j, hj⟩ := h.books.writing.mp hwriter
      exact other_of_held h hown hzero (.inr hj)
  have hidle : ∀ {readers writer d'}, d' ≠ (⟨0, 0⟩ : Depth) → Books readers writer (update (held s) i d') →
      s.after t c i (.back ⟨none, readers, writer, bitmask, update s.lock.state i ⟨some t, d'⟩⟩) = some s' →
      Inv s' ∧ ((∃ c' i', s'.pc t = .waiting c' i') → ∃ u, u ≠ t ∧ (s.pc u).obtaining = false ∧ (Reads s u ∨ Writes s u)) := by
    intro readers writer d' hd hbooks hafter
    cases hafter
    refine ⟨idle_inv h hown hindex hmask hd hbooks, ?_⟩
    rintro ⟨c', i', hpc⟩
    change update s.pc t .idle t = _ at hpc
    rw [update_self] at hpc
    cases hpc
  have hbooks := h.books
  rcases hasks with ⟨rfl | rfl, rfl⟩ | ⟨rfl, hd⟩
  · rw [loop, rLockLoop_at] at hstep
    cases hwriter : s.lock.rurwWriter with
    | true =>
      rw [if_pos hwriter] at hstep
      cases hstep
      exact ⟨hwaits, fun _ => hbusy (.inr hwriter)⟩
    | false =>
      rw [if_neg (by simp [hwriter])] at hstep
      rw [hwriter] at hbooks hstep
      exact hidle (by simp) (hbooks.read (by rw [hzero]) one_pos rfl) hstep
  · rw [loop, wLockLoop_at] at hstep
    by_cases hblocked : s.lock.rurwReaders ≠ 0 ∨ s.lock.rurwWriter = true
    · rw [if_pos hblocked] at hstep
      cases hstep
      exact ⟨hwaits, fun _ => hbusy hblocked⟩
    · rw [if_neg hblocked] at hstep
      obtain ⟨hreaders, hwriter⟩ := not_or.mp hblocked
      rw [not_not.mp hreaders, Bool.eq_false_iff.mpr hwriter] at hbooks
      rw [not_not.mp hreaders] at hstep
      exact hidle (by simp) (hbooks.write (d := ⟨0, 1⟩) one_pos) hstep
  · rw [loop, obtainLoop_at] at hstep
    by_cases hw : d.w ≠ 0
    · rw [if_pos hw] at hstep
      by_cases hblocked : s.lock.rurwReaders ≠ 0 ∨ s.lock.rurwWriter = true
      · rw [if_pos hblocked] at hstep
        cases hstep
        exact ⟨hwaits, fun _ => hbusy hblocked⟩
      · rw [if_neg hblocked] at hstep
        obtain ⟨hreaders, hwriter⟩ := not_or.mp hblocked
        rw [not_not.mp hreaders, Bool.eq_false_iff.mpr hwriter] at hbooks
        rw [not_not.mp hreaders, Nat.zero_add] at hstep
        exact hidle hd (hbooks.write (Nat.pos_of_ne_zero hw)) hstep
    · rw [if_neg hw] at hstep
      have hr : 0 < d.r := by
        refine Nat.pos_of_ne_zero fun hr => hd ?_
        cases d
        simp_all
      cases hwriter : s.lock.rurwWriter with
      | true =>
        rw [if_pos hwriter] at hstep
        cases hstep
        exact ⟨hwaits, fun _ => hbusy (.inr hwriter)⟩
      | false =>
        rw [if_neg (by simp [hwriter])] at hstep
        rw [hwriter] at hbooks hstep
        exact hidle hd (hbooks.read (by rw [hzero]) hr (not_not.mp hw)) hstep

section

variable {readers : ℕ} {writer : Bool} {bitmask : Place → Bool} {slots : Place → ThrState τ}

theorem rurwRUnlock_at (hr : 0 < d.r) (hreaders : 0 < readers) :
    rurwRUnlock ⟨some t, readers, writer, bitmask, update slots i ⟨some t, d⟩⟩ t i =
      if 1 < d.r then .back ⟨none, readers, writer, bitmask, update slots i ⟨some t, ⟨d.r - 1, d.w⟩⟩⟩
      else if d.w = 0 then .back ⟨none, readers - 1, writer, bitmask, update slots i ⟨none, ⟨0, d.w⟩⟩⟩
      else .back ⟨none, readers - 1, writer, bitmask, update slots i ⟨some t, ⟨0, d.w⟩⟩⟩ := by
  by_cases hone : 1 < d.r
  · simp [rurwRUnlock, RurwLock.unlock, RurwLock.setState, hr.ne', hreaders.ne', hone, show d.r - 1 ≠ 0 by omega]
  · have hzero : d.r - 1 = 0 := by omega
    by_cases hw : d.w = 0
    · simp [rurwRUnlock, RurwLock.unlock, RurwLock.setState, RurwLock.setThr, hr.ne', hreaders.ne', hone, hzero, hw]
    · simp [rurwRUnlock, RurwLock.unlock, RurwLock.setState, hr.ne', hreaders.ne', hone, hzero, hw]

theorem rurwWUnlock_at (hw : 0 < d.w) :
    rurwWUnlock ⟨some t, readers, true, bitmask, update slots i ⟨some t, d⟩⟩ t i =
      if 1 < d.w then .back ⟨none, readers, true, bitmask, update slots i ⟨some t, ⟨d.r, d.w - 1⟩⟩⟩
      else if d.r = 0 then .back ⟨none, readers, false, bitmask, update slots i ⟨none, ⟨d.r, 0⟩⟩⟩
      else .back ⟨none, readers, false, bitmask, update slots i ⟨some t, ⟨d.r, 0⟩⟩⟩ := by
  by_cases hone : 1 < d.w
  · simp [rurwWUnlock, RurwLock.unlock, RurwLock.setState, hw.ne', hone, show d.w - 1 ≠ 0 by omega]
  · have hzero : d.w - 1 = 0 := by omega
    by_cases hr : d.r = 0
    · simp [rurwWUnlock, RurwLock.unlock, RurwLock.setState, RurwLock.setThr, hw.ne', hone, hzero, hr]
    · simp [rurwWUnlock, RurwLock.unlock, RurwLock.setState, hw.ne', hone, hzero, hr]

theorem rurwRetreat_at (hd : d ≠ ⟨0, 0⟩) (hreaders : d.r ≠ 0 → 0 < readers) (hwriter : d.w ≠ 0 → writer = true) :
    rurwRetreat ⟨some t, readers, writer, bitmask, update slots i ⟨some t, d⟩⟩ t i =
      .back ⟨none, if d.r ≠ 0 then readers - 1 else readers, if d.w ≠ 0 then false else writer, bitmask,
        update slots i ⟨none, ⟨0, 0⟩⟩⟩ := by
  obtain ⟨r, w⟩ := d
  by_cases hr : r = 0
  · have hw : w ≠ 0 := fun hw => hd (by rw [hr, hw])
    simp [rurwRetreat, RurwLock.unlock, RurwLock.setState, RurwLock.setThr, hr, hw, hwriter hw]
  · by_cases hw : w = 0
    · simp [rurwRetreat, RurwLock.unlock, RurwLock.setState, RurwLock.setThr, hr, hw, (hreaders hr).ne']
    · simp [rurwRetreat, RurwLock.unlock, RurwLock.setState, RurwLock.setThr, hr, hw, (hreaders hr).ne', hwriter hw]

end

theorem fits_inv (h : Inv s) (hi : (s.lock.state i).thr = some t) (hpc : (s.pc t).obtaining = false)
    (hfits : Fits c (s.lock.state i).state)
    (hstep : s.after t c i (body { s.lock with rurwMutex := some t } t i c) = some s') : Inv s' ∧ s'.pc t = .idle := by
  have hown : Own s t i := .inl hi
  have hindex := h.assigned i t hi
  have hmask := h.maskOk hi
  have hheld := held_of_not_obtaining hi hpc
  generalize hd : (s.lock.state i).state = d at *
  have hlock : { s.lock with rurwMutex := some t } = (⟨some t, s.lock.rurwReaders, s.lock.rurwWriter, s.lock.rurwFullscanBitmask,
      update s.lock.state i ⟨some t, d⟩⟩ : RurwLock τ) := by
    have hslot : (⟨some t, d⟩ : ThrState τ) = s.lock.state i := by rw [← hd, ← hi]
    rw [hslot, update_eq_self]
  rw [hlock] at hstep
  have hidle : update s.pc t .idle t = .idle := update_self _ _ _
  cases c with
  | rUnlock =>
    have hr : 0 < (held s i).r := hheld.symm ▸ hfits
    rw [body, rurwRUnlock_at hfits (readers_pos h hr)] at hstep
    by_cases hone : 1 < d.r
    · rw [if_pos hone] at hstep
      cases hstep
      refine ⟨idle_inv h hown hindex hmask (fun heq => ?_) (h.books.same ?_ ?_), hidle⟩
      · have := congrArg Depth.r heq
        simp at this
        omega
      · rw [hheld]
        show 0 < d.r - 1 ↔ 0 < d.r
        omega
      · rw [hheld]
    · rw [if_neg hone] at hstep
      by_cases hw : d.w = 0
      · rw [if_pos hw, hw] at hstep
        cases hstep
        exact ⟨gone_inv h hown hindex (h.books.dropRead hr rfl (by rw [hheld, hw])), hidle⟩
      · rw [if_neg hw] at hstep
        cases hstep
        exact ⟨idle_inv h hown hindex hmask (by simpa using hw) (h.books.dropRead hr rfl (by rw [hheld])), hidle⟩
  | wUnlock =>
    have hw : 0 < (held s i).w := hheld.symm ▸ hfits
    have hwriter := h.books.writing.mpr ⟨i, hw⟩
    rw [body, hwriter, rurwWUnlock_at hfits] at hstep
    by_cases hone : 1 < d.w
    · rw [if_pos hone] at hstep
      cases hstep
      have hbooks := h.books
      rw [hwriter] at hbooks
      refine ⟨idle_inv h hown hindex hmask (fun heq => ?_) (hbooks.same ?_ ?_), hidle⟩
      · have := congrArg Depth.w heq
        simp at this
        omega
      · rw [hheld]
      · rw [hheld]
        show 0 < d.w - 1 ↔ 0 < d.w
        omega
    · rw [if_neg hone] at hstep
      by_cases hr : d.r = 0
      · rw [if_pos hr, hr] at hstep
        cases hstep
        exact ⟨gone_inv h hown hindex (h.books.dropWrite hw rfl (by rw [hheld, hr])), hidle⟩
      · rw [if_neg hr] at hstep
        cases hstep
        exact ⟨idle_inv h hown hindex hmask (by simpa using hr) (h.books.dropWrite hw rfl (by rw [hheld])), hidle⟩
  | retreat =>
    have hreaders : d.r ≠ 0 → 0 < s.lock.rurwReaders := fun hr =>
      readers_pos h (i := i) (by rw [hheld]; exact Nat.pos_of_ne_zero hr)
    have hwriter : d.w ≠ 0 → s.lock.rurwWriter = true := fun hw =>
      h.books.writing.mpr ⟨i, by rw [hheld]; exact Nat.pos_of_ne_zero hw⟩
    rw [body, rurwRetreat_at hfits hreaders hwriter] at hstep
    cases hstep
    refine ⟨gone_inv h hown hindex ?_, hidle⟩
    by_cases hr : d.r = 0
    · have hw : d.w ≠ 0 := fun hw => hfits (by cases d; simp_all)
      rw [if_neg (by simpa using hr), if_pos hw]
      exact h.books.dropWrite (by rw [hheld]; exact Nat.pos_of_ne_zero hw) rfl (by rw [hheld, hr])
    · rw [if_pos hr]
      by_cases hw : d.w = 0
      · rw [if_neg (by simpa using hw)]
        exact h.books.dropRead (by rw [hheld]; exact Nat.pos_of_ne_zero hr) rfl (by rw [hheld, hw])
      · rw [if_pos hw]
        have hread := h.books.dropRead (i := i) (d := ⟨0, d.w⟩) (by rw [hheld]; exact Nat.pos_of_ne_zero hr) rfl (by rw [hheld])
        have hwrite := hread.dropWrite (i := i) (d := ⟨0, 0⟩) (by rw [update_self]; exact Nat.pos_of_ne_zero hw) rfl (by rw [update_self])
        rwa [update_idem] at hwrite
  | rLock => exact hfits.elim
  | wLock => exact hfits.elim
  | obtain state => exact hfits.elim

theorem Inv.assign (h : Inv s) (hzero : s.index t = 0) {n last : ℕ} (hlast : s.last ≤ last) (hle : last ≤ 64)
    (hn : n ≤ last ∨ n = 2 ^ 31 - 1) (hne : n ≠ 0) (hfresh : ∀ u, s.index u = n → 64 < n) :
    Inv { s with index := update s.index t n, last := last } := by
  have hidle := h.locking t hzero
  have hnone : ∀ i, (s.lock.state i).thr ≠ some t := fun i hi => h.assigned i t hi hzero
  have hother : ∀ i u, (s.lock.state i).thr = some u → update s.index t n u = s.index u := fun i u hi =>
    update_of_ne (fun hut : u = t => hnone i (hut ▸ hi)) _ _
  refine ⟨h.mutex, h.misuse, h.unique, h.free, hle, fun u => ?_, fun u v huv hu hsmall => ?_, fun i u hi => ?_, fun i j u hi hj hij => ?_,
    fun u => ?_, fun u hu => ?_, h.books⟩
  · by_cases hut : u = t
    · simp only [hut, update_self]
      exact hn
    · simp only [update_of_ne hut]
      exact (h.index u).imp (fun hu => hu.trans hlast) id
  · by_cases hut : u = t
    · by_cases hvt : v = t
      · exact hut.trans hvt.symm
      · simp only [hut, update_self, update_of_ne hvt] at huv hsmall
        have := hfresh v huv.symm
        omega
    · by_cases hvt : v = t
      · simp only [hvt, update_self, update_of_ne hut] at huv hsmall
        have := hfresh u huv
        omega
      · simp only [update_of_ne hut, update_of_ne hvt] at huv hu hsmall
        exact h.single u v huv hu hsmall
  · simp only [hother i u hi]
    exact h.assigned i u hi
  · simp only [hother i u hi] at hj
    exact h.scanned i j u hi hj hij
  · by_cases hut : u = t
    · have hpc := h.pc u
      rw [hut, hidle] at hpc
      simp only [hut, hidle]
      exact hpc
    · simp only [update_of_ne hut]
      exact h.pc u
  · by_cases hut : u = t
    · simp only [hut, update_self] at hu
      exact absurd hu hne
    · simp only [update_of_ne hut] at hu
      exact h.locking u hu

theorem threadIndex_spec (h : Inv s) (t : τ) :
    Inv (s.threadIndex t) ∧ (s.threadIndex t).index t ≠ 0 ∧ (s.threadIndex t).lock = s.lock ∧ (s.threadIndex t).pc = s.pc ∧
      ((∃ i, (s.lock.state i).thr = some t) → (s.threadIndex t).index t = s.index t) := by
  unfold System.threadIndex
  by_cases hzero : s.index t = 0
  · have hnone : ¬∃ i, (s.lock.state i).thr = some t := fun ⟨i, hi⟩ => h.assigned i t hi hzero
    have hlast := h.last
    rw [if_neg (by simpa using hzero)]
    by_cases hfew : s.last < 64
    · rw [if_pos hfew]
      refine ⟨h.assign hzero (Nat.le_succ _) hfew (.inl (Nat.le_refl _)) (Nat.succ_ne_zero _) fun u hu => ?_, ?_, rfl, rfl,
        fun hsome => absurd hsome hnone⟩
      · have := h.index u
        omega
      · simp only [update_self]
        exact Nat.succ_ne_zero _
    · rw [if_neg hfew]
      refine ⟨h.assign hzero (Nat.le_refl _) hlast (.inr rfl) (by decide) fun u hu => by decide, ?_, rfl, rfl,
        fun hsome => absurd hsome hnone⟩
      simp only [update_self]
      decide
  · rw [if_pos hzero]
    exact ⟨h, hzero, rfl, rfl, fun _ => rfl⟩

/-- What `rurw_enter` has found out. -/
def EntryOk (s : System τ) (t : τ) (acquire : Bool) : Entry → Prop
  | .found i => (s.lock.state i).thr = some t
  | .null => acquire = false
  | .lockOwn i => acquire = true ∧ s.index t = i + 1 ∧ (s.lock.state i).thr = none
  | .lockScan mask => acquire = true ∧ (∀ j : Place, s.index t = j + 1 → mask = some j) ∧ (∀ j, mask = some j → s.index t = j + 1) ∧
    ∀ j, (s.lock.state j).thr ≠ some t

theorem fullscan_ok {acquire : Bool} {mask : Option Place} (hmask : ∀ j : Place, s.index t = j + 1 → mask = some j)
    (hindex : ∀ j, mask = some j → s.index t = j + 1) : EntryOk s t acquire (fullscan s.lock t acquire mask) := by
  unfold fullscan
  cases hfind : s.lock.find t with
  | some i =>
    have hi := List.find?_some hfind
    simpa [EntryOk] using hi
  | none =>
    have hnone : ∀ j, (s.lock.state j).thr ≠ some t := fun j hj =>
      List.find?_eq_none.mp hfind j (List.mem_finRange j) (decide_eq_true hj)
    cases acquire with
    | true => exact ⟨rfl, hmask, hindex, hnone⟩
    | false => rfl

theorem rurwEnter_ok (hindex : s.index t ≠ 0) (acquire : Bool) :
    EntryOk s t acquire (rurwEnter s.lock t (s.index t - 1) acquire) := by
  unfold rurwEnter
  by_cases hlt : s.index t - 1 < 64
  · rw [dif_pos hlt]
    have hnumber : ∀ j : Place, s.index t = j + 1 ↔ (⟨s.index t - 1, hlt⟩ : Place) = j := fun j => by
      rw [Fin.ext_iff]
      simp only
      omega
    have hscan : EntryOk s t acquire (fullscan s.lock t acquire (some ⟨s.index t - 1, hlt⟩)) :=
      fullscan_ok (fun j hj => congrArg some ((hnumber j).mp hj)) fun j hj => (hnumber j).mpr (Option.some.inj hj)
    by_cases hown : (s.lock.state ⟨s.index t - 1, hlt⟩).thr = some t
    · rw [if_pos hown]
      exact hown
    rw [if_neg hown]
    by_cases hfree : (s.lock.state ⟨s.index t - 1, hlt⟩).thr = none
    · rw [if_pos hfree]
      cases acquire with
      | true => exact ⟨rfl, (hnumber _).mpr rfl, hfree⟩
      | false =>
        rw [if_neg Bool.false_ne_true]
        split
        · exact hscan
        · rfl
    · rw [if_neg hfree]
      exact hscan
  · rw [dif_neg hlt]
    refine fullscan_ok (fun j hj => ?_) nofun
    have := j.isLt
    omega

theorem Inv.setPc (h : Inv s) (hindex : s.index t ≠ 0) {pc : Pc} (hold : (s.pc t).obtaining = false) (hnew : pc.obtaining = false)
    (hpc : PcOk s.lock.state (s.index t) t pc) : Inv { s with pc := update s.pc t pc } := by
  have hheld : held { s with pc := update s.pc t pc } = held s := by
    funext i
    unfold held
    have hiff : (∃ u, (s.lock.state i).thr = some u ∧ (update s.pc t pc u).obtaining = true) ↔
        ∃ u, (s.lock.state i).thr = some u ∧ (s.pc u).obtaining = true := by
      refine exists_congr fun u => and_congr_right fun _ => ?_
      by_cases hut : u = t
      · rw [hut, update_self, hold, hnew]
      · rw [update_of_ne hut]
    simp only [hiff]
  refine ⟨h.mutex, h.misuse, h.unique, h.free, h.last, h.index, h.single, h.assigned, h.scanned, fun u => ?_, fun u hu => ?_, ?_⟩
  · by_cases hut : u = t
    · simp only [hut, update_self]
      exact hpc
    · simp only [update_of_ne hut]
      exact h.pc u
  · by_cases hut : u = t
    · exact absurd (hut ▸ hu) hindex
    · simp only [update_of_ne hut]
      exact h.locking u hu
  · rw [hheld]
    exact h.books

def Call.depth : Call → Depth
  | .obtain state => state
  | _ => ⟨0, 0⟩

theorem asks_of_acquire (hc : c.acquire = true) (hsome : c ≠ .obtain ⟨0, 0⟩) : Asks c c.depth := by
  cases c with
  | rLock => exact .inl ⟨.inl rfl, rfl⟩
  | wLock => exact .inl ⟨.inr rfl, rfl⟩
  | obtain state => exact .inr ⟨rfl, fun h => hsome (congrArg Call.obtain h)⟩
  | rUnlock => cases hc
  | wUnlock => cases hc
  | retreat => cases hc

theorem body_fresh (hc : c.acquire = true) {readers : ℕ} {writer : Bool} {bitmask : Place → Bool} {slots : Place → ThrState τ} :
    body ⟨some t, readers, writer, bitmask, update slots i ⟨some t, ⟨0, 0⟩⟩⟩ t i c =
      loop ⟨some t, readers, writer, bitmask, update slots i ⟨some t, c.depth⟩⟩ t i c := by
  cases c with
  | rLock => simp [body, loop, rurwRLock, Call.depth]
  | wLock => simp [body, loop, rurwWLock, Call.depth]
  | obtain state => simp [body, loop, rurwObtain, RurwLock.setState, Call.depth]
  | rUnlock => cases hc
  | wUnlock => cases hc
  | retreat => cases hc

omit [DecidableEq τ] in
theorem take_spec (h : Inv s) {e : Entry} (hpc : PcOk s.lock.state (s.index t) t (.locking c e)) {p : RurwLock τ}
    (htake : { s.lock with rurwMutex := some t }.take t e = some (p, i)) :
    (e = .found i ∧ p = { s.lock with rurwMutex := some t }) ∨
      ((s.lock.state i).thr = none ∧ (∀ j, (s.lock.state j).thr ≠ some t) ∧ (c.acquire = true ∧ c ≠ .obtain ⟨0, 0⟩) ∧
        ∃ bitmask, MaskOk s t i bitmask ∧
          p = ⟨some t, s.lock.rurwReaders, s.lock.rurwWriter, bitmask, update s.lock.state i ⟨some t, ⟨0, 0⟩⟩⟩) := by
  have hlocked : ∀ mask, (∀ j : Place, s.index t = j + 1 → mask = some j) → (∀ j, mask = some j → s.index t = j + 1) →
      { s.lock with rurwMutex := some t }.locked t mask = some (p, i) → (s.lock.state i).thr = none ∧ ∃ bitmask, MaskOk s t i bitmask ∧
        p = ⟨some t, s.lock.rurwReaders, s.lock.rurwWriter, bitmask, update s.lock.state i ⟨some t, ⟨0, 0⟩⟩⟩ := by
    intro mask hmask hindex hsome
    obtain ⟨k, hfree, heq⟩ := Option.map_eq_some_iff.mp hsome
    have hnone : (s.lock.state k).thr = none := by
      have := List.find?_some hfree
      simpa using this
    cases heq
    refine ⟨hnone, fun j => if mask = some j then true else s.lock.rurwFullscanBitmask j,
      ⟨fun j => ?_, fun j hj _ => if_pos (hmask j hj)⟩, ?_⟩
    · by_cases hj : mask = some j
      · exact .inr (hindex j hj)
      · exact .inl (if_neg hj)
    · have hzero := h.free i hnone
      simp only [RurwLock.setThr, hzero]
  cases e with
  | found k =>
    cases htake
    exact .inl ⟨rfl, rfl⟩
  | null => exact hpc.elim
  | lockOwn k =>
    obtain ⟨hc, hindex, hnone⟩ := hpc
    have hnumber : ∀ j : Place, s.index t = j + 1 ↔ k = j := fun j => by
      rw [hindex, Fin.ext_iff]
      omega
    rw [RurwLock.take] at htake
    by_cases htaken : (s.lock.state k).thr.isSome = true
    · rw [if_pos htaken] at htake
      obtain ⟨hfree, hp⟩ := hlocked (some k) (fun j hj => congrArg some ((hnumber j).mp hj))
        (fun j hj => (hnumber j).mpr (Option.some.inj hj)) htake
      exact .inr ⟨hfree, hnone, hc, hp⟩
    · rw [if_neg htaken] at htake
      have hfree : (s.lock.state k).thr = none := by simpa using htaken
      have hzero := h.free k hfree
      cases htake
      refine .inr ⟨hfree, hnone, hc, update s.lock.rurwFullscanBitmask i false, ⟨fun j => ?_, fun j hj hij => absurd ((hnumber j).mp hj) hij⟩, ?_⟩
      · by_cases hj : j = i
        · exact .inr ((hnumber j).mpr hj.symm)
        · exact .inl (update_of_ne hj _ _)
      · simp only [RurwLock.setThr, hzero]
  | lockScan mask =>
    obtain ⟨hc, hmask, hindex, hnone⟩ := hpc
    obtain ⟨hfree, hp⟩ := hlocked mask hmask hindex htake
    exact .inr ⟨hfree, hnone, hc, hp⟩

theorem nested_inv (h : Inv s) (hidle : s.pc t = .idle) (hi : (s.lock.state i).thr = some t) (hc : c.acquire = true)
    (hsome : c ≠ .obtain ⟨0, 0⟩) (hnests : Nests s t c) (hstep : s.after t c i (body s.lock t i c) = some s') :
    Inv s' ∧ s'.pc t = .idle := by
  have hown : Own s t i := .inl hi
  have hindex := h.assigned i t hi
  have hheld := held_of_not_obtaining hi (by rw [hidle]; rfl)
  have hslot : ∀ d, (⟨none, s.lock.rurwReaders, s.lock.rurwWriter, s.lock.rurwFullscanBitmask,
      update s.lock.state i ⟨some t, d⟩⟩ : RurwLock τ) = s.lock.setState i d := fun d => by
    rw [RurwLock.setState, ← hi, ← h.mutex]
  have hpc : update s.pc t .idle t = .idle := update_self _ _ _
  cases c with
  | rLock =>
    have hr := hnests i hi
    rw [body, rurwRLock, if_pos hr.ne'] at hstep
    by_cases hfits : (s.lock.state i).state.r < 0xFFFF
    · rw [if_pos hfits, ← hslot] at hstep
      cases hstep
      refine ⟨idle_inv h hown hindex (h.maskOk hi) (by simp) (h.books.same ?_ ?_), hpc⟩
      · rw [hheld]
        exact ⟨fun _ => hr, fun _ => Nat.succ_pos _⟩
      · rw [hheld]
    · rw [if_neg hfits] at hstep
      cases hstep
  | wLock =>
    have hw := hnests i hi
    rw [body, rurwWLock, if_pos hw.ne'] at hstep
    by_cases hfits : (s.lock.state i).state.w < 0xFFFF
    · rw [if_pos hfits, ← hslot] at hstep
      cases hstep
      refine ⟨idle_inv h hown hindex (h.maskOk hi) (by simp) (h.books.same ?_ ?_), hpc⟩
      · rw [hheld]
      · rw [hheld]
        exact ⟨fun _ => hw, fun _ => Nat.succ_pos _⟩
    · rw [if_neg hfits] at hstep
      cases hstep
  | obtain state =>
    rcases hnests with rfl | hnone
    · exact absurd rfl hsome
    · exact absurd hi (hnone i)
  | rUnlock => cases hc
  | wUnlock => cases hc
  | retreat => cases hc

theorem call_inv (h : Inv s) (hidle : s.pc t = .idle) (hindex : s.index t ≠ 0) (hsome : c ≠ .obtain ⟨0, 0⟩)
    (hnests : Nests s t c) (hone : c.acquire = true → OneSlot s t) (hadmits : s.Admits (.call t c)) (hstep : s.call t c = some s') :
    Inv s' ∧ ∀ c i, s'.pc t ≠ .waiting c i := by
  have hentry := rurwEnter_ok hindex c.acquire
  have hlocking : ∀ e, PcOk s.lock.state (s.index t) t (.locking c e) → some { s with pc := update s.pc t (.locking c e) } = some s' →
      Inv s' ∧ ∀ c i, s'.pc t ≠ .waiting c i := by
    intro e hpc heq
    cases heq
    refine ⟨h.setPc hindex (by rw [hidle]; rfl) rfl hpc, fun c i hw => ?_⟩
    change update s.pc t _ t = _ at hw
    rw [update_self] at hw
    cases hw
  unfold System.call at hstep
  generalize rurwEnter s.lock t (s.index t - 1) c.acquire = e at hentry hstep
  cases e with
  | null =>
    cases hstep
    refine ⟨h, fun c i hw => ?_⟩
    rw [hidle] at hw
    cases hw
  | found i =>
    simp only at hstep
    cases hc : c.acquire with
    | true =>
      rw [hc, if_pos rfl] at hstep
      obtain ⟨hinv, hpc⟩ := nested_inv h hidle hentry hc hsome hnests hstep
      exact ⟨hinv, fun c i hw => nomatch hpc.symm.trans hw⟩
    | false =>
      rw [hc, if_neg Bool.false_ne_true] at hstep
      refine hlocking (.found i) ⟨hentry, ?_⟩ hstep
      have huniq : ∀ j, (s.lock.state j).thr = some t → j = i := fun j hj => h.unique j i t hj hentry
      cases c with
      | rUnlock =>
        obtain ⟨j, hj, hr⟩ := hadmits
        exact huniq j hj ▸ hr
      | wUnlock =>
        obtain ⟨j, hj, hw⟩ := hadmits
        exact huniq j hj ▸ hw
      | retreat =>
        have hpc := h.pc t
        rw [hidle] at hpc
        exact hpc i hentry
      | rLock => cases hc
      | wLock => cases hc
      | obtain state => cases hc
  | lockOwn i =>
    obtain ⟨hc, hnumber, hfree⟩ := hentry
    exact hlocking (.lockOwn i) ⟨⟨hc, hsome⟩, hnumber, fun j hj => hone hc j i hj hnumber hfree⟩ hstep
  | lockScan mask =>
    obtain ⟨hc, hrest⟩ := hentry
    exact hlocking (.lockScan mask) ⟨⟨hc, hsome⟩, hrest⟩ hstep

theorem lock_inv (h : Inv s) {e : Entry} (hpc : s.pc t = .locking c e) (hstep : s.next (.lock t) = some s') :
    Inv s' ∧ WaitsForOther s (.lock t) s' := by
  have hok := h.pc t
  rw [hpc] at hok
  have hindex : s.index t ≠ 0 := fun hzero => nomatch (h.locking t hzero).symm.trans hpc
  simp only [System.next, hpc, h.mutex] at hstep
  obtain ⟨⟨p, i⟩, htake, hafter⟩ := Option.bind_eq_some_iff.mp hstep
  rcases take_spec h hok htake with ⟨rfl, rfl⟩ | ⟨hfree, hnone, ⟨hc, hsome⟩, bitmask, hmask, rfl⟩
  · obtain ⟨hinv, hidle⟩ := fits_inv h hok.1 (by rw [hpc]; rfl) hok.2 hafter
    exact ⟨hinv, waits_none hidle⟩
  · rw [body_fresh hc] at hafter
    obtain ⟨hinv, hwaits⟩ := asks_inv h (.inr ⟨hfree, hnone⟩) hindex hmask (held_free h hfree) (asks_of_acquire hc hsome) hafter
    exact ⟨hinv, fun c i hw => hwaits ⟨c, i, hw⟩⟩

theorem wake_inv (h : Inv s) (hpc : s.pc t = .waiting c i) (hstep : s.next (.wake t) = some s') :
    Inv s' ∧ WaitsForOther s (.wake t) s' := by
  have hok := h.pc t
  rw [hpc] at hok
  obtain ⟨hi, hasks⟩ := hok
  have hzero : held s i = ⟨0, 0⟩ := by
    rcases hasks with ⟨hc, hzero⟩ | ⟨hc, -⟩
    · rw [held, hzero, ite_self]
    · exact if_pos ⟨t, hi, by rw [hpc, hc]; rfl⟩
  have hlock : { s.lock with rurwMutex := some t } = (⟨some t, s.lock.rurwReaders, s.lock.rurwWriter, s.lock.rurwFullscanBitmask,
      update s.lock.state i ⟨some t, (s.lock.state i).state⟩⟩ : RurwLock τ) := by
    rw [← hi, update_eq_self]
  simp only [System.next, hpc, h.mutex] at hstep
  rw [hlock] at hstep
  obtain ⟨hinv, hwaits⟩ := asks_inv h (.inl hi) (h.assigned i t hi) (h.maskOk hi) hzero hasks hstep
  exact ⟨hinv, fun c i hw => hwaits ⟨c, i, hw⟩⟩

theorem call_step (h : Inv s) (hproper : Proper s (.call t c)) (hstep : Step s (.call t c) s') :
    Inv s' ∧ ∀ c i, s'.pc t ≠ .waiting c i := by
  obtain ⟨-, hadmits, hnext⟩ := hstep
  obtain ⟨hnests, hone⟩ := hproper
  cases hpc : s.pc t with
  | idle =>
    simp only [System.next, hpc] at hnext
    by_cases hsome : c = .obtain ⟨0, 0⟩
    · rw [if_pos hsome] at hnext
      cases hnext
      exact ⟨h, fun c i hw => nomatch hpc.symm.trans hw⟩
    · rw [if_neg hsome] at hnext
      obtain ⟨hinv, hindex, hlock, hpcs, hsame⟩ := threadIndex_spec h t
      have hone' : c.acquire = true → OneSlot (s.threadIndex t) t := fun hc i j hi hj => by
        rw [hlock] at hi ⊢
        exact hone hc i j hi ((hsame ⟨i, hi⟩).symm.trans hj)
      have hnests' : Nests (s.threadIndex t) t c = Nests s t c := by cases c <;> simp only [Nests, hlock]
      have hadmits' : (s.threadIndex t).Admits (.call t c) = s.Admits (.call t c) := by
        cases c <;> simp only [System.Admits, hlock]
      exact call_inv hinv (by rw [hpcs]; exact hpc) hindex hsome (hnests'.symm ▸ hnests) hone' (hadmits'.symm ▸ hadmits) hnext
  | locking c' e =>
    simp only [System.next, hpc] at hnext
    cases hnext
  | waiting c' i =>
    simp only [System.next, hpc] at hnext
    cases hnext

theorem step_inv (h : Inv s) (hproper : Proper s a) (hstep : Step s a s') : Inv s' ∧ WaitsForOther s a s' := by
  have hnext := hstep.2.2
  cases a with
  | call t c =>
    obtain ⟨hinv, hnot⟩ := call_step h hproper hstep
    exact ⟨hinv, fun c i hw => absurd hw (hnot c i)⟩
  | lock t =>
    cases hpc : s.pc t with
    | idle =>
      simp only [System.next, hpc] at hnext
      cases hnext
    | locking c e => exact lock_inv h hpc hnext
    | waiting c i =>
      simp only [System.next, hpc] at hnext
      cases hnext
  | wake t =>
    cases hpc : s.pc t with
    | idle =>
      simp only [System.next, hpc] at hnext
      cases hnext
    | locking c e =>
      simp only [System.next, hpc] at hnext
      cases hnext
    | waiting c i => exact wake_inv h hpc hnext

omit [DecidableEq τ] in
theorem exists_holder (h : Inv s) (hi : 0 < (held s i).r ∨ 0 < (held s i).w) :
    ∃ t, (s.lock.state i).thr = some t ∧ (s.pc t).obtaining = false ∧ held s i = (s.lock.state i).state := by
  unfold held at hi ⊢
  by_cases hobtain : ∃ u, (s.lock.state i).thr = some u ∧ (s.pc u).obtaining = true
  · rw [if_pos hobtain] at hi
    simp at hi
  rw [if_neg hobtain] at hi ⊢
  cases hthr : (s.lock.state i).thr with
  | none =>
    rw [h.free i hthr] at hi
    simp at hi
  | some t => exact ⟨t, rfl, Bool.eq_false_iff.mpr fun ht => hobtain ⟨t, hthr, ht⟩, rfl⟩

omit [DecidableEq τ] in
theorem Inv.consistent (h : Inv s) : Consistent s fun t => (s.pc t).obtaining = false := by
  have hwrites : ∀ t, (s.pc t).obtaining = false → Writes s t → ∃ i, (s.lock.state i).thr = some t ∧ 0 < (held s i).w :=
    fun t ht ⟨i, hi, hw⟩ => ⟨i, hi, by rwa [held_of_not_obtaining hi ht]⟩
  have hreads : ∀ t, (s.pc t).obtaining = false → Reads s t → ∃ i, (s.lock.state i).thr = some t ∧ 0 < (held s i).r :=
    fun t ht ⟨i, hi, hr⟩ => ⟨i, hi, by rwa [held_of_not_obtaining hi ht]⟩
  have halone : ∀ t u, (s.pc t).obtaining = false → Writes s t → (s.pc u).obtaining = false → Reads s u ∨ Writes s u → u = t := by
    intro t u ht hw hu hany
    obtain ⟨i, hi, hw⟩ := hwrites t ht hw
    obtain ⟨j, hj, hany⟩ : ∃ j, (s.lock.state j).thr = some u ∧ (0 < (held s j).r ∨ 0 < (held s j).w) := by
      rcases hany with hr | hw
      · obtain ⟨j, hj, hr⟩ := hreads u hu hr
        exact ⟨j, hj, .inl hr⟩
      · obtain ⟨j, hj, hw⟩ := hwrites u hu hw
        exact ⟨j, hj, .inr hw⟩
    have hji := h.books.alone i hw j hany
    rw [hji, hi] at hj
    exact (Option.some.inj hj).symm
  refine ⟨?_, ⟨fun hwriter => ?_, ?_⟩, halone⟩
  · have hthr : ∀ i, i ∈ readers (held s) → (s.lock.state i).thr.isSome := fun i hi => by
      obtain ⟨t, ht, -⟩ := exists_holder h (.inl (mem_readers.mp hi))
      rw [ht]
      rfl
    rw [h.books.count, ← Set.ncard_coe_finset]
    refine Set.ncard_congr (fun i hi => (s.lock.state i).thr.get (hthr i hi)) (fun i hi => ?_) (fun i j hi hj hij => ?_) fun t ht => ?_
    · obtain ⟨t, ht, hpc, hheld⟩ := exists_holder h (.inl (mem_readers.mp hi))
      have hr := mem_readers.mp hi
      rw [hheld] at hr
      simp only [ht, Option.get_some]
      exact ⟨hpc, i, ht, hr⟩
    · exact h.unique i j _ (Option.some_get (hthr i hi)).symm ((congrArg some hij).trans (Option.some_get _)).symm
    · obtain ⟨i, hi, hr⟩ := hreads t ht.1 ht.2
      refine ⟨i, mem_readers.mpr hr, ?_⟩
      simp only [hi, Option.get_some]
  · obtain ⟨i, hw⟩ := h.books.writing.mp hwriter
    obtain ⟨t, ht, hpc, hheld⟩ := exists_holder h (.inr hw)
    have hwt : Writes s t := ⟨i, ht, by rwa [hheld] at hw⟩
    exact ⟨t, ⟨hpc, hwt⟩, fun u ⟨hu, hwu⟩ => halone t u hpc hwt hu (.inr hwu)⟩
  · rintro ⟨t, ⟨ht, hw⟩, -⟩
    obtain ⟨i, -, hw⟩ := hwrites t ht hw
    exact h.books.writing.mpr ⟨i, hw⟩

omit [DecidableEq τ] in
theorem init_inv : Inv (init : System τ) := by
  have hheld : held (init : System τ) = fun _ => ⟨0, 0⟩ := by
    funext i
    exact if_neg fun ⟨_, h, _⟩ => nomatch h
  refine ⟨rfl, rfl, nofun, fun _ _ => rfl, Nat.zero_le _, fun _ => .inl (Nat.le_refl _), fun _ _ _ h => absurd rfl h, nofun, nofun, nofun,
    fun _ _ => rfl, ?_⟩
  rw [hheld]
  exact ⟨by simp [readers, init, rurwLockInit], ⟨nofun, fun ⟨_, h⟩ => absurd h (lt_irrefl 0)⟩, fun _ h => absurd h (lt_irrefl 0)⟩

/-! ## What is obtained at once -/

theorem after_pc {o : Outcome τ} (h : s.after t c i o = some s') :
    (∀ u, u ≠ t → s'.pc u = s.pc u) ∧ (s'.pc t = .idle ∨ (∃ p, o = .waits p) ∧ s'.pc t = .waiting c i ∨ s'.pc t = s.pc t) := by
  cases o with
  | back p =>
    cases h
    exact ⟨fun u hu => update_of_ne hu _ _, .inl (update_self _ _ _)⟩
  | waits p =>
    cases h
    exact ⟨fun u hu => update_of_ne hu _ _, .inr (.inl ⟨⟨p, rfl⟩, update_self _ _ _⟩)⟩
  | misuse =>
    cases h
    exact ⟨fun _ _ => rfl, .inr (.inr rfl)⟩
  | stop => cases h

theorem call_pc (h : s.next (.call t c) = some s') : ∀ u, u ≠ t → s'.pc u = s.pc u := by
  intro u hu
  cases hpc : s.pc t with
  | idle =>
    simp only [System.next, hpc] at h
    have hindex : (s.threadIndex t).pc = s.pc := by
      unfold System.threadIndex
      split
      · rfl
      · split
        · rfl
        · rfl
    by_cases hsome : c = .obtain ⟨0, 0⟩
    · rw [if_pos hsome] at h
      cases h
      rfl
    rw [if_neg hsome, System.call] at h
    rw [← hindex]
    generalize s.threadIndex t = s at h
    generalize rurwEnter s.lock t (s.index t - 1) c.acquire = e at h
    cases e with
    | null =>
      cases h
      rfl
    | found i =>
      simp only at h
      by_cases hc : c.acquire = true
      · rw [if_pos hc] at h
        exact (after_pc h).1 u hu
      · rw [if_neg hc] at h
        cases h
        exact update_of_ne hu _ _
    | lockOwn i =>
      cases h
      exact update_of_ne hu _ _
    | lockScan mask =>
      cases h
      exact update_of_ne hu _ _
  | locking c' e =>
    simp only [System.next, hpc] at h
    cases h
  | waiting c' i =>
    simp only [System.next, hpc] at h
    cases h

theorem step_obtaining (h : Inv s) (hproper : Proper s a) (honce : AtOnce s a) (hstep : Step s a s')
    (hnone : ∀ t, (s.pc t).obtaining = false) (u : τ) : (s'.pc u).obtaining = false := by
  have hnext := hstep.2.2
  have hother : ∀ {t c i o}, s.after t c i o = some s' → ((∃ p, o = .waits p) → (Pc.waiting c i).obtaining = false) →
      (s'.pc u).obtaining = false := by
    intro t c i o hafter hwaits
    obtain ⟨hsame, hown⟩ := after_pc hafter
    by_cases hut : u = t
    · rw [hut]
      rcases hown with hidle | ⟨ho, hw⟩ | hold
      · rw [hidle]
        rfl
      · rw [hw]
        exact hwaits ho
      · rw [hold]
        exact hnone t
    · rw [hsame u hut]
      exact hnone u
  cases a with
  | call t c =>
    by_cases hut : u = t
    · have hnot := (call_step h hproper hstep).2
      cases hw : s'.pc u with
      | idle => rfl
      | locking c' e => rfl
      | waiting c' i => exact absurd (hut ▸ hw) (hnot c' i)
    · rw [call_pc hnext u hut]
      exact hnone u
  | lock t =>
    cases hpc : s.pc t with
    | locking c e =>
      have hok := h.pc t
      rw [hpc] at hok
      simp only [System.next, hpc, h.mutex] at hnext
      obtain ⟨⟨p, i⟩, htake, hafter⟩ := Option.bind_eq_some_iff.mp hnext
      refine hother hafter fun hwaits => ?_
      cases c with
      | obtain state =>
        exfalso
        obtain ⟨q, hq⟩ := hwaits
        simp only [AtOnce, hpc] at honce
        obtain ⟨hwriter, hreaders⟩ := honce
        rcases take_spec h hok htake with ⟨rfl, rfl⟩ | ⟨-, -, ⟨hc, -⟩, bitmask, -, rfl⟩
        · exact hok.2.elim
        · rw [body_fresh hc, loop, obtainLoop_at, hwriter] at hq
          by_cases hw : (Call.obtain state).depth.w = 0
          · rw [if_neg (by simpa using hw), if_neg Bool.false_ne_true] at hq
            cases hq
          · rw [if_pos hw, hreaders (Nat.pos_of_ne_zero hw), if_neg (by simp)] at hq
            cases hq
      | rLock => rfl
      | wLock => rfl
      | rUnlock => rfl
      | wUnlock => rfl
      | retreat => rfl
    | idle =>
      simp only [System.next, hpc] at hnext
      cases hnext
    | waiting c i =>
      simp only [System.next, hpc] at hnext
      cases hnext
  | wake t =>
    cases hpc : s.pc t with
    | waiting c i =>
      simp only [System.next, hpc, h.mutex] at hnext
      refine hother hnext fun _ => ?_
      rw [← hpc]
      exact hnone t
    | idle =>
      simp only [System.next, hpc] at hnext
      cases hnext
    | locking c e =>
      simp only [System.next, hpc] at hnext
      cases hnext

end

/-- In all runs in which nobody begins to read that only writes or to write that only reads, nobody obtains what it has, no thread
locks that has a slot beside a free one of its number, and nothing is obtained with a wait: the books are right over the threads, and
no step waits or releases without the mutex, or waits for nobody else. Where threads wait to obtain, the books are right over the
others. -/
theorem rurw_consistent [DecidableEq τ] :
    (∀ {s : System τ} {acts : List (Act τ)}, Steps (fun s a s' => Step s a s' ∧ Proper s a ∧ AtOnce s a) init acts s →
      s.misuse = false ∧ Consistent s (fun _ => True) ∧
        ∀ a s', Step s a s' → Proper s a → s'.misuse = false ∧ WaitsForOther s a s') ∧
    ∀ {s : System τ} {acts : List (Act τ)}, Steps (fun s a s' => Step s a s' ∧ Proper s a) init acts s →
      s.misuse = false ∧ Consistent s (fun t => (s.pc t).obtaining = false) ∧
        ∀ a s', Step s a s' → Proper s a → s'.misuse = false ∧ WaitsForOther s a s' := by
  have hnow : ∀ {s : System τ}, Inv s → ∀ a s', Step s a s' → Proper s a → s'.misuse = false ∧ WaitsForOther s a s' :=
    fun hinv a s' hstep hproper =>
      have hnext := step_inv hinv hproper hstep
      ⟨hnext.1.misuse, hnext.2⟩
  constructor
  · intro s acts hrun
    obtain ⟨hinv, hnone⟩ := hrun.invariant (fun s => Inv s ∧ ∀ t, (s.pc t).obtaining = false)
      (fun s a s' ⟨h, hnone⟩ ⟨hstep, hproper, honce⟩ => ⟨(step_inv h hproper hstep).1, step_obtaining h hproper honce hstep hnone⟩)
      ⟨init_inv, fun _ => rfl⟩
    have hconsistent := hinv.consistent
    have hall : (fun t => (s.pc t).obtaining = false) = fun _ => True := funext fun t => eq_true (hnone t)
    rw [hall] at hconsistent
    exact ⟨hinv.misuse, hconsistent, hnow hinv⟩
  · intro s acts hrun
    have hinv := hrun.invariant Inv (fun s a s' h hstep => (step_inv h hstep.2 hstep.1).1) init_inv
    exact ⟨hinv.misuse, hinv.consistent, hnow hinv⟩

/-- A thread that writes begins to read: it waits for itself, without the mutex. One that reads and begins to write does the same. -/
theorem rurw_misuse :
    (∃ s, Steps Step (init : System ℕ) [.call 0 .wLock, .lock 0, .call 0 .rLock] s ∧ s.misuse = true) ∧
    ∃ s, Steps Step (init : System ℕ) [.call 0 .rLock, .lock 0, .call 0 .wLock] s ∧ s.misuse = true := by
  have hrun : ∀ {acts : List (Act ℕ)}, (runs (fun _ _ => True) init acts).map (·.misuse) = some true →
      ∃ s, Steps Step init acts s ∧ s.misuse = true := fun h => by
    obtain ⟨s, hs, hmisuse⟩ := Option.map_eq_some_iff.mp h
    exact ⟨s, (steps_of_runs hs).mono fun _ _ _ hstep => hstep.1, hmisuse⟩
  exact ⟨hrun (by decide +kernel), hrun (by decide +kernel)⟩

end Rurw
end Slapd
end ReOpenLDAP
