import ReOpenLDAP.Lib.ByteMemory
import ReOpenLDAP.Lib.Run

/-!
# Slapd.SlMalloc

The memory of a task: a slab that is used as a stack, and the system's allocator when the slab is full.
-/

namespace ReOpenLDAP
namespace Slapd

open Memory

/-- `struct slab_heap` -/
structure SlabHeap where
  shBase : ℕ
  shLast : ℕ
  shEnd : ℕ
  mem : Memory

/-- `sizeof(ber_len_t)`, and `Align` as well -/
def wordSize : ℕ := 8

def slFreeMask : ℕ := 2 ^ 63

def slMaxSize : ℕ := slFreeMask / 2

def slAlign (bytes : ℕ) : ℕ := (bytes + (wordSize - 1)) % 2 ^ 64 / wordSize * wordSize

def slUp2block (gross : ℕ) : ℕ := slAlign (gross + wordSize)

def slGetFree (head : ℕ) : Bool := head &&& slFreeMask != 0

def slSetFree (head : ℕ) : ℕ := head ||| slFreeMask

def slGetSize (head : ℕ) : ℕ := head &&& (slFreeMask - 1)

def slUpdateSize (head gross : ℕ) : ℕ := head &&& slFreeMask ||| gross

namespace SlabHeap

def head (sh : SlabHeap) (block : ℕ) : ℕ := sh.mem.load wordSize block

def setHead (sh : SlabHeap) (block v : ℕ) : SlabHeap := { sh with mem := sh.mem.store wordSize block v }

end SlabHeap

/-- `__slap_sl_malloc` in stack mode -/
def slapSlMallocIn (grossSize : ℕ) (sh : SlabHeap) : Option (ℕ × SlabHeap) :=
  let slSize := slUp2block grossSize
  if slSize < sh.shEnd - sh.shLast then
    some (sh.shLast + wordSize, { sh.setHead sh.shLast slSize with shLast := sh.shLast + slSize })
  else none

/-- `ch_malloc`, where the system's allocator answers `ch` -/
def chMalloc (size : ℕ) (ch : Option ℕ) : Option ℕ := if size = 0 then none else ch

def chCalloc (nelem size : ℕ) (ch : Option ℕ) : Option ℕ := if nelem = 0 ∨ size = 0 then none else ch

def slapSlMalloc (nettSize : ℕ) (ch : Option ℕ) (sh : SlabHeap) : Option (Option ℕ × SlabHeap) :=
  if nettSize = 0 then some (none, sh)
  else
    match if nettSize < slMaxSize then slapSlMallocIn nettSize sh else none with
    | some (ptr, sh') => some (some ptr, sh')
    | none => (chMalloc nettSize ch).map fun a => (some a, sh)

/-- The test of `slap_sl_calloc` for what is out of range, `(ber_len_t)-1 / n > s`; a division by zero stops the process as well. -/
def OutOfRange (n s : ℕ) : Prop := 2 ^ 32 - 1 < n ||| s ∧ (n = 0 ∨ s < (2 ^ 64 - 1) / n)

instance (n s : ℕ) : Decidable (OutOfRange n s) := inferInstanceAs (Decidable (_ ∧ _))

/-- `slap_sl_calloc`: the product is a number of 64 bits. -/
def slapSlCalloc (n s : ℕ) (ch : Option ℕ) (sh : SlabHeap) : Option (Option ℕ × SlabHeap) :=
  if n ||| s = 0 then some (none, sh)
  else if OutOfRange n s then none
  else
    let nettSize := n * s % 2 ^ 64
    match if nettSize < slMaxSize then slapSlMallocIn nettSize sh else none with
    | some (ptr, sh') => some (some ptr, { sh' with mem := sh'.mem.fill ptr nettSize 0 })
    | none => (chCalloc n s ch).map fun a => (some a, { sh with mem := sh.mem.fill a (n * s) 0 })

/-- Freed blocks in front of `block`, by the size at their tail. -/
def reclaim (sh : SlabHeap) : ℕ → ℕ → Option ℕ
  | 0, _ => none
  | fuel + 1, block => if slGetFree (sh.head block) then reclaim sh fuel (block - sh.head (block - wordSize)) else some block

/-- `slap_sl_free`. A loop that takes more steps than there are addresses does not end. -/
def slapSlFree (ptr : Option ℕ) (sh : SlabHeap) : Option SlabHeap :=
  match ptr with
  | none => some sh
  | some ptr =>
    if ptr < sh.shBase ∨ sh.shEnd ≤ ptr then some sh
    else
      let block := ptr - wordSize
      let slSize := slGetSize (sh.head block)
      let nextBlock := block + slSize
      if sh.shLast ≠ nextBlock then
        let sh := sh.setHead (nextBlock - wordSize) slSize
        some (sh.setHead nextBlock (slSetFree (sh.head nextBlock)))
      else (reclaim sh (block + 1) block).map fun block => { sh with shLast := block }

/-- The end of `slap_sl_realloc`: nowhere to grow. -/
def slapSlMove (ptr newNettSize oldNettSize : ℕ) (ch : Option ℕ) (sh : SlabHeap) : Option (Option ℕ × SlabHeap) :=
  match slapSlMalloc newNettSize ch sh with
  | none => none
  | some (none, sh) => some (none, sh)
  | some (some newptr, sh) =>
    (slapSlFree (some ptr) { sh with mem := sh.mem.copy newptr ptr (min oldNettSize newNettSize) }).map fun sh => (some newptr, sh)

/-- `slap_sl_realloc`, where a block of the system's allocator has `heapSize` bytes -/
def slapSlRealloc (ptr : Option ℕ) (newNettSize : ℕ) (ch : Option ℕ) (heapSize : ℕ) (sh : SlabHeap) :
    Option (Option ℕ × SlabHeap) :=
  match ptr with
  | none => slapSlMalloc newNettSize ch sh
  | some ptr =>
    if ptr ≤ sh.shBase ∨ sh.shEnd ≤ ptr then
      -- `ber_memrealloc_x` frees for size zero, and then its NULL is an error
      (if newNettSize = 0 then none else ch).map fun a =>
        (some a, { sh with mem := sh.mem.copy a ptr (min heapSize newNettSize) })
    else if newNettSize = 0 then (slapSlFree (some ptr) sh).map fun sh => (none, sh)
    else
      let block := ptr - wordSize
      let oldSlSize := slGetSize (sh.head block)
      let newSlSize := slUp2block newNettSize
      -- `assert(old_sl_size > sizeof(ber_len_t))`
      if oldSlSize ≤ wordSize then none
      else if newNettSize < slMaxSize ∧ newSlSize ≤ oldSlSize then some (some ptr, sh)
      else if newNettSize < slMaxSize ∧ block + oldSlSize = sh.shLast ∧ newSlSize < sh.shEnd - block then
        some (some ptr, { sh.setHead block (slUpdateSize (sh.head block) newSlSize) with shLast := block + newSlSize })
      else slapSlMove ptr newNettSize (oldSlSize - wordSize) ch sh

/-! ## Calls -/

namespace Slab

inductive Call where
  | malloc (nettSize : ℕ)
  | calloc (n s : ℕ)
  | realloc (ptr : Option ℕ) (newNettSize : ℕ)
  | free (ptr : Option ℕ)
  deriving DecidableEq

namespace Call

def size : Call → ℕ
  | malloc nettSize => nettSize
  | calloc n s => n * s
  | realloc _ newNettSize => newNettSize
  | free _ => 0

def ptr : Call → Option ℕ
  | malloc _ => none
  | calloc _ _ => none
  | realloc ptr _ => ptr
  | free ptr => ptr

def Fits : Call → Prop
  | malloc nettSize => nettSize < 2 ^ 64
  | calloc n s => n < 2 ^ 64 ∧ s < 2 ^ 64
  | realloc _ newNettSize => newNettSize < 2 ^ 64
  | free _ => True

instance : DecidablePred Fits
  | malloc nettSize => inferInstanceAs (Decidable (nettSize < 2 ^ 64))
  | calloc n s => inferInstanceAs (Decidable (n < 2 ^ 64 ∧ s < 2 ^ 64))
  | realloc _ newNettSize => inferInstanceAs (Decidable (newNettSize < 2 ^ 64))
  | free _ => .isTrue trivial

/-- No array without bytes, and none that 64 bits do not count, unless the test stops it. -/
def Proper : Call → Prop
  | calloc n s => n = 0 ∧ s = 0 ∨ OutOfRange n s ∨ 0 < n * s ∧ n * s < 2 ^ 64
  | _ => True

end Call

structure State where
  sh : SlabHeap
  live : ℕ → Option ℕ

namespace State

variable (s : State)

def InSlab (x : ℕ) : Prop := s.sh.shBase ≤ x ∧ x < s.sh.shEnd

def Covers (x : ℕ) : Prop := ∃ p n, s.live p = some n ∧ p ≤ x ∧ x < p + n

structure Fresh : Prop where
  aligned : 8 ∣ s.sh.shBase
  le : s.sh.shBase ≤ s.sh.shEnd
  last : s.sh.shLast = s.sh.shBase
  live : ∀ p, s.live p = none

def exec (ch : Option ℕ) : Call → Option (Option ℕ × SlabHeap)
  | .malloc nettSize => slapSlMalloc nettSize ch s.sh
  | .calloc n k => slapSlCalloc n k ch s.sh
  | .realloc ptr newNettSize => slapSlRealloc ptr newNettSize ch ((ptr.bind s.live).getD 0) s.sh
  | .free ptr => (slapSlFree ptr s.sh).map fun sh => (none, sh)

def Admits (c : Call) : Prop := c.Fits ∧ ∀ p ∈ c.ptr, (s.live p).isSome

instance (c : Call) : Decidable (s.Admits c) := inferInstanceAs (Decidable (_ ∧ _))

/-- What the system's allocator may answer: bytes outside of the slab and of the blocks that callers keep. -/
def HeapGives (c : Call) (ch : Option ℕ) : Prop :=
  ∀ a, ch = some a → (a + c.size ≤ s.sh.shBase ∨ s.sh.shEnd ≤ a) ∧
    ∀ p n, s.live p = some n → c.ptr ≠ some p → a + c.size ≤ p ∨ p + n ≤ a

end State

/-- The blocks after a call that gave `old` back and got `new` of `n` bytes. -/
def handOut (live : ℕ → Option ℕ) (old new : Option ℕ) (n : ℕ) : ℕ → Option ℕ :=
  fun p => if new = some p then some n else if old = some p then none else live p

inductive Act where
  | call (c : Call) (ch : Option ℕ)
  | write (mem : Memory)

def Act.Proper : Act → Prop
  | call c _ => c.Proper
  | write _ => True

inductive Step : State → Act → State → Prop where
  | call {s : State} {c : Call} {ch p : Option ℕ} {sh : SlabHeap} : s.Admits c → s.HeapGives c ch → s.exec ch c = some (p, sh) →
      Step s (.call c ch) ⟨sh, handOut s.live c.ptr p c.size⟩
  /-- Outside of the slab anything may be written, in it what the blocks have. -/
  | write {s : State} {mem : Memory} : (∀ x, s.InSlab x → ¬s.Covers x → mem x = s.sh.mem x) →
      Step s (.write mem) { s with sh := { s.sh with mem := mem } }

def State.calls : State → List Call → Option State
  | s, [] => some s
  | s, c :: cs =>
    if s.Admits c then (s.exec none c).bind fun r => State.calls ⟨r.2, handOut s.live c.ptr r.1 c.size⟩ cs else none

theorem steps_of_calls {s s' : State} {cs : List Call} (h : s.calls cs = some s') :
    Steps Step s (cs.map fun c => .call c none) s' := by
  induction cs generalizing s with
  | nil =>
    cases h
    exact .refl
  | cons c cs ih =>
    rw [State.calls, Option.ite_none_right_eq_some] at h
    obtain ⟨hadmits, h⟩ := h
    obtain ⟨r, hexec, h⟩ := Option.bind_eq_some_iff.mp h
    exact .cons (.call hadmits (by nofun) hexec) (ih h)

end Slab
end Slapd
end ReOpenLDAP
