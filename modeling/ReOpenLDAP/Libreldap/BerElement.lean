import ReOpenLDAP.Lib.BerOctets

/-!
# Libreldap.BerElement

A `BerElement`: its buffer, and writing to it.

Sizes are those of a 64-bit machine with 32-bit `int`.
-/

namespace ReOpenLDAP
namespace Libreldap

open List

def LBER_DEFAULT : ℕ := 2 ^ 64 - 1

def LBER_EXBUFSIZ : ℕ := 4060

/-- `struct berelement`; `sosPtr` is none for a null pointer, `der` is the option `LBER_USE_DER`. -/
structure BerElement where
  buf : List ℕ
  /-- `ber_ptr` -/
  ptr : ℕ
  /-- `ber_end` -/
  berEnd : ℕ
  /-- `ber_sos_ptr` -/
  sosPtr : Option ℕ
  /-- `ber_sos_inner` -/
  sosInner : ℕ
  /-- `ber_tag` -/
  tag : ℕ
  der : Bool
deriving DecidableEq

/-- `ber_memrealloc_x`: none if there is no memory. The octets that were there stay. -/
structure Allocator where
  realloc : List ℕ → ℕ → Option (List ℕ)
  length_realloc : ∀ {buf buf' : List ℕ} {total : ℕ}, realloc buf total = some buf' → buf'.length = total
  prefix_realloc : ∀ {buf buf' : List ℕ} {total : ℕ}, realloc buf total = some buf' → buf.length ≤ total → buf <+: buf'

def clearingAllocator : Allocator where
  realloc buf total := some ((buf ++ List.replicate (total - buf.length) 0).take total)
  length_realloc h := by
    obtain rfl := Option.some.inj h
    simp
    omega
  prefix_realloc h hle := by
    obtain rfl := Option.some.inj h
    rw [take_of_length_le (by simp; omega)]
    exact prefix_append _ _

namespace BerElement

/-- `ber_alloc_t` -/
def alloc (der : Bool) : BerElement := ⟨[], 0, 0, none, 0, LBER_DEFAULT, der⟩

/-- `ber_reset` behind writing. -/
def reset (ber : BerElement) : BerElement := { ber with berEnd := ber.ptr, ptr := 0 }

def cursor (ber : BerElement) : ℕ := ber.sosPtr.getD ber.ptr

def written (ber : BerElement) : List ℕ := ber.buf.take ber.cursor

/-- `ber_realloc` -/
def grow (memory : Allocator) (ber : BerElement) (len : ℕ) : Option BerElement :=
  let len := (len + 1) % 2 ^ 64
  if len = 0 then none
  else
    let total := (ber.berEnd + if len < LBER_EXBUFSIZ then LBER_EXBUFSIZ else len) % 2 ^ 64
    if total < len ∨ 2 ^ 63 - 1 < total then none
    else (memory.realloc ber.buf total).map fun buf => { ber with buf := buf, berEnd := total }

/-- The buffer, with room for `len` octets more. -/
def reserve (memory : Allocator) (ber : BerElement) (len : ℕ) : Option BerElement :=
  if ber.berEnd - ber.cursor < len then ber.grow memory len else some ber

/-- `memcpy` to an offset. -/
def store (buf : List ℕ) (p : ℕ) (octets : List ℕ) : List ℕ := buf.take p ++ octets ++ buf.drop (p + octets.length)

def append (ber : BerElement) (octets : List ℕ) : BerElement :=
  { ber with
    buf := store ber.buf ber.cursor octets
    ptr := if ber.sosPtr.isSome then ber.ptr else ber.ptr + octets.length
    sosPtr := ber.sosPtr.map fun p => p + octets.length }

/-- `ber_write` -/
def write (memory : Allocator) (ber : BerElement) (octets : List ℕ) : Option BerElement :=
  (ber.reserve memory octets.length).map fun ber => ber.append octets

end BerElement

/-- The buffer is as long as `ber_end` says, the cursor is in it, and an open sequence has its length octets at `ber_sos_inner`. -/
structure Ready (ber : BerElement) : Prop where
  length : ber.buf.length = ber.berEnd
  bound : ber.berEnd < 2 ^ 63
  cursor : ber.cursor ≤ ber.berEnd
  inner : ber.sosPtr.isSome = true → 0 < ber.sosInner
  tag : ber.tag ≤ LBER_DEFAULT

/-- `ber'` is `ber` with more octets, and the same sequences are open. -/
structure Extends (ber ber' : BerElement) (octets : List ℕ) : Prop where
  ready : Ready ber'
  written : ber'.written = ber.written ++ octets
  open_iff : ber'.sosPtr.isSome = ber.sosPtr.isSome
  ptr : ber.sosPtr.isSome = true → ber'.ptr = ber.ptr ∧ ber'.sosInner = ber.sosInner
  der : ber'.der = ber.der

namespace Extends

variable {ber ber' ber'' : BerElement} {bs cs : List ℕ}

theorem refl (h : Ready ber) : Extends ber ber [] :=
  ⟨h, (List.append_nil _).symm, rfl, fun _ => ⟨rfl, rfl⟩, rfl⟩

theorem trans (h : Extends ber ber' bs) (h' : Extends ber' ber'' cs) : Extends ber ber'' (bs ++ cs) := by
  refine ⟨h'.ready, ?_, h'.open_iff.trans h.open_iff, fun hopen => ?_, h'.der.trans h.der⟩
  · rw [h'.written, h.written, append_assoc]
  · obtain ⟨hptr, hinner⟩ := h.ptr hopen
    obtain ⟨hptr', hinner'⟩ := h'.ptr (h.open_iff.trans hopen)
    exact ⟨hptr'.trans hptr, hinner'.trans hinner⟩

theorem setTag (h : Extends ber ber' bs) {tag : ℕ} (htag : tag ≤ LBER_DEFAULT) : Extends ber { ber' with tag := tag } bs :=
  ⟨⟨h.ready.length, h.ready.bound, h.ready.cursor, h.ready.inner, htag⟩, h.written, h.open_iff, h.ptr, h.der⟩

end Extends

namespace BerElement

theorem ready_alloc (der : Bool) : Ready (alloc der) :=
  ⟨rfl, by simp [alloc], Nat.le_refl _, by simp [alloc], Nat.le_refl _⟩

variable {memory : Allocator} {ber ber' : BerElement}

theorem length_written (h : Ready ber) : ber.written.length = ber.cursor := by
  rw [written, length_take, h.length, min_eq_left h.cursor]

theorem grow_total {berEnd len : ℕ} (hend : berEnd < 2 ^ 63) (hlen : len < 2 ^ 64) (hzero : (len + 1) % 2 ^ 64 ≠ 0)
    (htotal : ¬(berEnd + if (len + 1) % 2 ^ 64 < LBER_EXBUFSIZ then LBER_EXBUFSIZ else (len + 1) % 2 ^ 64) % 2 ^ 64 <
      (len + 1) % 2 ^ 64) :
    berEnd + len < (berEnd + if (len + 1) % 2 ^ 64 < LBER_EXBUFSIZ then LBER_EXBUFSIZ else (len + 1) % 2 ^ 64) % 2 ^ 64 := by
  have hmod : (len + 1) % 2 ^ 64 = len + 1 := by omega
  rw [hmod] at htotal ⊢
  by_cases hsmall : len + 1 < LBER_EXBUFSIZ
  · rw [if_pos hsmall] at htotal ⊢
    unfold LBER_EXBUFSIZ at *
    omega
  · rw [if_neg hsmall] at htotal ⊢
    omega

theorem grow_ready {len : ℕ} (h : Ready ber) (hlen : len < 2 ^ 64) (hgrow : ber.grow memory len = some ber') :
    Extends ber ber' [] ∧ ber'.cursor = ber.cursor ∧ ber'.cursor + len ≤ ber'.berEnd ∧ ber'.tag = ber.tag := by
  unfold grow at hgrow
  simp only at hgrow
  rw [Option.ite_none_left_eq_some] at hgrow
  obtain ⟨hzero, hgrow⟩ := hgrow
  rw [Option.ite_none_left_eq_some] at hgrow
  obtain ⟨htotal, hgrow⟩ := hgrow
  obtain ⟨buf, hbuf, rfl⟩ := Option.map_eq_some_iff.mp hgrow
  obtain ⟨hover, hbound⟩ := not_or.mp htotal
  have hroom := grow_total h.bound hlen hzero hover
  have hcursor := h.cursor
  obtain ⟨fresh, rfl⟩ := memory.prefix_realloc hbuf (by rw [h.length]; omega)
  refine ⟨⟨⟨memory.length_realloc hbuf, ?_, ?_, h.inner, h.tag⟩, ?_, rfl, fun _ => ⟨rfl, rfl⟩, rfl⟩, rfl, ?_, rfl⟩
  · exact Nat.lt_of_le_of_lt (Nat.le_of_not_lt hbound) (by omega)
  · exact hcursor.trans (by simp only; omega)
  · rw [List.append_nil, written, written]
    exact take_append_of_le_length (by rw [h.length]; exact hcursor)
  · refine Nat.le_trans (Nat.add_le_add_right hcursor len) ?_
    exact Nat.le_of_lt hroom

theorem reserve_ready {len : ℕ} (h : Ready ber) (hlen : len < 2 ^ 64) (hreserve : ber.reserve memory len = some ber') :
    Extends ber ber' [] ∧ ber'.cursor = ber.cursor ∧ ber'.cursor + len ≤ ber'.berEnd ∧ ber'.tag = ber.tag := by
  unfold reserve at hreserve
  split at hreserve
  · exact grow_ready h hlen hreserve
  · obtain rfl := Option.some.inj hreserve
    have := h.cursor
    exact ⟨Extends.refl h, rfl, by omega, rfl⟩

@[simp] theorem length_store {buf octets : List ℕ} {p : ℕ} (h : p + octets.length ≤ buf.length) :
    (store buf p octets).length = buf.length := by
  simp only [store, length_append, length_take, length_drop]
  omega

theorem take_store {buf octets : List ℕ} {p : ℕ} (h : p + octets.length ≤ buf.length) :
    (store buf p octets).take (p + octets.length) = buf.take p ++ octets := by
  rw [store]
  exact take_left' (by simp only [length_append, length_take]; omega)

@[simp] theorem cursor_append (octets : List ℕ) : (ber.append octets).cursor = ber.cursor + octets.length := by
  unfold cursor append
  cases ber.sosPtr <;> simp

theorem append_ready {octets : List ℕ} (h : Ready ber) (hroom : ber.cursor + octets.length ≤ ber.berEnd) :
    Extends ber (ber.append octets) octets := by
  have hlen : ber.cursor + octets.length ≤ ber.buf.length := by rwa [h.length]
  refine ⟨⟨?_, h.bound, ?_, fun hopen => h.inner ?_, h.tag⟩, ?_, ?_, fun hopen => ⟨?_, rfl⟩, rfl⟩
  · rw [append, length_store hlen, h.length]
  · rw [cursor_append]
    exact hroom
  · simpa [append] using hopen
  · rw [written, cursor_append]
    exact take_store hlen
  · simp [append]
  · simp [append, hopen]

theorem write_ready {octets : List ℕ} (h : Ready ber) (hlen : octets.length < 2 ^ 64)
    (hwrite : ber.write memory octets = some ber') : Extends ber ber' octets ∧ ber'.tag = ber.tag := by
  obtain ⟨ber₁, hreserve, rfl⟩ := Option.map_eq_some_iff.mp hwrite
  obtain ⟨hext, hcursor, hroom, htag⟩ := reserve_ready h hlen hreserve
  exact ⟨hext.trans (append_ready hext.ready hroom), htag⟩

end BerElement
end Libreldap
end ReOpenLDAP
