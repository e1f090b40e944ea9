import ReOpenLDAP.Libreldap.RoundTrip

/-!
# Libreldap.InPlaceScan

`ber_scanf` with the items that leave strings where they are and overwrite the octet behind each with a NUL.
-/

namespace ReOpenLDAP
namespace Libreldap

open List Option

namespace InPlace

/-- What a `struct berval` is filled with. -/
inductive Berval where
  | own (octets : List ℕ)
  | place (off len : ℕ)
deriving DecidableEq

/-- The octets, when the buffer is `buf`. -/
def Berval.octets (buf : List ℕ) : Berval → List ℕ
  | own octets => octets
  | place off len => (buf.drop off).take len

/-- `ber_get_stringbv`, with `LBER_BV_ALLOC` or with no option: the tag, the string and the state behind it. -/
def getStringbv (alloc : Bool) (ber : BerElement) : Option (ℕ × Berval × BerElement) :=
  ber.skipElement.map fun r =>
    if alloc then (r.1, .own r.2.1, r.2.2)
    else (r.1, .place (r.2.2.ptr - r.2.1.length) r.2.1.length, { r.2.2 with buf := r.2.2.buf.set r.2.2.ptr 0 })

/-- The loop of `ber_get_stringbvl` that reads. The tag is that of the last string. -/
def getStrings (alloc : Bool) : ℕ → ℕ → BerElement → Option (ℕ × List Berval × BerElement)
  | 0, tag, ber => some (tag, [], ber)
  | n + 1, _, ber =>
    (getStringbv alloc ber).bind fun s => (getStrings alloc n s.1 s.2.2).map fun ss => (ss.1, s.2.1 :: ss.2.1, ss.2.2)

/-- `ber_get_stringbvl` -/
def getStringbvl (alloc : Bool) (ber : BerElement) : Option (ℕ × List Berval × BerElement) :=
  ber.skipTag.bind fun r =>
    let orig := r.2.2
    let last := orig.ptr + r.2.1
    let count := BerElement.countTo last r.2.1 0 orig
    if count.2.ptr ≠ last then none else getStrings alloc count.1 0 (orig.seek orig.ptr)

/-- `ber_get_int`, with the tag. -/
def getInt (ber : BerElement) : Option (ℕ × ℤ × BerElement) :=
  ber.skipElement.bind fun r => (BerElement.decodeInt r.2.1).map fun num => (r.1, num, r.2.2)

inductive ReadItem where
  | m
  | M
  | o
  | W
  | i
  | e
  | b
  | x
  | openSeq
  | openSet
  | closeSeq
  | closeSet
deriving DecidableEq

/-- What an argument holds. The number of strings is returned for `M` and is up to the null pointer at the end for `W`. -/
inductive Arg where
  | int (num : ℤ)
  | bv (v : Berval)
  | bvs (vs : List Berval)
  /-- A null pointer and a length or a number of 0. -/
  | zero
deriving DecidableEq

/-- The items that stand behind `{` without a tag of their own to skip. -/
def vectorItems : List ReadItem := [.W, .M]

/-- One round of the loop of `ber_scanf`, with the item behind it: what it returns, the arguments and the state. -/
def scanItem (ber : BerElement) (rc : ℕ) (next : Option ReadItem) : ReadItem → Option (ℕ × List Arg × BerElement)
  | .m => (getStringbv false ber).map fun r => (r.1, [.bv r.2.1], r.2.2)
  | .M => (getStringbvl false ber).map fun r => (r.1, [.bvs r.2.1], r.2.2)
  | .o => (getStringbv true ber).map fun r => (r.1, [.bv r.2.1], r.2.2)
  | .W => (getStringbvl true ber).map fun r => (r.1, [.bvs r.2.1], r.2.2)
  | .i => (getInt ber).map fun r => (r.1, [.int r.2.1], r.2.2)
  | .e => (getInt ber).map fun r => (r.1, [.int r.2.1], r.2.2)
  | .b => (getInt ber).map fun r => (r.1, [.int r.2.1], r.2.2)
  | .x => ber.skipElement.map fun r => (r.1, [], r.2.2)
  | .openSeq => if next.any (· ∈ vectorItems) then some (rc, [], ber) else ber.skipTag.map fun r => (r.1, [], r.2.2)
  | .openSet => if next.any (· ∈ vectorItems) then some (rc, [], ber) else ber.skipTag.map fun r => (r.1, [], r.2.2)
  | .closeSeq => some (rc, [], ber)
  | .closeSet => some (rc, [], ber)

def ReadItem.failed : ReadItem → List Arg
  | m => [.zero]
  | M => [.zero]
  | o => [.zero]
  | W => [.zero]
  | _ => []

def Arg.reclaim : Arg → Arg
  | int num => .int num
  | _ => .zero

/-- `ber_scanf`, when `rc` was returned last: for an error, the arguments of the items up to the one that failed. -/
def scanf (ber : BerElement) (rc : ℕ) : List ReadItem → Except (List Arg) (ℕ × List Arg × BerElement)
  | [] => .ok (rc, [], ber)
  | item :: items =>
    match scanItem ber rc items.head? item with
    | none => .error item.failed
    | some r =>
      match scanf r.2.2 r.1 items with
      | .error args => .error (r.2.1.map Arg.reclaim ++ args)
      | .ok rs => .ok (rs.1, r.2.1 ++ rs.2.1, rs.2.2)

def ReadItem.copying : ReadItem → ReadItem
  | m => .o
  | M => .W
  | item => item

def Arg.settle (buf : List ℕ) : Arg → Arg
  | int num => .int num
  | bv v => .bv (.own (v.octets buf))
  | bvs vs => .bvs (vs.map fun v => .own (v.octets buf))
  | zero => .zero

def outcome : Except (List Arg) (ℕ × List Arg × BerElement) → Except (List Arg) (ℕ × List Arg × ℕ × ℕ)
  | .error args => .error args
  | .ok r => .ok (r.1, r.2.1.map (Arg.settle r.2.2.buf), r.2.2.ptr, r.2.2.tag)

section

variable {ber ber' : BerElement} {tag : ℕ} {content : List ℕ}
variable {r : ℕ × List ℕ}

theorem moreTag_suffix {tag : ℕ} {octets : List ℕ} (h : BerElement.moreTag tag octets = some r) : r.2 <:+ octets := by
  induction octets generalizing tag with
  | nil => simp [BerElement.moreTag] at h
  | cons b rest ih =>
    unfold BerElement.moreTag at h
    extract_lets tag' at h
    by_cases hlast : tag' / 128 % 2 = 0
    · rw [if_pos hlast] at h
      obtain rfl := Option.some.inj h
      exact suffix_cons _ _
    · rw [if_neg hlast, ite_none_right_eq_some] at h
      exact (ih h.2).trans (suffix_cons _ _)

theorem tagAndRest_suffix (h : ber.tagAndRest = some r) : r.2 <:+ ber.rest.tail ∧ ber.rest ≠ [] := by
  unfold BerElement.tagAndRest at h
  cases hrest : ber.rest with
  | nil =>
    rw [hrest] at h
    simp at h
  | cons b rest =>
    rw [hrest] at h
    simp only at h
    refine ⟨?_, cons_ne_nil _ _⟩
    by_cases hlow : (if ber.ptr = 0 then b else ber.tag) % 32 ≠ 31
    · rw [if_pos hlow] at h
      obtain rfl := Option.some.inj h
      exact suffix_refl _
    · rw [if_neg hlow] at h
      exact moreTag_suffix h

theorem peekLength_suffix {octets : List ℕ} (h : BerElement.peekLength octets = some r) : r.2 <:+ octets := by
  cases octets with
  | nil => simp [BerElement.peekLength] at h
  | cons b rest =>
    rw [BerElement.peekLength] at h
    generalize b - 0x80 = n at h
    by_cases hshort : b < 0x80
    · rw [if_pos hshort] at h
      rw [← Option.some.inj h]
      exact suffix_cons b rest
    · rw [if_neg hshort, ite_none_left_eq_some] at h
      rw [← Option.some.inj h.2]
      exact (drop_suffix n rest).trans (suffix_cons b rest)

theorem peekElement_suffix {p : BerElement.Peek} (h : ber.peekElement = some p) :
    p.rest <:+ ber.rest.tail ∧ ber.rest ≠ [] ∧ p.len ≤ p.rest.length := by
  obtain ⟨t, htag, h⟩ := Option.bind_eq_some_iff.mp h
  obtain ⟨-, h⟩ := Option.ite_none_left_eq_some.mp h
  obtain ⟨l, hlen, h⟩ := Option.bind_eq_some_iff.mp h
  obtain ⟨hle, h⟩ := Option.ite_none_left_eq_some.mp h
  have hp := Option.some.inj h
  obtain ⟨hsuffix, hne⟩ := tagAndRest_suffix htag
  rw [← hp]
  exact ⟨(peekLength_suffix hlen).trans hsuffix, hne, Nat.le_of_not_lt hle⟩

theorem peekElement_place {p : BerElement.Peek} (h : ber.peekElement = some p) (hend : ber.berEnd ≤ ber.buf.length) :
    ber.ptr < ber.berEnd - p.rest.length ∧ ber.berEnd - p.rest.length + p.len ≤ ber.berEnd ∧
      p.rest.take p.len = (ber.buf.drop (ber.berEnd - p.rest.length)).take p.len := by
  obtain ⟨hsuffix, hne, hlen⟩ := peekElement_suffix h
  have hpos := length_pos_of_ne_nil hne
  have hle := hsuffix.length_le
  have hrest : ber.rest.length = ber.berEnd - ber.ptr := by
    rw [BerElement.rest, length_drop, length_take, min_eq_left hend]
  rw [length_tail] at hle
  refine ⟨by omega, by omega, ?_⟩
  have heq : p.rest = (ber.buf.take ber.berEnd).drop (ber.berEnd - p.rest.length) := by
    have hsuffix' : p.rest <:+ ber.buf.take ber.berEnd :=
      (hsuffix.trans (tail_suffix _)).trans (drop_suffix _ _)
    have hdrop := List.suffix_iff_eq_drop.mp hsuffix'
    rwa [length_take, min_eq_left hend] at hdrop
  conv_lhs => rw [heq]
  rw [drop_take, take_take, min_eq_left (by omega)]

end

/-- The reader `ber'` has overwritten octets, but none from behind the cursor on, nor the first octet of the buffer while it is the
next tag. -/
structure Same (ber ber' : BerElement) : Prop where
  ptr : ber'.ptr = ber.ptr
  berEnd : ber'.berEnd = ber.berEnd
  tag : ber'.tag = ber.tag
  length : ber'.buf.length = ber.buf.length
  ahead : ∀ k, ber.ptr < k → ber'.buf[k]? = ber.buf[k]?
  start : ber.ptr = 0 → ber'.buf = ber.buf

namespace Same

variable {ber ber' : BerElement}

theorem refl (ber : BerElement) : Same ber ber := ⟨rfl, rfl, rfl, rfl, fun _ _ => rfl, fun _ => rfl⟩

theorem drop_eq (h : Same ber ber') {n : ℕ} (hn : ber.ptr < n) : ber'.buf.drop n = ber.buf.drop n := by
  refine ext_getElem? fun k => ?_
  rw [List.getElem?_drop, List.getElem?_drop]
  exact h.ahead _ (by omega)

theorem tail_rest (h : Same ber ber') : ber'.rest.tail = ber.rest.tail := by
  unfold BerElement.rest
  rw [tail_drop, tail_drop, h.ptr, h.berEnd, drop_take, drop_take, h.drop_eq (Nat.lt_succ_self _)]

theorem length_rest (h : Same ber ber') : ber'.rest.length = ber.rest.length := by
  unfold BerElement.rest
  rw [length_drop, length_drop, length_take, length_take, h.ptr, h.berEnd, h.length]

theorem tagAndRest (h : Same ber ber') : ber'.tagAndRest = ber.tagAndRest := by
  have htail := h.tail_rest
  have hlen := h.length_rest
  have hstart : ber.ptr = 0 → ber'.rest = ber.rest := fun hzero => by
    unfold BerElement.rest
    rw [h.ptr, h.berEnd, h.start hzero]
  unfold BerElement.tagAndRest
  rw [h.ptr, h.tag]
  generalize ber'.rest = left' at *
  generalize ber.rest = left at *
  cases left with
  | nil =>
    obtain rfl := List.length_eq_zero_iff.mp hlen
    rfl
  | cons b bs =>
    cases left' with
    | nil => simp at hlen
    | cons c cs =>
      simp only [tail_cons] at htail
      subst htail
      by_cases hzero : ber.ptr = 0
      · rw [hstart hzero]
      · simp only [if_neg hzero]

theorem peekElement (h : Same ber ber') : ber'.peekElement = ber.peekElement := by
  unfold BerElement.peekElement
  rw [h.tagAndRest]

theorem seek (h : Same ber ber') {p : ℕ} (hp : ber.ptr < p) : Same (ber.seek p) (ber'.seek p) := by
  refine ⟨rfl, h.berEnd, ?_, h.length, fun k hk => h.ahead k (hp.trans hk), fun hzero => ?_⟩
  · simp only [BerElement.seek, getD_eq_getElem?_getD, h.ahead _ hp]
  · simp only [BerElement.seek] at hzero
    omega

end Same

/-! ## What is overwritten -/

/-- The reader `ber'` is `ber` further on. What it overwrote is behind the place where `ber` was. -/
structure Behind (ber ber' : BerElement) : Prop where
  ptr : ber.ptr ≤ ber'.ptr
  berEnd : ber'.berEnd = ber.berEnd
  length : ber'.buf.length = ber.buf.length
  before : ∀ k ≤ ber.ptr, ber'.buf[k]? = ber.buf[k]?

namespace Behind

variable {ber ber' ber'' : BerElement}

theorem refl (ber : BerElement) : Behind ber ber := ⟨Nat.le_refl _, rfl, rfl, fun _ _ => rfl⟩

theorem trans (h : Behind ber ber') (h' : Behind ber' ber'') : Behind ber ber'' :=
  ⟨h.ptr.trans h'.ptr, h'.berEnd.trans h.berEnd, h'.length.trans h.length,
    fun k hk => (h'.before k (hk.trans h.ptr)).trans (h.before k hk)⟩

theorem seek (ber : BerElement) {p : ℕ} (hp : ber.ptr ≤ p) : Behind ber (ber.seek p) := ⟨hp, rfl, rfl, fun _ _ => rfl⟩

theorem octets_place (h : Behind ber ber') {off len : ℕ} (hplace : off + len ≤ ber.ptr) :
    (Berval.place off len).octets ber'.buf = (Berval.place off len).octets ber.buf := by
  refine ext_getElem? fun k => ?_
  simp only [Berval.octets, List.getElem?_take, List.getElem?_drop]
  split
  · exact h.before _ (by omega)
  · rfl

end Behind

/-- A read by two readers: both fail, or both return the same and are at the same place. What they return is compared with the
octets that are in the buffer of the first, there and wherever it goes on to. -/
def Agrees {α β : Type} (value : List ℕ → α → β) (ber : BerElement) :
    Option (ℕ × α × BerElement) → Option (ℕ × α × BerElement) → Prop
  | none, none => True
  | some r, some s =>
    r.1 = s.1 ∧ Behind ber r.2.2 ∧ Same s.2.2 r.2.2 ∧ ∀ ber', Behind r.2.2 ber' → ∀ buf, value ber'.buf r.2.1 = value buf s.2.1
  | _, _ => False

section

variable {α β γ δ : Type} {ber ber' : BerElement}
variable {r r' : Option (ℕ × α × BerElement)} {value : List ℕ → α → β}

theorem Agrees.cases (h : Agrees value ber r r') : (r = none ∧ r' = none) ∨
      ∃ tag a a' next next', r = some (tag, a, next) ∧ r' = some (tag, a', next') ∧ Behind ber next ∧ Same next' next ∧
        ∀ ber', Behind next ber' → ∀ buf, value ber'.buf a = value buf a' := by
  cases r with
  | none =>
    cases r' with
    | none => exact .inl ⟨rfl, rfl⟩
    | some s => exact h.elim
  | some r =>
    cases r' with
    | none => exact h.elim
    | some s =>
      obtain ⟨tag, a, next⟩ := r
      obtain ⟨tag', a', next'⟩ := s
      obtain ⟨htag, hbehind, hsame, hval⟩ := h
      exact .inr ⟨tag, a, a', next, next', rfl, by rw [show tag = tag' from htag], hbehind, hsame, hval⟩

theorem Agrees.map {value' : List ℕ → γ → δ} (f : α → γ)
    (h : Agrees value ber r r') (hvalue : ∀ buf buf' a a', value buf a = value buf' a' → value' buf (f a) = value' buf' (f a')) :
    Agrees value' ber (r.map fun r => (r.1, f r.2.1, r.2.2)) (r'.map fun r => (r.1, f r.2.1, r.2.2)) := by
  rcases h.cases with ⟨rfl, rfl⟩ | ⟨tag, a, a', next, next', rfl, rfl, hbehind, hsame, hval⟩
  · trivial
  · exact ⟨rfl, hbehind, hsame, fun ber' hber buf => hvalue _ _ _ _ (hval ber' hber buf)⟩

theorem Agrees.start {first : BerElement} (h : Agrees value ber r r') (hfirst : Behind first ber) : Agrees value first r r' := by
  rcases h.cases with ⟨rfl, rfl⟩ | ⟨tag, a, a', next, next', rfl, rfl, hbehind, hsame, hval⟩
  · trivial
  · exact ⟨rfl, hfirst.trans hbehind, hsame, hval⟩

theorem Agrees.skip (h : Same ber ber') (rc : ℕ) (a : α) (ha : ∀ buf buf', value buf a = value buf' a) :
    Agrees value ber' (some (rc, a, ber')) (some (rc, a, ber)) :=
  ⟨rfl, Behind.refl ber', h, fun _ _ _ => ha _ _⟩

theorem skipElement_same (h : Same ber ber') (hend : ber.berEnd ≤ ber.buf.length) :
    (ber.skipElement = none ∧ ber'.skipElement = none) ∨
      ∃ tag content p, ber.skipElement = some (tag, content, ber.seek p) ∧ ber'.skipElement = some (tag, content, ber'.seek p) ∧
        ber.ptr < p - content.length ∧ content.length ≤ p ∧ content = (ber'.buf.drop (p - content.length)).take content.length := by
  unfold BerElement.skipElement
  rw [h.peekElement]
  cases hpeek : ber.peekElement with
  | none => exact .inl ⟨rfl, rfl⟩
  | some p =>
    have hpeek' : ber'.peekElement = some p := h.peekElement.trans hpeek
    obtain ⟨hptr, hp, -⟩ := peekElement_place hpeek hend
    obtain ⟨-, -, hcontent⟩ := peekElement_place hpeek' (by rw [h.berEnd, h.length]; exact hend)
    obtain ⟨-, -, hlen⟩ := peekElement_suffix hpeek
    have hlength : (p.rest.take p.len).length = p.len := by rw [length_take, min_eq_left hlen]
    refine .inr ⟨_, _, _, rfl, by rw [h.berEnd]; rfl, ?_, ?_, ?_⟩
    · rw [hlength]
      omega
    · rw [hlength]
      omega
    · rw [hlength, Nat.add_sub_cancel, ← h.berEnd]
      exact hcontent

theorem skipTag_same (h : Same ber ber') (hend : ber.berEnd ≤ ber.buf.length) :
    (ber.skipTag = none ∧ ber'.skipTag = none) ∨
      ∃ tag len p, ber.skipTag = some (tag, len, ber.seek p) ∧ ber'.skipTag = some (tag, len, ber'.seek p) ∧ ber.ptr < p := by
  unfold BerElement.skipTag
  rw [h.peekElement]
  cases hpeek : ber.peekElement with
  | none => exact .inl ⟨rfl, rfl⟩
  | some p =>
    obtain ⟨hptr, -, -⟩ := peekElement_place hpeek hend
    exact .inr ⟨_, _, _, rfl, by rw [h.berEnd]; rfl, hptr⟩

theorem getStringbv_agrees (h : Same ber ber') (hend : ber.berEnd ≤ ber.buf.length) (alloc : Bool) :
    Agrees Berval.octets ber' (getStringbv alloc ber') (getStringbv true ber) := by
  unfold getStringbv
  rcases skipElement_same h hend with ⟨hnone, hnone'⟩ | ⟨tag, content, p, hsome, hsome', hptr, hlen, hcontent⟩
  · rw [hnone, hnone']
    trivial
  · have hp : ber.ptr < p := by omega
    rw [hsome, hsome']
    cases alloc with
    | true => exact ⟨rfl, Behind.seek ber' (h.ptr ▸ hp.le), h.seek hp, fun _ _ _ => rfl⟩
    | false =>
      rw [map_some, map_some, if_neg Bool.false_ne_true, if_pos rfl]
      have hset : ∀ k, k ≠ p → (ber'.buf.set p 0)[k]? = ber'.buf[k]? := fun k hk => List.getElem?_set_ne (Ne.symm hk)
      refine ⟨rfl, ⟨h.ptr ▸ hp.le, rfl, length_set, fun k hk => hset k ?_⟩, ⟨rfl, h.berEnd, (h.seek hp).tag, ?_, fun k hk => ?_,
        fun hzero => ?_⟩, fun ber'' hber buf => ?_⟩
      · rw [h.ptr] at hk
        omega
      · exact List.length_set.trans h.length
      · exact (hset k (Nat.ne_of_gt hk)).trans (h.ahead k (hp.trans hk))
      · have : p = 0 := hzero
        omega
      · show (Berval.place (p - content.length) content.length).octets ber''.buf = content
        rw [hber.octets_place (show p - content.length + content.length ≤ p by omega)]
        show ((ber'.buf.set p 0).drop (p - content.length)).take content.length = content
        conv_rhs => rw [hcontent]
        refine ext_getElem? fun k => ?_
        simp only [List.getElem?_take, List.getElem?_drop]
        split
        · exact hset _ (by omega)
        · rfl

theorem Same.bound {next next' : BerElement} (h : Same ber ber') (hbehind : Behind ber' next) (hnext : Same next' next)
    (hend : ber.berEnd ≤ ber.buf.length) : next'.berEnd ≤ next'.buf.length := by
  rw [← hnext.berEnd, ← hnext.length, hbehind.berEnd, hbehind.length, h.berEnd, h.length]
  exact hend

theorem getStrings_agrees (n tag : ℕ) (h : Same ber ber') (hend : ber.berEnd ≤ ber.buf.length) (alloc : Bool) :
    Agrees (fun buf vs => vs.map (Berval.octets buf)) ber' (getStrings alloc n tag ber') (getStrings true n tag ber) := by
  induction n generalizing tag ber ber' with
  | zero => exact Agrees.skip h tag [] fun _ _ => rfl
  | succ n ih =>
    rw [getStrings, getStrings]
    rcases (getStringbv_agrees h hend alloc).cases with ⟨hnone, hnone'⟩ | ⟨tag, s, s', next, next', hs, hs', hbehind, hsame, hval⟩
    · rw [hnone, hnone']
      trivial
    · rw [hs, hs', bind_some, bind_some]
      rcases (ih tag hsame (h.bound hbehind hsame hend)).cases with
        ⟨hnone, hnone'⟩ | ⟨tag', ss, ss', last, last', hss, hss', hbehind', hsame', hval'⟩
      · rw [hnone, hnone']
        trivial
      · rw [hss, hss']
        refine ⟨rfl, hbehind.trans hbehind', hsame', fun ber'' hber buf => ?_⟩
        show (s :: ss).map (Berval.octets ber''.buf) = (s' :: ss').map (Berval.octets buf)
        rw [map_cons, map_cons, hval ber'' (hbehind'.trans hber) buf, hval' ber'' hber buf]

theorem countTo_same (last n i : ℕ) (h : Same ber ber') (hend : ber.berEnd ≤ ber.buf.length) :
    (BerElement.countTo last n i ber').1 = (BerElement.countTo last n i ber).1 ∧
      (BerElement.countTo last n i ber').2.ptr = (BerElement.countTo last n i ber).2.ptr := by
  induction n generalizing i ber ber' with
  | zero => exact ⟨rfl, h.ptr⟩
  | succ n ih =>
    rw [BerElement.countTo, BerElement.countTo, h.ptr]
    by_cases hlast : ber.ptr < last
    · rw [if_pos hlast, if_pos hlast]
      rcases skipElement_same h hend with ⟨hnone, hnone'⟩ | ⟨tag, content, p, hsome, hsome', hptr, hlen, -⟩
      · rw [hnone, hnone']
        exact ⟨rfl, h.ptr⟩
      · rw [hsome, hsome']
        exact ih (i + 1) (h.seek (by omega)) hend
    · rw [if_neg hlast, if_neg hlast]
      exact ⟨rfl, h.ptr⟩

theorem getStringbvl_agrees (h : Same ber ber') (hend : ber.berEnd ≤ ber.buf.length) (alloc : Bool) :
    Agrees (fun buf vs => vs.map (Berval.octets buf)) ber' (getStringbvl alloc ber') (getStringbvl true ber) := by
  unfold getStringbvl
  rcases skipTag_same h hend with ⟨hnone, hnone'⟩ | ⟨tag, len, p, hsome, hsome', hptr⟩
  · rw [hnone, hnone']
    trivial
  · have hsame := h.seek hptr
    obtain ⟨hcount, hplace⟩ := countTo_same (p + len) len 0 hsame hend
    rw [hsome, hsome', bind_some, bind_some]
    show Agrees _ ber'
      (if (BerElement.countTo (p + len) len 0 (ber'.seek p)).2.ptr ≠ p + len then none
        else getStrings alloc (BerElement.countTo (p + len) len 0 (ber'.seek p)).1 0 (ber'.seek p))
      (if (BerElement.countTo (p + len) len 0 (ber.seek p)).2.ptr ≠ p + len then none
        else getStrings true (BerElement.countTo (p + len) len 0 (ber.seek p)).1 0 (ber.seek p))
    rw [hcount]
    by_cases hall : (BerElement.countTo (p + len) len 0 (ber.seek p)).2.ptr = p + len
    · rw [if_neg (not_not.mpr hall), if_neg (not_not.mpr (hplace.trans hall))]
      exact (getStrings_agrees _ _ hsame hend alloc).start (Behind.seek ber' (h.ptr ▸ hptr.le))
    · rw [if_pos hall, if_pos (hplace ▸ hall)]
      trivial

theorem skipElement_agrees (h : Same ber ber') (hend : ber.berEnd ≤ ber.buf.length) :
    Agrees (fun buf args => args.map (Arg.settle buf)) ber' (ber'.skipElement.map fun r => (r.1, [], r.2.2))
      (ber.skipElement.map fun r => (r.1, [], r.2.2)) := by
  rcases skipElement_same h hend with ⟨hnone, hnone'⟩ | ⟨tag, content, p, hsome, hsome', hptr, hlen, -⟩
  · rw [hnone, hnone']
    trivial
  · have hp : ber.ptr < p := by omega
    rw [hsome, hsome']
    exact ⟨rfl, Behind.seek ber' (h.ptr ▸ hp.le), h.seek hp, fun _ _ _ => rfl⟩

theorem skipTag_agrees (h : Same ber ber') (hend : ber.berEnd ≤ ber.buf.length) :
    Agrees (fun buf args => args.map (Arg.settle buf)) ber' (ber'.skipTag.map fun r => (r.1, [], r.2.2))
      (ber.skipTag.map fun r => (r.1, [], r.2.2)) := by
  rcases skipTag_same h hend with ⟨hnone, hnone'⟩ | ⟨tag, len, p, hsome, hsome', hptr⟩
  · rw [hnone, hnone']
    trivial
  · rw [hsome, hsome']
    exact ⟨rfl, Behind.seek ber' (h.ptr ▸ hptr.le), h.seek hptr, fun _ _ _ => rfl⟩

theorem getInt_agrees (h : Same ber ber') (hend : ber.berEnd ≤ ber.buf.length) :
    Agrees (fun _ num => num) ber' (getInt ber') (getInt ber) := by
  unfold getInt
  rcases skipElement_same h hend with ⟨hnone, hnone'⟩ | ⟨tag, content, p, hsome, hsome', hptr, hlen, -⟩
  · rw [hnone, hnone']
    trivial
  · have hp : ber.ptr < p := by omega
    rw [hsome, hsome', bind_some, bind_some]
    cases BerElement.decodeInt content with
    | none => trivial
    | some num => exact ⟨rfl, Behind.seek ber' (h.ptr ▸ hp.le), h.seek hp, fun _ _ _ => rfl⟩

theorem vector_copying (next : Option ReadItem) :
    (next.map ReadItem.copying).any (· ∈ vectorItems) = next.any (· ∈ vectorItems) := by
  cases next with
  | none => rfl
  | some item => cases item <;> rfl

theorem open_agrees (h : Same ber ber') (hend : ber.berEnd ≤ ber.buf.length) (rc : ℕ) (vector : Bool) :
    Agrees (fun buf args => args.map (Arg.settle buf)) ber'
      (if vector then some (rc, [], ber') else ber'.skipTag.map fun r => (r.1, [], r.2.2))
      (if vector then some (rc, [], ber) else ber.skipTag.map fun r => (r.1, [], r.2.2)) := by
  cases vector with
  | true => exact Agrees.skip h rc [] fun _ _ => rfl
  | false => exact skipTag_agrees h hend

theorem scanItem_agrees (h : Same ber ber') (hend : ber.berEnd ≤ ber.buf.length) (rc : ℕ) (next : Option ReadItem) (item : ReadItem) :
    Agrees (fun buf args => args.map (Arg.settle buf)) ber' (scanItem ber' rc next item)
      (scanItem ber rc (next.map ReadItem.copying) item.copying) := by
  have hbv : ∀ (buf buf' : List ℕ) (v v' : Berval), v.octets buf = v'.octets buf' →
      [Arg.bv v].map (Arg.settle buf) = [Arg.bv v'].map (Arg.settle buf') := fun buf buf' v v' heq => by
    simp only [map_cons, map_nil, Arg.settle, heq]
  have hbvs : ∀ (buf buf' : List ℕ) (vs vs' : List Berval), vs.map (Berval.octets buf) = vs'.map (Berval.octets buf') →
      [Arg.bvs vs].map (Arg.settle buf) = [Arg.bvs vs'].map (Arg.settle buf') := fun buf buf' vs vs' heq => by
    have hown := congrArg (List.map Berval.own) heq
    simp only [List.map_map] at hown
    simp only [map_cons, map_nil, Arg.settle]
    exact congrArg (fun ss => [Arg.bvs ss]) hown
  have hint : ∀ (buf buf' : List ℕ) (num num' : ℤ), num = num' →
      [Arg.int num].map (Arg.settle buf) = [Arg.int num'].map (Arg.settle buf') := fun buf buf' num num' heq => by
    rw [heq]
    rfl
  cases item with
  | m => exact (getStringbv_agrees h hend false).map (fun v => [Arg.bv v]) hbv
  | M => exact (getStringbvl_agrees h hend false).map (fun vs => [Arg.bvs vs]) hbvs
  | o => exact (getStringbv_agrees h hend true).map (fun v => [Arg.bv v]) hbv
  | W => exact (getStringbvl_agrees h hend true).map (fun vs => [Arg.bvs vs]) hbvs
  | i => exact (getInt_agrees h hend).map (fun num => [Arg.int num]) hint
  | e => exact (getInt_agrees h hend).map (fun num => [Arg.int num]) hint
  | b => exact (getInt_agrees h hend).map (fun num => [Arg.int num]) hint
  | x => exact skipElement_agrees h hend
  | openSeq =>
    show Agrees _ ber' (scanItem ber' rc next .openSeq) (scanItem ber rc (next.map ReadItem.copying) .openSeq)
    rw [scanItem, scanItem, vector_copying]
    exact open_agrees h hend rc (next.any (· ∈ vectorItems))
  | openSet =>
    show Agrees _ ber' (scanItem ber' rc next .openSet) (scanItem ber rc (next.map ReadItem.copying) .openSet)
    rw [scanItem, scanItem, vector_copying]
    exact open_agrees h hend rc (next.any (· ∈ vectorItems))
  | closeSeq => exact Agrees.skip h rc [] fun _ _ => rfl
  | closeSet => exact Agrees.skip h rc [] fun _ _ => rfl

theorem failed_copying (item : ReadItem) : item.copying.failed = item.failed := by
  cases item <;> rfl

theorem reclaim_settle (buf : List ℕ) (args : List Arg) : (args.map (Arg.settle buf)).map Arg.reclaim = args.map Arg.reclaim := by
  rw [List.map_map]
  refine map_congr_left fun arg _ => ?_
  cases arg <;> rfl

/-- Two calls: both fail and leave the same in the arguments, or both read the same. -/
def CallsAgree (ber : BerElement) :
    Except (List Arg) (ℕ × List Arg × BerElement) → Except (List Arg) (ℕ × List Arg × BerElement) → Prop
  | .error args, .error args' => args = args'
  | .ok r, .ok s => Agrees (fun buf args => args.map (Arg.settle buf)) ber (some r) (some s)
  | _, _ => False

theorem scanf_agrees (items : List ReadItem) (rc : ℕ) (h : Same ber ber') (hend : ber.berEnd ≤ ber.buf.length) :
    CallsAgree ber' (scanf ber' rc items) (scanf ber rc (items.map ReadItem.copying)) := by
  induction items generalizing rc ber ber' with
  | nil => exact ⟨rfl, Behind.refl ber', h, fun _ _ _ => rfl⟩
  | cons item items ih =>
    rw [map_cons, scanf, scanf, List.head?_map]
    rcases (scanItem_agrees h hend rc items.head? item).cases with
      ⟨hnone, hnone'⟩ | ⟨tag, args, args', next, next', hsome, hsome', hbehind, hsame, hval⟩
    · rw [hnone, hnone']
      exact (failed_copying item).symm
    · have hrest := ih tag hsame (h.bound hbehind hsame hend)
      rw [hsome, hsome']
      simp only
      cases hr : scanf next tag items with
      | error more =>
        cases hs : scanf next' tag (items.map ReadItem.copying) with
        | error more' =>
          rw [hr, hs] at hrest
          have hargs := congrArg (List.map Arg.reclaim) (hval next (Behind.refl next) next'.buf)
          rw [reclaim_settle, reclaim_settle] at hargs
          show args.map Arg.reclaim ++ more = args'.map Arg.reclaim ++ more'
          rw [hargs, show more = more' from hrest]
        | ok s =>
          rw [hr, hs] at hrest
          exact hrest.elim
      | ok r =>
        cases hs : scanf next' tag (items.map ReadItem.copying) with
        | error more' =>
          rw [hr, hs] at hrest
          exact hrest.elim
        | ok s =>
          rw [hr, hs] at hrest
          obtain ⟨hrc, hbehind', hsame', hval'⟩ := hrest
          refine ⟨hrc, hbehind.trans hbehind', hsame', fun ber'' hber buf => ?_⟩
          have hfirst : args.map (Arg.settle ber''.buf) = args'.map (Arg.settle buf) := hval ber'' (hbehind'.trans hber) buf
          have hlast : r.2.1.map (Arg.settle ber''.buf) = s.2.1.map (Arg.settle buf) := hval' ber'' hber buf
          show (args ++ r.2.1).map (Arg.settle ber''.buf) = (args' ++ s.2.1).map (Arg.settle buf)
          rw [map_append, map_append, hfirst, hlast]

end

/-- Reading strings in place gives what reading them into memory of their own gives, whatever the octets and the items: what is
returned, all that the arguments hold, and the place and the tag from which the next call reads. -/
theorem scanf_copying (ber : BerElement) (items : List ReadItem) (hend : ber.berEnd ≤ ber.buf.length) :
    outcome (scanf ber 0 items) = outcome (scanf ber 0 (items.map ReadItem.copying)) := by
  have hcalls := scanf_agrees items 0 (Same.refl ber) hend
  cases hr : scanf ber 0 items with
  | error args =>
    cases hs : scanf ber 0 (items.map ReadItem.copying) with
    | error args' =>
      rw [hr, hs] at hcalls
      exact congrArg Except.error hcalls
    | ok s =>
      rw [hr, hs] at hcalls
      exact hcalls.elim
  | ok r =>
    cases hs : scanf ber 0 (items.map ReadItem.copying) with
    | error args' =>
      rw [hr, hs] at hcalls
      exact hcalls.elim
    | ok s =>
      rw [hr, hs] at hcalls
      obtain ⟨hrc, -, hsame, hval⟩ := hcalls
      show Except.ok (r.1, r.2.1.map (Arg.settle r.2.2.buf), r.2.2.ptr, r.2.2.tag) =
        Except.ok (s.1, s.2.1.map (Arg.settle s.2.2.buf), s.2.2.ptr, s.2.2.tag)
      have hargs : r.2.1.map (Arg.settle r.2.2.buf) = s.2.1.map (Arg.settle s.2.2.buf) := hval r.2.2 (Behind.refl _) s.2.2.buf
      rw [hargs, show r.1 = s.1 from hrc, hsame.ptr, hsame.tag]

/-- A sequence with a string, a sequence of two strings and an integer, the octet behind the end last. -/
def nestedBuffer : List ℕ := [0x30, 14, 0x04, 1, 97, 0x30, 4, 0x04, 0, 0x04, 0, 0x02, 1, 5, 0x05, 0, 1]

theorem scanf_copying_nested :
    nestedBuffer.length = 17 ∧
      outcome (scanf ⟨nestedBuffer, 0, 16, none, 0, LBER_DEFAULT, false⟩ 0 [.openSeq, .m, .openSet, .M, .closeSet, .i, .x, .closeSeq]) =
        outcome (scanf ⟨nestedBuffer, 0, 16, none, 0, LBER_DEFAULT, false⟩ 0
          [.openSeq, .o, .openSet, .W, .closeSet, .i, .x, .closeSeq]) ∧
      outcome (scanf ⟨nestedBuffer, 0, 16, none, 0, LBER_DEFAULT, false⟩ 0
        [.openSeq, .o, .openSet, .W, .closeSet, .i, .x, .closeSeq]) =
        .ok (5, [.bv (.own [97]), .bvs [.own [], .own []], .int 5], 16, 1) :=
  ⟨rfl, scanf_copying _ [.openSeq, .m, .openSet, .M, .closeSet, .i, .x, .closeSeq] (by decide), by decide +kernel⟩

end InPlace
end Libreldap
end ReOpenLDAP
