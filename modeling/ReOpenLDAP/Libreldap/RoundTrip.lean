import ReOpenLDAP.Libreldap.BerValid
import ReOpenLDAP.Libreldap.Decode

/-!
# Libreldap.RoundTrip

What `ber_printf` wrote is what `ber_scanf` reads.

* `ber_round_trip`  — the buffer is BER, its elements are read back, and nothing is left.
-/

namespace ReOpenLDAP
namespace Libreldap

open Ber Bytes List Option

structure At (ber : BerElement) (left : List ℕ) : Prop where
  rest : ber.rest = left
  saved : ber.ptr = 0 ∨ ber.tag = ber.buf.getD ber.ptr 0
  ptr : ber.ptr ≤ ber.berEnd
  length : ber.berEnd ≤ ber.buf.length

section

variable {ber : BerElement} {left bs content tail : List ℕ} {tag : ℕ} {constructed der : Bool}

theorem At.ptr_add (h : At ber left) : ber.ptr + left.length = ber.berEnd := by
  have hptr := h.ptr
  rw [← h.rest, BerElement.rest, length_drop, length_take, min_eq_left h.length]
  omega

theorem At.seek (h : At ber (bs ++ tail)) {p : ℕ} (hp : p = ber.berEnd - tail.length) : At (ber.seek p) tail := by
  have hadd := h.ptr_add
  rw [length_append] at hadd
  have hp' : p = ber.ptr + bs.length := by omega
  refine ⟨?_, .inr rfl, ?_, h.length⟩
  · have hrest := h.rest
    unfold BerElement.rest at hrest ⊢
    simp only [BerElement.seek]
    rw [hp', ← drop_drop, hrest, drop_left' rfl]
  · simp only [BerElement.seek]
    omega

theorem At.first (h : At ber (tag :: bs)) : (if ber.ptr = 0 then tag else ber.tag) = tag := by
  split
  · rfl
  · rename_i hptr
    rw [h.saved.resolve_left hptr]
    have hadd := h.ptr_add
    rw [length_cons] at hadd
    have hget : ber.rest[0]? = some tag := by rw [h.rest]; rfl
    rw [BerElement.rest, List.getElem?_drop, List.getElem?_take_of_lt (by omega), Nat.add_zero] at hget
    rw [getD_eq_getElem?_getD, hget]
    rfl

theorem moreTag_eq {more : List ℕ} {last : ℕ} (hmore : ∀ b ∈ more, 128 ≤ b ∧ b < 256) (hlast : last < 128) (htag : 0 < tag)
    (hfit : tag * 256 ^ (more.length + 1) + beNat (more ++ [last]) ≤ LBER_DEFAULT) :
    BerElement.moreTag tag (more ++ [last] ++ tail) = some (tag * 256 ^ (more.length + 1) + beNat (more ++ [last]), tail) := by
  induction more generalizing tag with
  | nil =>
    unfold LBER_DEFAULT at hfit
    simp only [length_nil, List.nil_append, beNat_singleton, zero_add, pow_one] at hfit ⊢
    have hmod : (tag * 256 + last) % 2 ^ 64 = tag * 256 + last := Nat.mod_eq_of_lt (by omega)
    rw [singleton_append, BerElement.moreTag]
    simp only [hmod]
    rw [if_pos (by omega)]
  | cons b more ih =>
    have hb := hmore b (by simp)
    have hvalue : tag * 256 ^ ((b :: more).length + 1) + beNat (b :: more ++ [last]) =
        (tag * 256 + b) * 256 ^ (more.length + 1) + beNat (more ++ [last]) := by
      rw [cons_append, beNat_cons, length_append, length_singleton, length_cons, pow_succ 256 (more.length + 1)]
      ring
    rw [hvalue] at hfit ⊢
    have hpow : 256 ≤ 256 ^ (more.length + 1) := by
      rw [pow_succ]
      exact Nat.le_mul_of_pos_left _ (Nat.pow_pos (by omega))
    have hsmall : (tag * 256 + b) * 256 ≤ LBER_DEFAULT :=
      (Nat.mul_le_mul_left _ hpow).trans ((Nat.le_add_right _ _).trans hfit)
    have hsmall' : tag * 256 + b ≤ LBER_DEFAULT / 256 := by
      rw [Nat.le_div_iff_mul_le (by omega)]
      exact hsmall
    have hmod : (tag * 256 + b) % 2 ^ 64 = tag * 256 + b := Nat.mod_eq_of_lt (by unfold LBER_DEFAULT at hsmall; omega)
    rw [cons_append, cons_append, BerElement.moreTag]
    simp only [hmod]
    rw [if_neg (by omega), if_pos hsmall']
    exact ih (fun c hc => hmore c (mem_cons_of_mem _ hc)) (by omega) hfit

theorem tagAndRest_at (h : At ber (be tag ++ tail)) (htag : IsTag constructed tag) (hmax : tag ≤ LBER_DEFAULT) :
    ber.tagAndRest = some (tag, tail) := by
  unfold IsTag at htag
  have hnat := beNat_be tag
  generalize be tag = id at *
  cases id with
  | nil => exact htag.elim
  | cons b more =>
    obtain ⟨-, -, hform⟩ := htag
    unfold BerElement.tagAndRest
    have hrest := h.rest
    rw [cons_append] at hrest h
    rw [hrest]
    simp only [h.first]
    rcases hform with ⟨hlow, rfl⟩ | ⟨hlow, more, last, rfl, hlast, hmore, -⟩
    · rw [beNat_singleton] at hnat
      rw [if_pos hlow, hnat]
      rfl
    · rw [beNat_cons, length_append, length_singleton] at hnat
      rw [if_neg (by omega), moreTag_eq hmore hlast (by omega) (by omega), hnat]

variable {len : List ℕ}

theorem peekLength_eq {n : ℕ} (h : IsLength der n len) (hlen : len.length ≤ 9) :
    BerElement.peekLength (len ++ tail) = some (n, tail) := by
  cases len with
  | nil => exact h.elim
  | cons b bs =>
    rcases h with ⟨hb, rfl, rfl⟩ | ⟨rfl, hne, -, -, hn, -⟩
    · simp [BerElement.peekLength, hb]
    · have hpos := length_pos_of_ne_nil hne
      rw [length_cons] at hlen
      rw [cons_append, BerElement.peekLength, if_neg (by omega), Nat.add_sub_cancel_left,
        if_neg (by rw [length_append]; omega), take_left' rfl, drop_left' rfl, hn]

theorem peekElement_at (h : At ber (be tag ++ len ++ content ++ tail)) (htag : IsTag constructed tag)
    (hmax : tag < LBER_DEFAULT) (hlength : IsLength der content.length len) (hlen : len.length ≤ 9) :
    ber.peekElement = some ⟨tag, content.length, content ++ tail⟩ := by
  unfold BerElement.peekElement
  rw [append_assoc, append_assoc] at h
  rw [tagAndRest_at h htag (by omega), bind_some, if_neg (by simp; omega), peekLength_eq hlength hlen, bind_some,
    if_neg (by simp)]

theorem skipElement_at (h : At ber (be tag ++ len ++ content ++ tail)) (htag : IsTag constructed tag)
    (hmax : tag < LBER_DEFAULT) (hlength : IsLength der content.length len) (hlen : len.length ≤ 9) :
    ∃ p, ber.skipElement = some (tag, content, ber.seek p) ∧ At (ber.seek p) tail := by
  have hadd := h.ptr_add
  simp only [length_append] at hadd
  refine ⟨ber.berEnd - (content ++ tail).length + content.length, ?_, h.seek ?_⟩
  · simp [BerElement.skipElement, peekElement_at h htag hmax hlength hlen]
  · rw [length_append]
    omega

theorem skipTag_at (h : At ber (be tag ++ len ++ content ++ tail)) (htag : IsTag constructed tag)
    (hmax : tag < LBER_DEFAULT) (hlength : IsLength der content.length len) (hlen : len.length ≤ 9) :
    ∃ p, ber.skipTag = some (tag, content.length, ber.seek p) ∧ At (ber.seek p) (content ++ tail) := by
  refine ⟨ber.berEnd - (content ++ tail).length, ?_, ?_⟩
  · simp [BerElement.skipTag, peekElement_at h htag hmax hlength hlen]
  · rw [append_assoc _ content] at h
    exact h.seek rfl

end

def stringScan (item : ScanItem) (ss : List (List ℕ)) : List ScanItem := ss.flatMap fun _ => [.t, item]

def stringValues (tag : ℕ) (ss : List (List ℕ)) : List Scanned := ss.flatMap fun s => [.tag tag, .str s]

def Elem.scan (room : ℕ) : Elem → List ScanItem
  | .b _ => [.t, .b]
  | .e _ => [.t, .e]
  | .i _ => [.t, .i]
  | .n => [.t, .n]
  | .o str => stringScan .o [str]
  | .O bv => stringScan .O bv.toList
  | .s str => stringScan (.s room) [str.1]
  | .v ss => stringScan .a (ss.map (·.1))
  | .V bvs => stringScan .O bvs
  | .W bvs => stringScan .o bvs

def Elem.values (tag : ℕ) : Elem → List Scanned
  | .b boolval => [.tag (tagOr tag LBER_BOOLEAN), .int (if boolval.1 ≠ 0 then -1 else 0)]
  | .e num => [.tag (tagOr tag LBER_ENUMERATED), .int num.1]
  | .i num => [.tag (tagOr tag LBER_INTEGER), .int num.1]
  | .n => [.tag (tagOr tag LBER_NULL), .null]
  | .o str => stringValues (tagOr tag LBER_OCTETSTRING) [str]
  | .O bv => stringValues (tagOr tag LBER_OCTETSTRING) bv.toList
  | .s str => stringValues (tagOr tag LBER_OCTETSTRING) [str.1]
  | .v ss => stringValues (tagOr tag LBER_OCTETSTRING) (ss.map (·.1))
  | .V bvs => stringValues (tagOr tag LBER_OCTETSTRING) bvs
  | .W bvs => stringValues (tagOr tag LBER_OCTETSTRING) bvs

def Fmt.vector : Fmt → Option (ScanItem × List (List ℕ))
  | elem (.v ss) nil => some (.v, ss.map (·.1))
  | elem (.V bvs) nil => some (.V, bvs)
  | elem (.W bvs) nil => some (.W, bvs)
  | _ => none

def Fmt.scan (room : ℕ) : Fmt → List ScanItem
  | nil => []
  | t _ rest => rest.scan room
  | elem e rest => e.scan room ++ rest.scan room
  | seq inner rest =>
    .t :: .openSeq :: ((match inner.vector with | some vector => [vector.1] | none => inner.scan room) ++ .close :: rest.scan room)
  | set inner rest =>
    .t :: .openSet :: ((match inner.vector with | some vector => [vector.1] | none => inner.scan room) ++ .close :: rest.scan room)

def Fmt.values (tag : ℕ) : Fmt → List Scanned
  | nil => []
  | t tag rest => rest.values tag
  | elem e rest => e.values tag ++ rest.values LBER_DEFAULT
  | seq inner rest =>
    .tag (tagOr tag LBER_SEQUENCE) ::
      ((match inner.vector with | some vector => [.strs vector.2] | none => inner.values LBER_DEFAULT) ++ rest.values LBER_DEFAULT)
  | set inner rest =>
    .tag (tagOr tag LBER_SET) ::
      ((match inner.vector with | some vector => [.strs vector.2] | none => inner.values LBER_DEFAULT) ++ rest.values LBER_DEFAULT)

/-- The strings of the items `s`, which are read into buffers. -/
def Fmt.buffered : Fmt → List (List ℕ)
  | nil => []
  | t _ rest => rest.buffered
  | elem (.s str) rest => str.1 :: rest.buffered
  | elem _ rest => rest.buffered
  | seq inner rest => inner.buffered ++ rest.buffered
  | set inner rest => inner.buffered ++ rest.buffered

variable {ber ber' ber'' : BerElement}

def Scans (ber ber' : BerElement) (scan : List ScanItem) (values : List Scanned) : Prop :=
  ∀ items, ber.scanf (scan ++ items) = (ber'.scanf items).map fun r => (values ++ r.1, r.2)

theorem Scans.refl (ber : BerElement) : Scans ber ber [] [] := fun items => by simp

theorem Scans.trans {scan scan' : List ScanItem} {values values' : List Scanned} (h : Scans ber ber' scan values)
    (h' : Scans ber' ber'' scan' values') : Scans ber ber'' (scan ++ scan') (values ++ values') := by
  intro items
  rw [append_assoc, h, h', Option.map_map]
  congr 1
  funext r
  simp

theorem Scans.item {item : ScanItem} {values : List Scanned} (h : ∀ next, ber.scanItem next item = some (values, ber')) :
    Scans ber ber' [item] values := by
  intro items
  rw [singleton_append, BerElement.scanf, h, bind_some]

theorem Scans.cons {item : ScanItem} {scan : List ScanItem} {values values' : List Scanned}
    (h : ∀ next, ber.scanItem next item = some (values, ber')) (h' : Scans ber' ber'' scan values') :
    Scans ber ber'' (item :: scan) (values ++ values') :=
  (Scans.item h).trans h'

/-- Tags that `ber_get_tag` does not take for an error. -/
def TagsBounded (tree : Elements Prim) : Prop := tree.All (fun tag _ => tag < LBER_DEFAULT) (· < LBER_DEFAULT)

structure Readable (der : Bool) (tree : Elements Prim) : Prop where
  valid : TagsValid tree
  bounded : TagsBounded tree
  fits : Fits der tree

section

variable {der : Bool} {tag : ℕ} {v : Prim} {c rest : Elements Prim} {tail : List ℕ}

theorem Readable.prim_rest (h : Readable der (.prim tag v rest)) : Readable der rest := ⟨h.valid.2, h.bounded.2, h.fits.2⟩

theorem Readable.cons_rest (h : Readable der (.cons tag c rest)) : Readable der rest := ⟨h.valid.2.2, h.bounded.2.2, h.fits.2.2⟩

theorem Readable.cons_inner (h : Readable der (.cons tag c rest)) : Readable der c := ⟨h.valid.2.1, h.bounded.2.1, h.fits.2.1⟩

theorem Readable.append {s t : Elements Prim} (h : Readable der (s.append t)) : Readable der s ∧ Readable der t := by
  induction s with
  | nil => exact ⟨⟨trivial, trivial, trivial⟩, h⟩
  | prim tag v rest ih =>
    obtain ⟨hs, ht⟩ := ih h.prim_rest
    exact ⟨⟨⟨h.valid.1, hs.valid⟩, ⟨h.bounded.1, hs.bounded⟩, ⟨h.fits.1, hs.fits⟩⟩, ht⟩
  | cons tag c rest _ ih =>
    obtain ⟨hs, ht⟩ := ih h.cons_rest
    exact ⟨⟨⟨h.valid.1, h.valid.2.1, hs.valid⟩, ⟨h.bounded.1, h.bounded.2.1, hs.bounded⟩, ⟨h.fits.1, h.fits.2.1, hs.fits⟩⟩, ht⟩

theorem read_prim (h : Readable der (.prim tag v rest)) (hat : At ber (octets der (.prim tag v rest) ++ tail)) :
    ber.peekTag = some tag ∧ ∃ ber', ber.skipElement = some (tag, content v, ber') ∧ At ber' (octets der rest ++ tail) := by
  have hfits := h.fits.1
  unfold MAXINT_BERSIZE at hfits
  have hlen := length_lengthOctets_le (n := (content v).length) (by omega)
  unfold SOS_LENLEN at hlen
  rw [octets, append_assoc] at hat
  have hlength := lengthOctets_isLength (n := (content v).length) (by omega) der
  refine ⟨?_, ?_⟩
  · rw [BerElement.peekTag, peekElement_at hat h.valid.1 h.bounded.1 hlength (by omega)]
    rfl
  · obtain ⟨p, hskip, hat'⟩ := skipElement_at hat h.valid.1 h.bounded.1 hlength (by omega)
    exact ⟨_, hskip, hat'⟩

theorem read_cons (h : Readable der (.cons tag c rest)) (hat : At ber (octets der (.cons tag c rest) ++ tail)) :
    ber.peekTag = some tag ∧ ∃ p, ber.skipTag = some (tag, (octets der c).length, ber.seek p) ∧
      At (ber.seek p) (octets der c ++ (octets der rest ++ tail)) := by
  have hlen := @length_seqLengthOctets_le der _ h.fits.1
  unfold SOS_LENLEN at hlen
  have hlength := seqLengthOctets_isLength h.fits.1 der
  rw [octets, append_assoc] at hat
  refine ⟨?_, ?_⟩
  · rw [BerElement.peekTag, peekElement_at hat h.valid.1 h.bounded.1 hlength (by omega)]
    rfl
  · exact skipTag_at hat h.valid.1 h.bounded.1 hlength (by omega)

theorem decodeInt_eq {bs : List ℕ} (h : bs.length ≤ 4) : BerElement.decodeInt bs = some (twos bs) := by
  have hfold : ∀ (bs : List ℕ) (z : ℤ), bs.foldl (fun (netnum : ℤ) (b : ℕ) => netnum * 256 + (b : ℤ)) z =
      z * 256 ^ bs.length + beNat bs := by
    intro bs
    induction bs with
    | nil => simp [beNat]
    | cons b bs ih =>
      intro z
      rw [foldl_cons, ih, length_cons, beNat_cons]
      push_cast
      ring
  unfold BerElement.decodeInt
  rw [if_neg (by omega)]
  cases bs with
  | nil => rfl
  | cons b bs =>
    simp only [hfold, twos, beNat_cons]
    by_cases hb : b < 128
    · rw [if_pos hb, if_pos hb]
      push_cast
      ring_nf
    · rw [if_neg hb, if_neg hb]
      push_cast
      ring_nf

variable {item : ScanItem} {room : ℕ}

theorem scan_prim {value : Scanned} (h : Readable der (.prim tag v rest)) (hat : At ber (octets der (.prim tag v rest) ++ tail))
    (hitem : ∀ ber', ber.skipElement = some (tag, content v, ber') → ∀ next, ber.scanItem next item = some ([value], ber')) :
    ∃ ber', Scans ber ber' [.t, item] [.tag tag, value] ∧ At ber' (octets der rest ++ tail) := by
  obtain ⟨hpeek, ber', hskip, hat'⟩ := read_prim h hat
  have htag : ∀ next, ber.scanItem next .t = some ([.tag tag], ber) := fun next => by simp [BerElement.scanItem, hpeek]
  exact ⟨ber', Scans.cons htag (Scans.item (hitem ber' hskip)), hat'⟩

theorem scan_strings (ss : List (List ℕ)) (h : Readable der (octetStrings tag ss))
    (hat : At ber (octets der (octetStrings tag ss) ++ tail))
    (hitem : ∀ s ∈ ss, ∀ ber ber' : BerElement, ber.skipElement = some (tag, s, ber') → ∀ next,
      ber.scanItem next item = some ([.str s], ber')) :
    ∃ ber', Scans ber ber' (stringScan item ss) (stringValues tag ss) ∧ At ber' tail := by
  induction ss generalizing ber with
  | nil => exact ⟨ber, Scans.refl ber, hat⟩
  | cons s ss ih =>
    obtain ⟨ber₁, hfirst, hat₁⟩ := scan_prim h hat (hitem s (by simp) ber)
    obtain ⟨ber', hrest, hat'⟩ := ih h.prim_rest hat₁ fun s hs => hitem s (by simp [hs])
    exact ⟨ber', hfirst.trans hrest, hat'⟩

theorem getStringbv_octets {s : List ℕ} (hskip : ber.skipElement = some (tag, s, ber')) : ber.getStringbv false = some (s, ber') := by
  simp [BerElement.getStringbv, hskip]

theorem getStringbv_string {s : List ℕ} (hskip : ber.skipElement = some (tag, s, ber')) (hs : 0 ∉ s) :
    ber.getStringbv true = some (s, ber') := by
  rw [BerElement.getStringbv, hskip, bind_some, if_neg]
  exact fun h => hs (dropLast_subset s h.2)

theorem getInt_eq {num : ℤ} (hshort : (content v).length ≤ 4) (htwos : twos (content v) = num)
    (hskip : ber.skipElement = some (tag, content v, ber')) : ber.getInt = some (num, ber') := by
  rw [BerElement.getInt, hskip, bind_some, decodeInt_eq hshort, htwos]
  rfl

theorem scan_elem (e : Elem) (h : Readable der (e.elements tag)) (hat : At ber (octets der (e.elements tag) ++ tail))
    (hroom : ∀ str, e = .s str → str.1.length < room) :
    ∃ ber', Scans ber ber' (e.scan room) (e.values tag) ∧ At ber' tail := by
  have hint : ∀ (num : BerInt) (tag : ℕ) (ber ber' : BerElement), ber.skipElement = some (tag, content (.int num.1), ber') →
      ber.getInt = some (num.1, ber') :=
    fun num _ _ _ => getInt_eq (length_intOctets_le num.1) (intOctets_isContent num true).2.2.1
  cases e with
  | b boolval =>
    refine scan_prim h hat fun ber' hskip next => ?_
    have hnum : twos (content (.bool (boolval.1 ≠ 0))) = if boolval.1 ≠ 0 then -1 else 0 := by
      by_cases hzero : boolval.1 = 0 <;> simp [content, hzero, twos]
    simp [BerElement.scanItem, getInt_eq (by simp [content]) hnum hskip]
  | e num => exact scan_prim h hat fun ber' hskip next => by simp [BerElement.scanItem, hint num _ _ _ hskip]
  | i num => exact scan_prim h hat fun ber' hskip next => by simp [BerElement.scanItem, hint num _ _ _ hskip]
  | n =>
    obtain ⟨hpeek, -⟩ := read_prim h hat
    have hat₀ : At ber (be (tagOr tag LBER_NULL) ++ [0] ++ [] ++ tail) := by
      simpa [Elem.elements, octets, content, lengthOctets_small] using hat
    have hzero : IsLength der ([] : List ℕ).length [0] := .inl ⟨by simp, rfl, rfl⟩
    obtain ⟨p, hskip, hat'⟩ := skipTag_at hat₀ h.valid.1 h.bounded.1 hzero (by simp)
    have htag : ∀ next, ber.scanItem next .t = some ([.tag (tagOr tag LBER_NULL)], ber) := fun next => by
      simp [BerElement.scanItem, hpeek]
    have hnull : ∀ next, ber.scanItem next .n = some ([.null], ber.seek p) := fun next => by
      simp [BerElement.scanItem, BerElement.getNull, hskip]
    exact ⟨_, Scans.cons htag (Scans.item hnull), hat'⟩
  | o str => exact scan_strings _ h hat fun s _ ber ber' hskip next => by simp [BerElement.scanItem, getStringbv_octets hskip]
  | O bv => exact scan_strings _ h hat fun s _ ber ber' hskip next => by simp [BerElement.scanItem, getStringbv_octets hskip]
  | s str =>
    refine scan_strings _ h hat fun s hs ber ber' hskip next => ?_
    have hlen := hroom str rfl
    rw [← List.mem_singleton.mp hs] at hlen
    simp [BerElement.scanItem, BerElement.getStringb, hskip, hlen]
  | v ss =>
    refine scan_strings _ h hat fun s hs ber ber' hskip next => ?_
    obtain ⟨str, -, rfl⟩ := List.mem_map.mp hs
    simp [BerElement.scanItem, getStringbv_string hskip str.2]
  | V bvs => exact scan_strings _ h hat fun s _ ber ber' hskip next => by simp [BerElement.scanItem, getStringbv_octets hskip]
  | W bvs => exact scan_strings _ h hat fun s _ ber ber' hskip next => by simp [BerElement.scanItem, getStringbv_octets hskip]

/-! ## Vectors -/

theorem countTo_eq (ss : List (List ℕ)) {n i last : ℕ} (h : Readable der (octetStrings tag ss))
    (hat : At ber (octets der (octetStrings tag ss) ++ tail)) (hlast : last = ber.berEnd - tail.length) (hn : ss.length ≤ n) :
    ∃ ber', BerElement.countTo last n i ber = (i + ss.length, ber') ∧ At ber' tail ∧ ber'.berEnd = ber.berEnd := by
  have hadd := hat.ptr_add
  rw [length_append] at hadd
  induction ss generalizing ber n i with
  | nil =>
    refine ⟨ber, ?_, hat, rfl⟩
    cases n with
    | zero => rfl
    | succ n =>
      simp only [octetStrings, octets, length_nil] at hadd
      rw [BerElement.countTo, if_neg (by omega)]
      rfl
  | cons s ss ih =>
    obtain ⟨-, ber₁, hskip, hat₁⟩ := read_prim h hat
    obtain ⟨n, rfl⟩ : ∃ m, n = m + 1 := ⟨n - 1, by rw [length_cons] at hn; omega⟩
    have hend : ber₁.berEnd = ber.berEnd := by
      obtain ⟨p, hp, heq⟩ := Option.map_eq_some_iff.mp hskip
      simp only [Prod.mk.injEq] at heq
      obtain ⟨-, -, rfl⟩ := heq
      rfl
    have hadd₁ := hat₁.ptr_add
    rw [length_append] at hadd₁
    have hn' : ss.length ≤ n := Nat.le_of_succ_le_succ hn
    obtain ⟨ber', hcount, hat', hend'⟩ := ih (i := i + 1) h.prim_rest hat₁ (hend ▸ hlast) hn' hadd₁
    have hpos : 0 < (be tag).length := length_pos_of_ne_nil (be_ne_nil tag)
    simp only [octetStrings, octets, length_append] at hadd
    refine ⟨ber', ?_, hat', hend'.trans hend⟩
    rw [BerElement.countTo, if_pos (by omega), hskip]
    simp only
    rw [hcount, length_cons]
    congr 1
    omega

theorem getStrings_eq (ss : List (List ℕ)) {string : Bool} (h : Readable der (octetStrings tag ss))
    (hat : At ber (octets der (octetStrings tag ss) ++ tail)) (hstring : string = true → ∀ s ∈ ss, 0 ∉ s) :
    ∃ ber', BerElement.getStrings string ss.length ber = some (ss, ber') ∧ At ber' tail := by
  induction ss generalizing ber with
  | nil => exact ⟨ber, rfl, hat⟩
  | cons s ss ih =>
    obtain ⟨-, ber₁, hskip, hat₁⟩ := read_prim h hat
    obtain ⟨ber', hrest, hat'⟩ := ih h.prim_rest hat₁ fun hs s hmem => hstring hs s (by simp [hmem])
    have hfirst : ber.getStringbv string = some (s, ber₁) := by
      cases string with
      | true => exact getStringbv_string hskip (hstring rfl s (by simp))
      | false => exact getStringbv_octets hskip
    refine ⟨ber', ?_, hat'⟩
    rw [length_cons, BerElement.getStrings, hfirst, bind_some, hrest]
    rfl

theorem getStringbvl_eq (ss : List (List ℕ)) {string : Bool} {tag' : ℕ} (h : Readable der (.cons tag (octetStrings tag' ss) rest))
    (hat : At ber (octets der (.cons tag (octetStrings tag' ss) rest) ++ tail)) (hstring : string = true → ∀ s ∈ ss, 0 ∉ s) :
    ∃ ber', ber.getStringbvl string = some (ss, ber') ∧ At ber' (octets der rest ++ tail) := by
  obtain ⟨-, p, hskip, hat₁⟩ := read_cons h hat
  have hlong : ∀ ss : List (List ℕ), ss.length ≤ (octets der (octetStrings tag' ss)).length := by
    intro ss
    induction ss with
    | nil => exact Nat.le_refl _
    | cons s ss ih =>
      have hpos : 0 < (be tag').length := length_pos_of_ne_nil (be_ne_nil tag')
      simp only [octetStrings, octets, length_append, length_cons]
      omega
  have hadd := hat₁.ptr_add
  have hlast : (ber.seek p).ptr + (octets der (octetStrings tag' ss)).length =
      (ber.seek p).berEnd - (octets der rest ++ tail).length := by
    rw [length_append] at hadd
    omega
  obtain ⟨ber₂, hcount, hat₂, hend⟩ := @countTo_eq _ _ _ _ ss _ 0 _ h.cons_inner hat₁ hlast (hlong ss)
  obtain ⟨ber', hstrings, hat'⟩ := getStrings_eq ss h.cons_inner hat₁ hstring
  have hadd₂ := hat₂.ptr_add
  refine ⟨ber', ?_, hat'⟩
  rw [BerElement.getStringbvl, hskip, bind_some]
  simp only [hcount]
  rw [if_neg (by omega), Nat.zero_add]
  exact hstrings

theorem vector_eq {inner : Fmt} {ss : List (List ℕ)} (h : inner.vector = some (item, ss)) :
    item ∈ BerElement.vectorItems ∧ inner.tree LBER_DEFAULT = octetStrings LBER_OCTETSTRING ss ∧
      ∃ string : Bool, (string = true → ∀ s ∈ ss, 0 ∉ s) ∧ ∀ (ber : BerElement) (next : Option ScanItem),
        ber.scanItem next item = (ber.getStringbvl string).map fun r => ([.strs r.1], r.2) := by
  unfold Fmt.vector at h
  split at h
  · obtain ⟨rfl, rfl⟩ := Prod.mk.inj (Option.some.inj h)
    refine ⟨by decide, Elements.append_nil _, true, fun _ s hs => ?_, fun _ _ => rfl⟩
    obtain ⟨str, -, rfl⟩ := List.mem_map.mp hs
    exact str.2
  · obtain ⟨rfl, rfl⟩ := Prod.mk.inj (Option.some.inj h)
    exact ⟨by decide, Elements.append_nil _, false, fun h => absurd h (by simp), fun _ _ => rfl⟩
  · obtain ⟨rfl, rfl⟩ := Prod.mk.inj (Option.some.inj h)
    exact ⟨by decide, Elements.append_nil _, false, fun h => absurd h (by simp), fun _ _ => rfl⟩
  · simp at h

theorem head?_scan (fmt : Fmt) (room : ℕ) (items : List ScanItem) (hitems : ∀ item ∈ items.head?, item ∉ BerElement.vectorItems) :
    ∀ item ∈ (fmt.scan room ++ items).head?, item ∉ BerElement.vectorItems := by
  have hstring : ∀ (item : ScanItem) (ss : List (List ℕ)) (items : List ScanItem),
      (∀ item ∈ items.head?, item ∉ BerElement.vectorItems) →
      ∀ x ∈ (stringScan item ss ++ items).head?, x ∉ BerElement.vectorItems := by
    intro item ss items hitems
    cases ss with
    | nil => exact hitems
    | cons s ss =>
      intro x hx
      obtain rfl : ScanItem.t = x := by simpa [stringScan] using hx
      decide
  have htag : ∀ (items : List ScanItem), ∀ x ∈ (ScanItem.t :: items).head?, x ∉ BerElement.vectorItems := by
    intro items x hx
    obtain rfl : ScanItem.t = x := by simpa using hx
    decide
  induction fmt with
  | nil => exact hitems
  | t tag rest ih => exact ih
  | elem e rest ih =>
    rw [Fmt.scan, append_assoc]
    cases e with
    | b boolval => exact htag _
    | e num => exact htag _
    | i num => exact htag _
    | n => exact htag _
    | _ => exact hstring _ _ _ ih
  | seq inner rest _ _ => exact htag _
  | set inner rest _ _ => exact htag _

theorem scan_seqorset (open' : ScanItem) {inner : Fmt}
    (hopen : ∀ (ber : BerElement) (next : Option ScanItem), ber.scanItem next open' =
      if next.any (· ∈ BerElement.vectorItems) then some ([], ber) else ber.skipTag.map fun r => ([], r.2.2))
    (h : Readable der (.cons tag (inner.tree LBER_DEFAULT) rest))
    (hat : At ber (octets der (.cons tag (inner.tree LBER_DEFAULT) rest) ++ tail))
    (hinner : ∀ (ber : BerElement) (tail : List ℕ), At ber (octets der (inner.tree LBER_DEFAULT) ++ tail) →
      ∃ ber', Scans ber ber' (inner.scan room) (inner.values LBER_DEFAULT) ∧ At ber' tail) :
    ∃ ber', Scans ber ber'
        (.t :: open' :: ((match inner.vector with | some vector => [vector.1] | none => inner.scan room) ++ [.close]))
        (.tag tag :: (match inner.vector with | some vector => [.strs vector.2] | none => inner.values LBER_DEFAULT)) ∧
      At ber' (octets der rest ++ tail) := by
  obtain ⟨hpeek, p, hskip, hat₁⟩ := read_cons h hat
  have htag : ∀ next, ber.scanItem next .t = some ([.tag tag], ber) := fun next => by simp [BerElement.scanItem, hpeek]
  cases hvector : inner.vector with
  | some vector =>
    obtain ⟨hitem, htree, string, hstring, hscan⟩ := vector_eq hvector
    rw [htree] at h hat
    obtain ⟨ber', hget, hat'⟩ := getStringbvl_eq vector.2 h hat hstring
    refine ⟨ber', Scans.cons htag fun items => ?_, hat'⟩
    have hclose : ∀ next, ber'.scanItem next .close = some ([], ber') := fun _ => rfl
    simp [BerElement.scanf, hopen, hitem, hscan, hget, hclose, Function.comp_def]
  | none =>
    obtain ⟨ber', hscans, hat'⟩ := hinner _ _ hat₁
    refine ⟨ber', Scans.cons htag fun items => ?_, hat'⟩
    have hhead := head?_scan inner room (.close :: items) (by simp [BerElement.vectorItems])
    have hnext : (inner.scan room ++ .close :: items).head?.any (· ∈ BerElement.vectorItems) = false := by
      cases hh : (inner.scan room ++ .close :: items).head? with
      | none => rfl
      | some item => simpa using hhead item (by rw [hh]; rfl)
    have hall := hscans (.close :: items)
    have hclose : ber'.scanf (.close :: items) = ber'.scanf items := by
      simp [BerElement.scanf, BerElement.scanItem]
    rw [hclose] at hall
    simp only [cons_append, append_assoc, List.nil_append]
    rw [BerElement.scanf, hopen, hnext, hskip]
    simpa using hall

theorem bounded_octetStrings (h : tag < LBER_DEFAULT) (ss : List (List ℕ)) : TagsBounded (octetStrings tag ss) := by
  induction ss with
  | nil => trivial
  | cons s ss ih => exact ⟨h, ih⟩

theorem tagOr_lt {deflt : ℕ} (htag : tag ≤ LBER_DEFAULT) (hdeflt : deflt < LBER_DEFAULT) : tagOr tag deflt < LBER_DEFAULT := by
  unfold tagOr
  split
  · exact hdeflt
  · omega

theorem bounded_tree (fmt : Fmt) (htag : tag ≤ LBER_DEFAULT) : TagsBounded (fmt.tree tag) := by
  induction fmt generalizing tag with
  | nil => trivial
  | t next rest ih => exact ih next.2
  | elem e rest ih =>
    refine Elements.all_append ?_ (ih default_le)
    cases e with
    | b boolval => exact ⟨tagOr_lt htag (by decide), trivial⟩
    | e num => exact ⟨tagOr_lt htag (by decide), trivial⟩
    | i num => exact ⟨tagOr_lt htag (by decide), trivial⟩
    | n => exact ⟨tagOr_lt htag (by decide), trivial⟩
    | _ => exact bounded_octetStrings (tagOr_lt htag (by decide)) _
  | seq inner rest ihinner ihrest => exact ⟨tagOr_lt htag (by decide), ihinner default_le, ihrest default_le⟩
  | set inner rest ihinner ihrest => exact ⟨tagOr_lt htag (by decide), ihinner default_le, ihrest default_le⟩

theorem scan_fmt (fmt : Fmt) (h : Readable der (fmt.tree tag)) (hroom : ∀ s ∈ fmt.buffered, s.length < room)
    (hat : At ber (octets der (fmt.tree tag) ++ tail)) :
    ∃ ber', Scans ber ber' (fmt.scan room) (fmt.values tag) ∧ At ber' tail := by
  induction fmt generalizing tag ber tail with
  | nil => exact ⟨ber, Scans.refl ber, hat⟩
  | t tag rest ih => exact ih h hroom hat
  | elem e rest ih =>
    obtain ⟨he, hr⟩ := h.append
    rw [Fmt.tree, octets_append, append_assoc] at hat
    have hroom' : ∀ s ∈ rest.buffered, s.length < room := fun s hs => hroom s (by cases e <;> simp [Fmt.buffered, hs])
    obtain ⟨ber₁, hscan₁, hat₁⟩ := scan_elem e he hat fun str heq => hroom str.1 (by simp [heq, Fmt.buffered])
    obtain ⟨ber', hscan, hat'⟩ := ih hr hroom' hat₁
    exact ⟨ber', hscan₁.trans hscan, hat'⟩
  | seq inner rest ihinner ihrest =>
    rw [Fmt.tree] at h hat
    have hin : ∀ s ∈ inner.buffered, s.length < room := fun s hs => hroom s (mem_append_left _ hs)
    have hre : ∀ s ∈ rest.buffered, s.length < room := fun s hs => hroom s (mem_append_right _ hs)
    obtain ⟨ber₁, hscan₁, hat₁⟩ := scan_seqorset .openSeq (fun _ _ => rfl) h hat fun _ _ hat =>
      ihinner h.cons_inner hin hat
    obtain ⟨ber', hscan, hat'⟩ := ihrest h.cons_rest hre hat₁
    refine ⟨ber', ?_, hat'⟩
    simpa [Fmt.scan, Fmt.values] using hscan₁.trans hscan
  | set inner rest ihinner ihrest =>
    rw [Fmt.tree] at h hat
    have hin : ∀ s ∈ inner.buffered, s.length < room := fun s hs => hroom s (mem_append_left _ hs)
    have hre : ∀ s ∈ rest.buffered, s.length < room := fun s hs => hroom s (mem_append_right _ hs)
    obtain ⟨ber₁, hscan₁, hat₁⟩ := scan_seqorset .openSet (fun _ _ => rfl) h hat fun _ _ hat =>
      ihinner h.cons_inner hin hat
    obtain ⟨ber', hscan, hat'⟩ := ihrest h.cons_rest hre hat₁
    refine ⟨ber', ?_, hat'⟩
    simpa [Fmt.scan, Fmt.values] using hscan₁.trans hscan

end

/-- Whatever the calls for a format leave, if none fails: the buffer is BER or DER for its elements, each end of a sequence or set
returns the length of its element, and the matching items read everything back. Each element needs identifier octets as its tag. -/
theorem ber_round_trip (memory : Allocator) (der : Bool) (fmt : Fmt) {lengths : List ℕ} {ber : BerElement} {room : ℕ}
    (hput : (BerElement.alloc der).printf memory fmt.items = some (lengths, ber)) (htags : TagsValid (fmt.tree LBER_DEFAULT))
    (hroom : ∀ s ∈ fmt.buffered, s.length < room) :
    ber.sosPtr = none ∧ ber.buf.take ber.ptr = octets der (fmt.tree LBER_DEFAULT) ∧
      Encodes der (fmt.tree LBER_DEFAULT) (ber.buf.take ber.ptr) ∧ lengths = seqLengths der (fmt.tree LBER_DEFAULT) ∧
      ∃ ber', ber.reset.scanf (fmt.scan room) = some (fmt.values LBER_DEFAULT, ber') ∧ ber'.ptr = ber'.berEnd := by
  obtain ⟨⟨hext, hfits⟩, hlengths⟩ := printf_prints fmt (BerElement.ready_alloc der) hput
  have hdone : ber.sosPtr = none := Option.not_isSome_iff_eq_none.mp (by rw [hext.open_iff]; simp [BerElement.alloc])
  have hcursor : ber.cursor = ber.ptr := by simp [BerElement.cursor, hdone]
  have hbuf : ber.buf.take ber.ptr = octets der (fmt.tree LBER_DEFAULT) := by
    have hwritten := hext.written
    rw [BerElement.written, hcursor] at hwritten
    exact hwritten
  have hptr := hext.ready.cursor
  rw [hcursor, ← hext.ready.length] at hptr
  have hat : At ber.reset (octets der (fmt.tree LBER_DEFAULT) ++ []) :=
    ⟨by rw [List.append_nil]; exact hbuf, .inl rfl, Nat.zero_le _, hptr⟩
  obtain ⟨ber', hscans, hat'⟩ := scan_fmt fmt ⟨htags, bounded_tree fmt default_le, hfits⟩ hroom hat
  refine ⟨hdone, hbuf, ?_, hlengths, ber', ?_, hat'.ptr_add⟩
  · rw [hbuf]
    exact encodes_octets htags (ranged_tree fmt _) hfits
  · have hall := hscans []
    rw [List.append_nil] at hall
    simpa [BerElement.scanf] using hall

theorem isTag_of_lt {tag : ℕ} {constructed : Bool} (h : tag < 256) (hform : tag / 32 % 2 = 1 ↔ constructed = true)
    (hlow : tag % 32 ≠ 31) : IsTag constructed tag := by
  rw [IsTag, be_of_lt h]
  exact ⟨h, hform, .inl ⟨hlow, rfl⟩⟩

def nestedFmt : Fmt :=
  .seq (.elem (.i ⟨-129, by decide⟩) (.t ⟨0x9f1f, by decide⟩ (.elem (.O (some [1, 0, 2])) (.seq (.elem (.v [⟨[97], by decide⟩]) .nil)
    .nil)))) (.elem (.b ⟨1, by decide⟩) .nil)

theorem ber_round_trip_nested :
    ∃ lengths ber, (BerElement.alloc true).printf clearingAllocator nestedFmt.items = some (lengths, ber) ∧
      Encodes true (nestedFmt.tree LBER_DEFAULT) (ber.buf.take ber.ptr) ∧ lengths = [5, 17] ∧
      ∃ ber', ber.reset.scanf (nestedFmt.scan 1) = some (nestedFmt.values LBER_DEFAULT, ber') ∧ ber'.ptr = ber'.berEnd := by
  have hsome : ((BerElement.alloc true).printf clearingAllocator nestedFmt.items).isSome = true := by decide +kernel
  obtain ⟨⟨lengths, ber⟩, hput⟩ := Option.isSome_iff_exists.mp hsome
  have hlong : IsTag false 0x9f1f := by
    rw [IsTag, be_of_le (by omega), be_of_lt (by omega)]
    exact ⟨by simp, by simp, .inr ⟨by simp, [], 0x1f, rfl, by simp⟩⟩
  have htags : TagsValid (nestedFmt.tree LBER_DEFAULT) :=
    ⟨isTag_of_lt (by decide) (by decide) (by decide), ⟨isTag_of_lt (by decide) (by decide) (by decide), hlong,
      isTag_of_lt (by decide) (by decide) (by decide), ⟨isTag_of_lt (by decide) (by decide) (by decide), trivial⟩, trivial⟩,
      isTag_of_lt (by decide) (by decide) (by decide), trivial⟩
  obtain ⟨-, -, hencodes, hlengths, hscan⟩ := ber_round_trip clearingAllocator true nestedFmt hput htags
    (show ∀ s ∈ nestedFmt.buffered, s.length < 1 by simp [nestedFmt, Fmt.buffered])
  exact ⟨lengths, ber, hput, hencodes, hlengths.trans (by decide +kernel), hscan⟩

def shortTagFmt : Fmt := .t ⟨0x1f, by decide⟩ (.elem (.i ⟨5, by decide⟩) .nil)

def sequenceTagFmt : Fmt := .t ⟨LBER_SEQUENCE, by decide⟩ (.elem (.i ⟨5, by decide⟩) .nil)

theorem two_le_of_encodes {der : Bool} {tree : Elements Prim} {bs : List ℕ} (h : Encodes der tree bs) (hne : bs ≠ []) :
    2 ≤ bs.length := by
  have hhead : ∀ {tag n : ℕ} {len content more : List ℕ}, IsLength der n len → 2 ≤ (be tag ++ len ++ content ++ more).length := by
    intro tag n len content more hlen
    have htag : 0 < (be tag).length := length_pos_of_ne_nil (be_ne_nil tag)
    have hpos : 0 < len.length := length_pos_of_ne_nil fun h => by
      rw [h] at hlen
      exact hlen
    simp only [length_append]
    omega
  cases tree with
  | nil => exact absurd h hne
  | prim tag v rest =>
    obtain ⟨len, content, more, rfl, -, hlen, -⟩ := h
    exact hhead hlen
  | cons tag c rest =>
    obtain ⟨len, content, more, rfl, -, hlen, -⟩ := h
    exact hhead hlen

theorem sequence_of_octet_not_ber (der : Bool) (tree : Elements Prim) : ¬Encodes der tree [LBER_SEQUENCE, 1, 5] := by
  intro h
  cases tree with
  | nil => exact absurd h (by simp [Encodes])
  | prim tag v rest =>
    obtain ⟨len, content, more, heq, htag, -⟩ := h
    unfold IsTag at htag
    cases hbe : be tag with
    | nil => exact be_ne_nil tag hbe
    | cons b bs =>
      rw [hbe] at heq htag
      obtain ⟨rfl, -⟩ := List.cons.inj heq
      exact absurd htag.2.1 (by decide)
  | cons tag c rest =>
    obtain ⟨len, content, more, heq, htag, hlen, hcontent, -⟩ := h
    unfold IsTag at htag
    cases hbe : be tag with
    | nil => exact be_ne_nil tag hbe
    | cons b bs =>
      rw [hbe] at heq htag
      obtain ⟨rfl, hbehind⟩ := List.cons.inj heq
      obtain rfl : bs = [] := by
        rcases htag.2.2 with ⟨-, hnil⟩ | ⟨hlow, -⟩
        · exact hnil
        · exact absurd hlow (by decide)
      cases len with
      | nil => exact hlen
      | cons l ls =>
        have hlens : [1, 5] = l :: (ls ++ (content ++ more)) := by simpa using hbehind
        obtain ⟨rfl, -⟩ := List.cons.inj hlens
        rcases hlen with ⟨-, hone, rfl⟩ | ⟨hlong, -⟩
        · have hfive : content.length = 1 := hone
          have hne : content ≠ [] := fun h => by simp [h] at hfive
          have := two_le_of_encodes hcontent hne
          omega
        · omega

/-- The first is written and cannot be read back. What is written for the second is not BER. -/
theorem ber_round_trip_wrong_tag :
    (((BerElement.alloc true).printf clearingAllocator shortTagFmt.items).isSome = true ∧
      ((BerElement.alloc true).printf clearingAllocator shortTagFmt.items).bind
        (fun r => r.2.reset.scanf (shortTagFmt.scan 1)) = none) ∧
    ∃ lengths ber, (BerElement.alloc true).printf clearingAllocator sequenceTagFmt.items = some (lengths, ber) ∧
      ∀ tree, ¬Encodes true tree (ber.buf.take ber.ptr) := by
  refine ⟨by decide +kernel, ?_⟩
  have hbuf : ((BerElement.alloc true).printf clearingAllocator sequenceTagFmt.items).map (fun r => r.2.buf.take r.2.ptr) =
      some [LBER_SEQUENCE, 1, 5] := by decide +kernel
  obtain ⟨⟨lengths, ber⟩, hput, hbytes⟩ := Option.map_eq_some_iff.mp hbuf
  refine ⟨lengths, ber, hput, fun tree => ?_⟩
  simp only at hbytes
  rw [hbytes]
  exact sequence_of_octet_not_ber true tree

end Libreldap
end ReOpenLDAP
