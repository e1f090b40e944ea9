import ReOpenLDAP.Libreldap.Encode

/-!
# Libreldap.EncodeTree

What `ber_printf` leaves in the buffer: the elements of the format, in BER or DER.
-/

namespace ReOpenLDAP
namespace Libreldap

open Ber Bytes List Option

def octetStrings (tag : ℕ) : List (List ℕ) → Elements Prim
  | [] => .nil
  | s :: ss => .prim tag (.octets s) (octetStrings tag ss)

def Elem.elements (tag : ℕ) : Elem → Elements Prim
  | .b boolval => .prim (tagOr tag LBER_BOOLEAN) (.bool (boolval.1 ≠ 0)) .nil
  | .e num => .prim (tagOr tag LBER_ENUMERATED) (.int num.1) .nil
  | .i num => .prim (tagOr tag LBER_INTEGER) (.int num.1) .nil
  | .n => .prim (tagOr tag LBER_NULL) .null .nil
  | .o str => octetStrings (tagOr tag LBER_OCTETSTRING) [str]
  | .O bv => octetStrings (tagOr tag LBER_OCTETSTRING) bv.toList
  | .s str => octetStrings (tagOr tag LBER_OCTETSTRING) [str.1]
  | .v ss => octetStrings (tagOr tag LBER_OCTETSTRING) (ss.map (·.1))
  | .V bvs => octetStrings (tagOr tag LBER_OCTETSTRING) bvs
  | .W bvs => octetStrings (tagOr tag LBER_OCTETSTRING) bvs

/-- The elements of a format, when `tag` is the tag for the next one. -/
def Fmt.tree (tag : ℕ) : Fmt → Elements Prim
  | nil => .nil
  | t tag rest => rest.tree tag
  | elem e rest => (e.elements tag).append (rest.tree LBER_DEFAULT)
  | seq inner rest => .cons (tagOr tag LBER_SEQUENCE) (inner.tree LBER_DEFAULT) (rest.tree LBER_DEFAULT)
  | set inner rest => .cons (tagOr tag LBER_SET) (inner.tree LBER_DEFAULT) (rest.tree LBER_DEFAULT)

def Fmt.lastTag (tag : ℕ) : Fmt → ℕ
  | nil => tag
  | t tag rest => rest.lastTag tag
  | elem _ rest => rest.lastTag LBER_DEFAULT
  | seq _ rest => rest.lastTag LBER_DEFAULT
  | set _ rest => rest.lastTag LBER_DEFAULT

def lengthOctets (n : ℕ) : List ℕ := if 0x80 ≤ n then ((be n).length + 0x80) :: be n else be n

def seqLengthOctets (der : Bool) (n : ℕ) : List ℕ := if der then lengthOctets n else 0x84 :: beBytes 4 n

def content : Prim → List ℕ
  | .bool b => [if b then 0xff else 0]
  | .int n => intOctets n
  | .null => []
  | .octets s => s

def octets (der : Bool) : Elements Prim → List ℕ
  | .nil => []
  | .prim tag v rest => be tag ++ lengthOctets (content v).length ++ content v ++ octets der rest
  | .cons tag c rest => be tag ++ seqLengthOctets der (octets der c).length ++ octets der c ++ octets der rest

/-- No contents are longer than `ber_put_ostring` and `ber_put_seqorset` allow. -/
def Fits (der : Bool) : Elements Prim → Prop
  | .nil => True
  | .prim _ v rest => (content v).length ≤ MAXINT_BERSIZE ∧ Fits der rest
  | .cons _ c rest => (octets der c).length ≤ MAXINT_BERSIZE ∧ Fits der c ∧ Fits der rest

def seqLengths (der : Bool) : Elements Prim → List ℕ
  | .nil => []
  | .prim _ _ rest => seqLengths der rest
  | .cons tag c rest => seqLengths der c ++ (octets der (.cons tag c .nil)).length :: seqLengths der rest

section

variable {der : Bool}

theorem octets_append (s t : Elements Prim) : octets der (s.append t) = octets der s ++ octets der t := by
  induction s with
  | nil => rfl
  | prim tag v rest ih => simp [Elements.append, octets, ih]
  | cons tag c rest _ ih => simp [Elements.append, octets, ih]

theorem fits_append {s t : Elements Prim} (hs : Fits der s) (ht : Fits der t) : Fits der (s.append t) := by
  induction s with
  | nil => exact ht
  | prim tag v rest ih => exact ⟨hs.1, ih hs.2⟩
  | cons tag c rest _ ih => exact ⟨hs.1, hs.2.1, ih hs.2.2⟩

theorem seqLengths_append (s t : Elements Prim) : seqLengths der (s.append t) = seqLengths der s ++ seqLengths der t := by
  induction s with
  | nil => rfl
  | prim tag v rest ih => simp [Elements.append, seqLengths, ih]
  | cons tag c rest _ ih => simp [Elements.append, seqLengths, ih]

theorem seqLengths_octetStrings (tag : ℕ) (ss : List (List ℕ)) : seqLengths der (octetStrings tag ss) = [] := by
  induction ss with
  | nil => rfl
  | cons s ss ih => exact ih

theorem seqLengths_elements (tag : ℕ) (e : Elem) : seqLengths der (e.elements tag) = [] := by
  cases e <;> first | rfl | exact seqLengths_octetStrings _ _

end

theorem prepend_eq {n v : ℕ} (hn : 0 < n) (h : v < 256 ^ n) (ptr : List ℕ) : prepend n v ptr = be v ++ ptr := by
  induction n generalizing v ptr with
  | zero => omega
  | succ n ih =>
    rw [prepend]
    by_cases hv : v / 256 = 0
    · rw [if_pos hv, be_of_lt (by omega), Nat.mod_eq_of_lt (by omega)]
      rfl
    · have hpos : 0 < n := by
        rcases Nat.eq_zero_or_pos n with rfl | hpos
        · omega
        · exact hpos
      rw [if_neg hv, ih hpos (by rw [pow_succ] at h; omega), be_of_le (v := v) (by omega), append_assoc]
      rfl

variable {tag len : ℕ}

theorem prependTag_eq (h : tag ≤ LBER_DEFAULT) (ptr : List ℕ) : prependTag ptr tag = be tag ++ ptr := by
  unfold LBER_DEFAULT at h
  exact prepend_eq (by omega) (by omega) ptr

theorem prependLen_eq (h : len < 2 ^ 64) (ptr : List ℕ) : prependLen ptr len = lengthOctets len ++ ptr := by
  rw [prependLen, lengthOctets, prepend_eq (by omega) (by omega)]
  split <;> simp

theorem length_lengthOctets_le {n : ℕ} (h : n < 2 ^ 32) : (lengthOctets n).length ≤ SOS_LENLEN := by
  have hbe := length_be_le (v := n) (n := 4) (by omega) (by omega)
  unfold lengthOctets SOS_LENLEN
  split
  · exact Nat.succ_le_succ hbe
  · omega

theorem lengthOctets_small {n : ℕ} (h : n < 0x80) : lengthOctets n = [n] := by
  rw [lengthOctets, if_neg (by omega), be_of_lt (by omega)]

variable {memory : Allocator} {ber ber' ber'' : BerElement}

/-- `ber'` is `ber` with the octets of elements behind what was written. -/
structure Puts (ber ber' : BerElement) (tree : Elements Prim) : Prop where
  extends_octets : Extends ber ber' (octets ber.der tree)
  fits : Fits ber.der tree

theorem Puts.refl (h : Ready ber) : Puts ber ber .nil := ⟨Extends.refl h, trivial⟩

theorem Puts.trans {s t : Elements Prim} (hs : Puts ber ber' s) (ht : Puts ber' ber'' t) : Puts ber ber'' (s.append t) := by
  obtain ⟨hext, hfits⟩ := ht
  rw [hs.extends_octets.der] at hext hfits
  refine ⟨?_, fits_append hs.fits hfits⟩
  rw [octets_append]
  exact hs.extends_octets.trans hext

theorem tagOr_le {deflt : ℕ} (htag : tag ≤ LBER_DEFAULT) (hdeflt : deflt ≤ LBER_DEFAULT) : tagOr tag deflt ≤ LBER_DEFAULT := by
  unfold tagOr
  split <;> assumption

theorem length_be_tag_le (htag : tag ≤ LBER_DEFAULT) : (be tag).length ≤ 8 := by
  unfold LBER_DEFAULT at htag
  exact length_be_le (by omega) (by omega)

theorem length_intLoop_le (sign n unum : ℕ) (ptr : List ℕ) : (intLoop sign n unum ptr).length ≤ n + ptr.length := by
  induction n generalizing unum ptr with
  | zero => simp [intLoop]
  | succ n ih =>
    rw [intLoop]
    split
    · simp only [length_cons]
      omega
    · refine (ih _ _).trans ?_
      simp only [length_cons]
      omega

theorem length_intOctets_le (num : ℤ) : (intOctets num).length ≤ 4 := by
  unfold intOctets
  split <;> exact length_intLoop_le _ 4 _ []

theorem write_puts {v : Prim} (h : Ready ber) (htag : tag ≤ LBER_DEFAULT) (hlen : (content v).length < 0x80)
    (hwrite : ber.write memory (prependTag ((content v).length :: content v) tag) = some ber') :
    Puts ber ber' (.prim tag v .nil) ∧ ber'.tag = ber.tag := by
  have hoctets : octets ber.der (.prim tag v .nil) = prependTag ((content v).length :: content v) tag := by
    rw [prependTag_eq htag, octets, lengthOctets_small hlen]
    simp [octets]
  have htaglen := length_be_tag_le htag
  obtain ⟨hext, heq⟩ := BerElement.write_ready h (by
    rw [prependTag_eq htag, length_append, length_cons]
    omega) hwrite
  rw [← hoctets] at hext
  exact ⟨⟨hext, ⟨by unfold MAXINT_BERSIZE; omega, trivial⟩⟩, heq⟩

theorem putOstring_puts {str : List ℕ} (h : Ready ber) (htag : tag ≤ LBER_DEFAULT)
    (hput : ber.putOstring memory str tag = some ber') :
    Puts ber ber' (.prim (tagOr tag LBER_OCTETSTRING) (.octets str) .nil) ∧ ber'.tag = ber.tag := by
  unfold BerElement.putOstring at hput
  rw [ite_none_left_eq_some] at hput
  obtain ⟨hmax, hput⟩ := hput
  obtain ⟨ber₁, hhead, hstr⟩ := Option.bind_eq_some_iff.mp hput
  have htag' : tagOr tag LBER_OCTETSTRING ≤ LBER_DEFAULT := tagOr_le htag (by decide)
  have hstrlen : str.length ≤ MAXINT_BERSIZE := Nat.le_of_not_lt hmax
  have hsmall : str.length < 2 ^ 32 := by
    unfold MAXINT_BERSIZE at hstrlen
    omega
  rw [prependTag_eq htag', prependLen_eq (by omega), List.append_nil] at hhead
  have hlenlen := length_lengthOctets_le hsmall
  have htaglen := length_be_tag_le htag'
  obtain ⟨hext₁, heq₁⟩ := BerElement.write_ready h (by
    rw [length_append]
    unfold SOS_LENLEN at hlenlen
    omega) hhead
  obtain ⟨hext₂, heq₂⟩ := BerElement.write_ready hext₁.ready (by omega) hstr
  refine ⟨⟨?_, ⟨hstrlen, trivial⟩⟩, heq₂.trans heq₁⟩
  have := hext₁.trans hext₂
  simpa [octets, content] using this

theorem putAll_puts {ss : List (List ℕ)} (h : Ready ber) (hput : ber.putAll memory ss = some ber') :
    Puts ber ber' (octetStrings (tagOr ber.tag LBER_OCTETSTRING) ss) := by
  induction ss generalizing ber with
  | nil =>
    obtain rfl := Option.some.inj hput
    exact Puts.refl h
  | cons s ss ih =>
    obtain ⟨ber₁, hfirst, hrest⟩ := Option.bind_eq_some_iff.mp hput
    obtain ⟨hputs, htag⟩ := putOstring_puts h h.tag hfirst
    have hputs' := ih hputs.extends_octets.ready hrest
    rw [htag] at hputs'
    exact hputs.trans hputs'

theorem putElem_puts {e : Elem} (h : Ready ber) (hput : ber.putElem memory e = some ber') :
    Puts ber ber' (e.elements ber.tag) := by
  have hshort : ∀ num : ℤ, (content (.int num)).length < 0x80 := fun num => by
    have := length_intOctets_le num
    simp only [content]
    omega
  cases e with
  | b boolval =>
    have hwrite : ber.write memory (prependTag ((content (.bool (boolval.1 ≠ 0))).length :: content (.bool (boolval.1 ≠ 0)))
        (tagOr ber.tag LBER_BOOLEAN)) = some ber' := by
      simpa [content, BerElement.putElem, BerElement.putBoolean] using hput
    exact (write_puts h (tagOr_le h.tag (by decide)) (by simp [content]) hwrite).1
  | e num => exact (write_puts (v := .int num.1) h (tagOr_le h.tag (by decide)) (hshort _) hput).1
  | i num => exact (write_puts (v := .int num.1) h (tagOr_le h.tag (by decide)) (hshort _) hput).1
  | n => exact (write_puts (v := .null) h (tagOr_le h.tag (by decide)) (by simp [content]) hput).1
  | o str => exact (putOstring_puts h h.tag hput).1
  | O bv =>
    cases bv with
    | none =>
      obtain rfl := Option.some.inj hput
      exact Puts.refl h
    | some bv => exact (putOstring_puts h h.tag hput).1
  | s str => exact (putOstring_puts h h.tag hput).1
  | v ss => exact putAll_puts h hput
  | V bvs => exact putAll_puts h hput
  | W bvs => exact putAll_puts h hput

/-! ## Sequences and sets -/

/-- The offset that `ber_start_seqorset` keeps. -/
def outerOffset (ber : BerElement) : ℕ := if ber.sosPtr.isSome then ber.sosInner else 0

/-- `ber'` is `ber` with a sequence or a set open behind what was written. -/
structure Opened (ber ber' : BerElement) (tag : ℕ) : Prop where
  ready : Ready ber'
  written : ber'.written = ber.written ++ (be tag ++ (be tag).length :: leBytes 4 (outerOffset ber))
  isOpen : ber'.sosPtr.isSome = true
  inner : ber'.sosInner = ber.cursor + (be tag).length
  ptr : ber'.ptr = ber.ptr
  der : ber'.der = ber.der
  offset_lt : outerOffset ber < 256 ^ 4

theorem startSeqorset_opened (h : Ready ber) (htag : tag ≤ LBER_DEFAULT)
    (hstart : ber.startSeqorset memory tag = some ber') : Opened ber ber' tag := by
  unfold BerElement.startSeqorset at hstart
  simp only at hstart
  rw [ite_none_left_eq_some] at hstart
  obtain ⟨hbig, hstart⟩ := hstart
  rw [prependTag_eq htag, List.append_nil] at hstart
  obtain ⟨ber₁, hreserve, rfl⟩ := Option.map_eq_some_iff.mp hstart
  have htaglen := length_be_tag_le htag
  obtain ⟨hext, hcursor, hroom, -⟩ := BerElement.reserve_ready h (by unfold SOS_LENLEN; omega) hreserve
  have hlength : (be tag ++ (be tag).length :: leBytes 4 (outerOffset ber)).length = (be tag).length + SOS_LENLEN := by
    simp [SOS_LENLEN]
  have hfit : ber₁.cursor + (be tag ++ (be tag).length :: leBytes 4 (outerOffset ber)).length ≤ ber₁.buf.length := by
    rw [hlength, hext.ready.length]
    exact hroom
  have hpos : 0 < (be tag).length := length_pos_of_ne_nil (be_ne_nil tag)
  refine ⟨⟨?_, hext.ready.bound, hroom, fun _ => ?_, hext.ready.tag⟩, ?_, rfl, ?_, ?_, hext.der, ?_⟩
  · exact (BerElement.length_store hfit).trans hext.ready.length
  · exact Nat.lt_of_lt_of_le hpos (Nat.le_add_left _ _)
  · have htake := BerElement.take_store hfit
    rw [hlength] at htake
    have hwritten := hext.written
    rw [List.append_nil] at hwritten
    rw [← hwritten]
    exact htake
  · exact congrArg (· + (be tag).length) hcursor
  · by_cases hopen : ber.sosPtr.isSome = true
    · exact (hext.ptr hopen).1
    · have hopen' : ber₁.sosPtr.isSome ≠ true := by rwa [hext.open_iff]
      have hnone := Option.not_isSome_iff_eq_none.mp hopen
      have hnone' := Option.not_isSome_iff_eq_none.mp hopen'
      simpa [BerElement.cursor, hnone, hnone'] using hcursor
  · unfold outerOffset
    by_cases hopen : ber.sosPtr.isSome = true
    · rw [if_pos hopen]
      have : ¬2 ^ 32 - 1 < ber.sosInner := fun hlt => hbig ⟨hopen, hlt⟩
      omega
    · rw [if_neg hopen]
      omega

theorem store_mid {a b c octets : List ℕ} (h : b.length = octets.length) :
    BerElement.store (a ++ b ++ c) a.length octets = a ++ octets ++ c := by
  have hdrop : (a ++ b ++ c).drop (a.length + octets.length) = c := by
    rw [← h, ← length_append]
    exact drop_left' rfl
  rw [BerElement.store, hdrop, append_assoc a b c, take_left' rfl]

/-- The length octets take the last of the reserved ones, and what is behind the reserved ones moves up to the tag. -/
def closed (buf : List ℕ) (lenptr xlen : ℕ) (octets : List ℕ) : List ℕ :=
  let unused := SOS_LENLEN - octets.length
  let buf := BerElement.store buf (lenptr + unused) octets
  if unused = 0 then buf else BerElement.store buf lenptr ((buf.drop (lenptr + unused)).take (xlen - unused))

theorem closed_eq {head header inner tail octets : List ℕ} (hheader : header.length = SOS_LENLEN) (hoctets : octets.length ≤ SOS_LENLEN) :
    ∃ tail', closed (head ++ (header ++ inner) ++ tail) head.length (SOS_LENLEN + inner.length) octets =
        head ++ (octets ++ inner) ++ tail' ∧ tail'.length = SOS_LENLEN - octets.length + tail.length := by
  obtain ⟨front, back, rfl, hfront⟩ : ∃ front back, header = front ++ back ∧ front.length = SOS_LENLEN - octets.length :=
    ⟨header.take (SOS_LENLEN - octets.length), header.drop (SOS_LENLEN - octets.length), (take_append_drop _ _).symm, by
      rw [length_take]
      omega⟩
  have hback : back.length = octets.length := by
    rw [length_append] at hheader
    omega
  have hstore : BerElement.store (head ++ (front ++ back ++ inner) ++ tail) (head.length + front.length) octets =
      head ++ front ++ octets ++ (inner ++ tail) := by
    rw [← length_append, ← store_mid hback]
    simp
  unfold closed
  simp only
  rw [← hfront, hstore]
  by_cases hzero : front.length = 0
  · obtain rfl := List.length_eq_zero_iff.mp hzero
    exact ⟨tail, by simp, by simp⟩
  · rw [if_neg hzero]
    have hmoved : ((head ++ front ++ octets ++ (inner ++ tail)).drop (head.length + front.length)).take
        (SOS_LENLEN + inner.length - front.length) = octets ++ inner := by
      rw [append_assoc (head ++ front), drop_left' (length_append), ← append_assoc octets]
      refine take_left' ?_
      rw [length_append]
      omega
    rw [hmoved]
    obtain ⟨used, tail', hused, husedlen⟩ : ∃ used tail', front ++ octets ++ (inner ++ tail) = used ++ tail' ∧
        used.length = (octets ++ inner).length := by
      refine ⟨_, _, (take_append_drop (octets ++ inner).length _).symm, ?_⟩
      rw [length_take]
      simp only [length_append]
      omega
    refine ⟨tail', ?_, ?_⟩
    · have hall : head ++ front ++ octets ++ (inner ++ tail) = head ++ used ++ tail' := by
        rw [append_assoc head used, ← hused]
        simp
      rw [hall, store_mid husedlen]
    · have hlen := congrArg List.length hused
      simp only [length_append] at hlen husedlen ⊢
      omega

theorem length_seqLengthOctets_le {der : Bool} {n : ℕ} (h : n ≤ MAXINT_BERSIZE) : (seqLengthOctets der n).length ≤ SOS_LENLEN := by
  unfold seqLengthOctets
  cases der with
  | true => exact length_lengthOctets_le (by unfold MAXINT_BERSIZE at h; omega)
  | false => simp [SOS_LENLEN]

theorem putSeqorset_eq {head inner tail : List ℕ} {p taglen offset : ℕ} (hp : ber.sosPtr = some p) (hhead : head.length = ber.sosInner)
    (hbuf : ber.buf = head ++ (taglen :: leBytes 4 offset ++ inner) ++ tail) (hcursor : p = head.length + (SOS_LENLEN + inner.length))
    (hoffset : offset < 256 ^ 4) (hput : ber.putSeqorset = some (len, ber')) :
    ∃ tail', inner.length ≤ MAXINT_BERSIZE ∧ len = taglen + (seqLengthOctets ber.der inner.length ++ inner).length ∧
      tail'.length = SOS_LENLEN - (seqLengthOctets ber.der inner.length).length + tail.length ∧
      ber' = { ber with
        buf := head ++ (seqLengthOctets ber.der inner.length ++ inner) ++ tail'
        sosInner := offset
        sosPtr := if offset = 0 then none else some (head ++ (seqLengthOctets ber.der inner.length ++ inner)).length
        ptr := if offset = 0 then (head ++ (seqLengthOctets ber.der inner.length ++ inner)).length else ber.ptr } := by
  have hxlen : p - ber.sosInner = SOS_LENLEN + inner.length := by omega
  have hheader : (ber.buf.drop ber.sosInner).take SOS_LENLEN = taglen :: leBytes 4 offset := by
    rw [hbuf, ← hhead, append_assoc, drop_left' rfl, append_assoc]
    exact take_left' (by simp [SOS_LENLEN])
  unfold BerElement.putSeqorset at hput
  simp only [hp, bind_some, hxlen, hheader] at hput
  rw [ite_none_left_eq_some] at hput
  obtain ⟨hmax, hput⟩ := hput
  have hle : inner.length ≤ MAXINT_BERSIZE := by omega
  have hlt : inner.length < 2 ^ 64 := by
    unfold MAXINT_BERSIZE at hle
    omega
  have hoctets : (if ber.der = true then prependLen [] (SOS_LENLEN + inner.length - SOS_LENLEN)
      else (SOS_LENLEN - 1 + 0x80) :: beBytes 4 (SOS_LENLEN + inner.length - SOS_LENLEN)) = seqLengthOctets ber.der inner.length := by
    rw [Nat.add_sub_cancel_left, prependLen_eq hlt, List.append_nil]
    rfl
  have hback : beNat (List.tail (taglen :: leBytes 4 offset)).reverse = offset := by
    rw [tail_cons, reverse_leBytes, beNat_beBytes hoffset]
  have hoctetslen : (seqLengthOctets ber.der inner.length).length ≤ SOS_LENLEN := length_seqLengthOctets_le hle
  obtain ⟨tail', hclosed, htail⟩ := @closed_eq head (taglen :: leBytes 4 offset) inner tail _ (by simp [SOS_LENLEN])
    hoctetslen
  rw [← hbuf, hhead] at hclosed
  rw [hoctets, hback] at hput
  have hend : ber.sosInner + (SOS_LENLEN + inner.length - (SOS_LENLEN - (seqLengthOctets ber.der inner.length).length)) =
      (head ++ (seqLengthOctets ber.der inner.length ++ inner)).length := by
    simp only [length_append]
    omega
  have hlen : SOS_LENLEN + inner.length - (SOS_LENLEN - (seqLengthOctets ber.der inner.length).length) + taglen =
      taglen + (seqLengthOctets ber.der inner.length ++ inner).length := by
    simp only [length_append]
    omega
  unfold closed at hclosed
  simp only at hclosed
  rw [hclosed, hend, headD_cons, hlen] at hput
  obtain ⟨rfl, rfl⟩ := Prod.mk.inj (Option.some.inj hput)
  exact ⟨tail', hle, rfl, htail, rfl⟩

theorem putSeqorset_puts {ber₁ ber₂ ber₃ : BerElement} {inner : Elements Prim} (h : Ready ber)
    (hopen : Opened ber ber₁ tag) (hinner : Puts ber₁ ber₂ inner) (hput : ber₂.putSeqorset = some (len, ber₃)) :
    Puts ber ber₃ (.cons tag inner .nil) ∧ len = (octets ber.der (.cons tag inner .nil)).length := by
  obtain ⟨hext, hfits⟩ := hinner
  rw [hopen.der] at hext hfits
  obtain ⟨p, hp⟩ := Option.isSome_iff_exists.mp (hext.open_iff.trans hopen.isOpen)
  obtain ⟨hptr, hinner⟩ := hext.ptr hopen.isOpen
  have hcursor : ber₂.cursor = p := by simp [BerElement.cursor, hp]
  have hlenptr : (ber.written ++ be tag).length = ber₂.sosInner := by
    rw [hinner, hopen.inner, length_append, BerElement.length_written h]
  have hwritten : ber₂.written = ber.written ++ be tag ++ ((be tag).length :: leBytes 4 (outerOffset ber) ++ octets ber.der inner) := by
    rw [hext.written, hopen.written]
    simp
  have hbuf : ber₂.buf = ber.written ++ be tag ++ ((be tag).length :: leBytes 4 (outerOffset ber) ++ octets ber.der inner) ++
      ber₂.buf.drop ber₂.cursor := by
    rw [← hwritten, BerElement.written, take_append_drop]
  have hend := BerElement.length_written hext.ready
  rw [hcursor, hwritten, length_append] at hend
  obtain ⟨tail', hmax, hlen, htail, rfl⟩ := putSeqorset_eq hp hlenptr hbuf
    (by rw [← hend]; simp [SOS_LENLEN]; omega) hopen.offset_lt hput
  have hder : ber₂.der = ber.der := hext.der.trans hopen.der
  rw [hder] at hlen htail ⊢
  have hoctets : octets ber.der (.cons tag inner .nil) =
      be tag ++ (seqLengthOctets ber.der (octets ber.der inner).length ++ octets ber.der inner) := by
    simp [octets]
  have hroom : (ber.written ++ be tag ++ (seqLengthOctets ber.der (octets ber.der inner).length ++ octets ber.der inner) ++
      tail').length = ber₂.berEnd := by
    have hseq := @length_seqLengthOctets_le ber.der _ hmax
    rw [← hext.ready.length, hbuf]
    simp only [length_append, htail, length_cons, length_leBytes]
    unfold SOS_LENLEN at hseq ⊢
    omega
  have hready : Ready ber₂ := hext.ready
  have hle : (ber.written ++ be tag ++ (seqLengthOctets ber.der (octets ber.der inner).length ++ octets ber.der inner)).length ≤
      ber₂.berEnd := by
    have := hroom
    simp only [length_append] at this ⊢
    omega
  refine ⟨⟨?_, hmax, hfits, trivial⟩, by rw [hlen, hoctets]; simp only [length_append]⟩
  by_cases hopen' : ber.sosPtr.isSome = true
  · have hoffset : outerOffset ber = ber.sosInner := if_pos hopen'
    have hpos : outerOffset ber ≠ 0 := by
      have := h.inner hopen'
      omega
    simp only [if_neg hpos]
    refine ⟨⟨hroom, hready.bound, hle, fun _ => Nat.pos_of_ne_zero hpos, hready.tag⟩, ?_, ?_, fun _ => ⟨?_, hoffset⟩, rfl⟩
    · rw [hoctets, ← append_assoc ber.written]
      exact take_left' rfl
    · exact hopen'.symm
    · exact hptr.trans hopen.ptr
  · have hzero : outerOffset ber = 0 := if_neg hopen'
    simp only [if_pos hzero]
    refine ⟨⟨hroom, hready.bound, hle, fun h => absurd h (by simp), hready.tag⟩, ?_, ?_, fun h => absurd h hopen', rfl⟩
    · rw [hoctets, ← append_assoc ber.written]
      exact take_left' rfl
    · simpa using hopen'

theorem printf_append (items items' : List Item) (ber : BerElement) :
    ber.printf memory (items ++ items') =
      (ber.printf memory items).bind fun r => (r.2.printf memory items').map fun rs => (r.1 ++ rs.1, rs.2) := by
  induction items generalizing ber with
  | nil => simp [BerElement.printf]
  | cons item items ih =>
    rw [cons_append, BerElement.printf, BerElement.printf]
    cases ber.putItem memory item with
    | none => rfl
    | some r =>
      simp only [bind_some, ih]
      cases r.2.printf memory items with
      | none => rfl
      | some rs =>
        simp only [bind_some, map_some, Option.map_map]
        congr 1
        funext x
        simp

/-- The result of a format: the elements are written, and the sequences and sets return their lengths. -/
structure Prints (ber ber' : BerElement) (lengths : List ℕ) (tree : Elements Prim) : Prop where
  puts : Puts ber ber' tree
  lengths_eq : lengths = seqLengths ber.der tree

theorem Prints.trans {s t : Elements Prim} {ls lt : List ℕ} (hs : Prints ber ber' ls s) (ht : Prints ber' ber'' lt t) :
    Prints ber ber'' (ls ++ lt) (s.append t) := by
  refine ⟨hs.puts.trans ht.puts, ?_⟩
  rw [seqLengths_append, hs.lengths_eq, ht.lengths_eq, hs.puts.extends_octets.der]

theorem Puts.setTag {tree : Elements Prim} (h : Puts ber ber' tree) (htag : tag ≤ LBER_DEFAULT) :
    Puts ber { ber' with tag := tag } tree :=
  ⟨h.extends_octets.setTag htag, h.fits⟩

theorem default_le : LBER_DEFAULT ≤ LBER_DEFAULT := Nat.le_refl _

theorem printf_seqorset {open' : Item} {inner rest : List Item} {innerTree restTree : Elements Prim} {lengths : List ℕ}
    (h : Ready ber) (htag : tag ≤ LBER_DEFAULT)
    (hopen : ber.putItem memory open' = (ber.startSeqorset memory tag).map fun ber => ([], { ber with tag := LBER_DEFAULT }))
    (hinner : ∀ (ber ber' : BerElement) (lengths : List ℕ), Ready ber → ber.tag = LBER_DEFAULT →
      ber.printf memory inner = some (lengths, ber') → Prints ber ber' lengths innerTree)
    (hrest : ∀ (ber ber' : BerElement) (lengths : List ℕ), Ready ber → ber.tag = LBER_DEFAULT →
      ber.printf memory rest = some (lengths, ber') → Prints ber ber' lengths restTree)
    (hprintf : ber.printf memory (open' :: (inner ++ .close :: rest)) = some (lengths, ber')) :
    Prints ber ber' lengths (.cons tag innerTree restTree) := by
  obtain ⟨⟨l₁, ber₁⟩, hfirst, hmore⟩ := Option.bind_eq_some_iff.mp hprintf
  rw [hopen] at hfirst
  obtain ⟨ber₀, hstart, heq⟩ := Option.map_eq_some_iff.mp hfirst
  obtain ⟨rfl, rfl⟩ := Prod.mk.inj heq
  obtain ⟨⟨l₂, ber₂⟩, hboth, heq⟩ := Option.map_eq_some_iff.mp hmore
  obtain ⟨rfl, rfl⟩ := Prod.mk.inj heq
  rw [printf_append] at hboth
  obtain ⟨⟨l₃, ber₃⟩, hin, hbehind⟩ := Option.bind_eq_some_iff.mp hboth
  obtain ⟨⟨l₄, ber₄⟩, hend, heq⟩ := Option.map_eq_some_iff.mp hbehind
  obtain ⟨rfl, rfl⟩ := Prod.mk.inj heq
  obtain ⟨⟨l₅, ber₅⟩, hlast, hend⟩ := Option.bind_eq_some_iff.mp hend
  obtain ⟨⟨len, ber₆⟩, hclose, heq⟩ := Option.map_eq_some_iff.mp hlast
  obtain ⟨rfl, rfl⟩ := Prod.mk.inj heq
  obtain ⟨⟨l₇, ber₇⟩, hrestp, heq⟩ := Option.map_eq_some_iff.mp hend
  obtain ⟨rfl, rfl⟩ := Prod.mk.inj heq
  have hopened := startSeqorset_opened h htag hstart
  have hopened' : Opened ber { ber₀ with tag := LBER_DEFAULT } tag :=
    ⟨⟨hopened.ready.length, hopened.ready.bound, hopened.ready.cursor, hopened.ready.inner, default_le⟩, hopened.written,
      hopened.isOpen, hopened.inner, hopened.ptr, hopened.der, hopened.offset_lt⟩
  have hin' := hinner _ _ _ hopened'.ready rfl hin
  obtain ⟨hputs, hlen⟩ := putSeqorset_puts h hopened' hin'.puts hclose
  have hputs' := hputs.setTag default_le
  have hrest' := hrest _ _ _ hputs'.extends_octets.ready rfl hrestp
  refine ⟨hputs'.trans hrest'.puts, ?_⟩
  rw [seqLengths, hin'.lengths_eq, hrest'.lengths_eq, hlen, hputs'.extends_octets.der, hopened'.der]
  rfl

theorem printf_prints (fmt : Fmt) {lengths : List ℕ} (h : Ready ber) (hprintf : ber.printf memory fmt.items = some (lengths, ber')) :
    Prints ber ber' lengths (fmt.tree ber.tag) := by
  induction fmt generalizing ber ber' lengths with
  | nil =>
    obtain ⟨rfl, rfl⟩ := Prod.mk.inj (Option.some.inj hprintf)
    exact ⟨Puts.refl h, rfl⟩
  | t tag rest ih =>
    obtain ⟨⟨l, ber''⟩, hrest, heq⟩ := Option.map_eq_some_iff.mp hprintf
    obtain ⟨rfl, rfl⟩ := Prod.mk.inj heq
    have hskip : Prints ber { ber with tag := tag.1 } [] .nil := ⟨(Puts.refl h).setTag tag.2, rfl⟩
    exact hskip.trans (ih hskip.puts.extends_octets.ready hrest)
  | elem e rest ih =>
    obtain ⟨⟨l₁, ber₁⟩, hfirst, hmore⟩ := Option.bind_eq_some_iff.mp hprintf
    obtain ⟨ber₂, helem, heq⟩ := Option.map_eq_some_iff.mp hfirst
    obtain ⟨rfl, rfl⟩ := Prod.mk.inj heq
    obtain ⟨⟨l, ber''⟩, hrest, heq⟩ := Option.map_eq_some_iff.mp hmore
    obtain ⟨rfl, rfl⟩ := Prod.mk.inj heq
    have hputs := (putElem_puts h helem).setTag default_le
    exact Prints.trans ⟨hputs, (seqLengths_elements _ e).symm⟩ (ih hputs.extends_octets.ready hrest)
  | seq inner rest ihinner ihrest =>
    refine printf_seqorset h (tagOr_le h.tag (by decide)) rfl ?_ ?_ hprintf
    · exact fun ber ber' lengths h htag hp => htag ▸ ihinner h hp
    · exact fun ber ber' lengths h htag hp => htag ▸ ihrest h hp
  | set inner rest ihinner ihrest =>
    refine printf_seqorset h (tagOr_le h.tag (by decide)) rfl ?_ ?_ hprintf
    · exact fun ber ber' lengths h htag hp => htag ▸ ihinner h hp
    · exact fun ber ber' lengths h htag hp => htag ▸ ihrest h hp

end Libreldap
end ReOpenLDAP
