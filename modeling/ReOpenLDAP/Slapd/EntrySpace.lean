import ReOpenLDAP.Libreldap.LdifSpace
import ReOpenLDAP.Slapd.EntryRoundTrip

/-!
# Slapd.EntrySpace

The buffer of `entry2str_wrap`, at every width.

* `entry_text_fits`   — a run of calls stays inside exactly if the lines fit; `ldif_put_wrap` needs a width that is not 1.
-/

namespace ReOpenLDAP
namespace Slapd
namespace EntryText

open Ascii Libreldap

/-- `ecur - ebuf` and `emaxsize`. -/
structure Space where
  used : ℕ
  emaxsize : ℕ
deriving DecidableEq

inductive SpaceFault where
  /-- `emaxsize` would be no `int`. -/
  | int
  /-- A write outside of what is reserved. -/
  | outside
deriving DecidableEq

/-- `MAKE_SPACE` and the line behind it. -/
def putLineInside (registered : List MustB64Encode) (wrap : ℕ) (b : Space) (p : List Octet × List Octet) : Except SpaceFault Space :=
  let n := LDIF_SIZE_NEEDED p.1.length p.2.length
  match makeSpace n b.used b.emaxsize with
  | none => .error .int
  | some emaxsize =>
    match sputWrap registered .value (some p.1) p.2 wrap with
    | none => .error .outside
    | some w => if w.extent ≤ n then .ok ⟨b.used + w.text.length, emaxsize⟩ else .error .outside

variable {δ : Type*} (S : Schema δ) (registered : List MustB64Encode)

/-- `entry2str_wrap`: what `emaxsize` is for the next call. -/
def entryInside (emaxsize : ℕ) (call : Entry δ × UInt64) : Except SpaceFault ℕ := do
  let b ← (entryLines S call.1).foldlM (putLineInside registered call.2.toNat) ⟨0, emaxsize⟩
  match makeSpace 1 b.used b.emaxsize with
  | none => .error .int
  | some emaxsize => .ok emaxsize

def callsInside (calls : List (Entry δ × UInt64)) : Except SpaceFault ℕ := calls.foldlM (entryInside S registered) 0

/-- The largest `emaxsize` that is an `int`. -/
def EMAX : ℕ := 2 ^ 31 - GRABSIZE

/-- The buffer has been grown in steps, and `ecur` is in it. -/
structure Space.Inv (b : Space) : Prop where
  grabbed : GRABSIZE ∣ b.emaxsize
  int : b.emaxsize ≤ EMAX
  used : b.used ≤ b.emaxsize

theorem makeSpace_iff {n used emaxsize : ℕ} (hdvd : GRABSIZE ∣ emaxsize) (hint : emaxsize ≤ EMAX) (hused : used ≤ emaxsize) :
    (used + n ≤ EMAX → ∃ m, makeSpace n used emaxsize = some m ∧ GRABSIZE ∣ m ∧ m ≤ EMAX ∧ used + n ≤ m) ∧
    (EMAX < used + n → makeSpace n used emaxsize = none) := by
  have hmax : EMAX + GRABSIZE = 2 ^ 31 := rfl
  have hgrab : GRABSIZE = 8192 := rfl
  fun_induction makeSpace n used emaxsize with
  | case1 emaxsize hle => exact ⟨fun _ => ⟨emaxsize, rfl, hdvd, hint, hle⟩, fun h => by omega⟩
  | case2 emaxsize hle hcast =>
    refine ⟨fun h => absurd hcast ?_, fun _ => rfl⟩
    -- the buffer is not the largest yet
    have hnext : emaxsize + GRABSIZE < 2 ^ 31 := by omega
    simp only [not_or, not_not, ne_eq]
    exact ⟨castInt_eq (by omega), castInt_eq hnext⟩
  | case3 emaxsize hle hcast ih =>
    simp only [not_or, not_not, ne_eq] at hcast
    have hsteps : 8192 ∣ emaxsize := hdvd
    have hnext : emaxsize + GRABSIZE ≤ EMAX := by
      have hlt : castInt (emaxsize + GRABSIZE) < 2 ^ 31 := by
        unfold castInt
        exact Int.bmod_lt (by norm_num)
      omega
    exact ih (Nat.dvd_add hdvd (Nat.dvd_refl _)) hnext (by omega)

/-- Every line is no longer than what is reserved for it, and that is in an `int`. -/
def LinesFit (registered : List MustB64Encode) (wrap : ℕ) : ℕ → List (List Octet × List Octet) → Prop
  | used, [] => used + 1 ≤ EMAX
  | used, p :: lines =>
    used + LDIF_SIZE_NEEDED p.1.length p.2.length ≤ EMAX ∧
      lineLength wrap p.1.length p.2.length (plainValue registered p.1 p.2) ≤ LDIF_SIZE_NEEDED p.1.length p.2.length ∧
      LinesFit registered wrap (used + lineLength wrap p.1.length p.2.length (plainValue registered p.1 p.2)) lines

def EntryFits (e : Entry δ) (wrap : ℕ) : Prop := LinesFit registered wrap 0 (entryLines S e)

variable {S registered}

theorem linesFit_of_wide {wrap : ℕ} (hwide : wrap = 0 ∨ LDIF_LINE_WIDTH ≤ wrap) {used : ℕ} {lines : List (List Octet × List Octet)}
    (h : used + sizeNeeded lines + 1 ≤ EMAX) : LinesFit registered wrap used lines := by
  induction lines generalizing used with
  | nil =>
    have hnone : sizeNeeded [] = 0 := rfl
    rw [hnone] at h
    exact Nat.le_trans (Nat.add_le_add_right (Nat.le_add_right used 0) 1) h
  | cons p lines ih =>
    rw [sizeNeeded_cons] at h
    have hline := lineLength_le_of_wide hwide p.1.length p.2.length (plainValue registered p.1 p.2)
    have hsize : used + LDIF_SIZE_NEEDED p.1.length p.2.length ≤ EMAX := by omega
    have hrest : used + lineLength wrap p.1.length p.2.length (plainValue registered p.1 p.2) + sizeNeeded lines + 1 ≤ EMAX := by
      omega
    exact ⟨hsize, hline, ih hrest⟩

theorem EMAX_lt : EMAX < 2 ^ 31 := Nat.sub_lt (Nat.two_pow_pos 31) (by decide)

theorem name_lt {used n v : ℕ} (h : used + LDIF_SIZE_NEEDED n v ≤ EMAX) : n < 2 ^ 31 := by
  have hname : n ≤ used + LDIF_SIZE_NEEDED n v := by
    rw [LDIF_SIZE_NEEDED]
    omega
  exact (hname.trans h).trans_lt EMAX_lt

theorem putLineInside_eq {wrap m : ℕ} {b : Space} {p : List Octet × List Octet} {w : Written}
    (hm : makeSpace (LDIF_SIZE_NEEDED p.1.length p.2.length) b.used b.emaxsize = some m)
    (hw : sputWrap registered .value (some p.1) p.2 wrap = some w) : putLineInside registered wrap b p =
      if w.extent ≤ LDIF_SIZE_NEEDED p.1.length p.2.length then .ok ⟨b.used + w.text.length, m⟩ else .error .outside := by
  rw [putLineInside, hm, hw]

theorem putLineInside_spec {wrap : ℕ} {b : Space} (hb : b.Inv) (p : List Octet × List Octet) :
    (b.used + LDIF_SIZE_NEEDED p.1.length p.2.length ≤ EMAX ∧
        lineLength wrap p.1.length p.2.length (plainValue registered p.1 p.2) ≤ LDIF_SIZE_NEEDED p.1.length p.2.length →
      ∃ emaxsize, putLineInside registered wrap b p =
        .ok ⟨b.used + lineLength wrap p.1.length p.2.length (plainValue registered p.1 p.2), emaxsize⟩ ∧
        Space.Inv ⟨b.used + lineLength wrap p.1.length p.2.length (plainValue registered p.1 p.2), emaxsize⟩) ∧
    (¬ (b.used + LDIF_SIZE_NEEDED p.1.length p.2.length ≤ EMAX ∧
        lineLength wrap p.1.length p.2.length (plainValue registered p.1 p.2) ≤ LDIF_SIZE_NEEDED p.1.length p.2.length) →
      ∃ fault, putLineInside registered wrap b p = .error fault) := by
  obtain ⟨hspace, hnone⟩ := @makeSpace_iff (LDIF_SIZE_NEEDED p.1.length p.2.length) _ _ hb.grabbed hb.int hb.used
  by_cases hsize : b.used + LDIF_SIZE_NEEDED p.1.length p.2.length ≤ EMAX
  · obtain ⟨m, hm, hdvd, hint, hle⟩ := hspace hsize
    have hname := name_lt hsize
    obtain ⟨undone, hw⟩ := sputWrap_value registered p.1 p.2 wrap (by omega)
    rw [putLineInside_eq hm hw, extent_sput hw, length_sputWrap_value]
    constructor
    · intro ⟨_, hline⟩
      rw [if_pos hline]
      exact ⟨m, rfl, hdvd, hint, by simp only; omega⟩
    · intro hneg
      rw [if_neg fun hline => hneg ⟨hsize, hline⟩]
      exact ⟨_, rfl⟩
  · refine ⟨fun h => absurd h.1 hsize, fun _ => ⟨.int, ?_⟩⟩
    rw [putLineInside]
    simp only [hnone (by omega)]

theorem putLines_inside {wrap : ℕ} (lines : List (List Octet × List Octet)) {b : Space} (hb : b.Inv) :
    (LinesFit registered wrap b.used lines → ∃ b', lines.foldlM (putLineInside registered wrap) b = .ok b' ∧ b'.Inv ∧ b'.used + 1 ≤ EMAX) ∧
    (¬ LinesFit registered wrap b.used lines → ∀ b', lines.foldlM (putLineInside registered wrap) b = .ok b' → b'.Inv ∧ EMAX < b'.used + 1) := by
  induction lines generalizing b with
  | nil =>
    refine ⟨fun h => ⟨b, rfl, hb, h⟩, fun h b' hb' => ?_⟩
    obtain rfl := Except.ok.inj hb'
    exact ⟨hb, not_le.mp h⟩
  | cons p lines ih =>
    obtain ⟨hok, hbad⟩ := @putLineInside_spec registered wrap b hb p
    rw [List.foldlM_cons]
    by_cases hp : b.used + LDIF_SIZE_NEEDED p.1.length p.2.length ≤ EMAX ∧
        lineLength wrap p.1.length p.2.length (plainValue registered p.1 p.2) ≤ LDIF_SIZE_NEEDED p.1.length p.2.length
    · obtain ⟨m, heq, hinv⟩ := hok hp
      obtain ⟨hrest, hno⟩ := ih hinv
      rw [heq]
      exact ⟨fun h => hrest h.2.2, fun h => hno fun hlines => h ⟨hp.1, hp.2, hlines⟩⟩
    · obtain ⟨fault, heq⟩ := hbad hp
      rw [heq]
      exact ⟨fun h => absurd ⟨h.1, h.2.1⟩ hp, fun _ b' hb' => by cases hb'⟩

theorem entryInside_spec {emaxsize : ℕ} (hdvd : GRABSIZE ∣ emaxsize) (hint : emaxsize ≤ EMAX) (call : Entry δ × UInt64) :
    (EntryFits S registered call.1 call.2.toNat → ∃ m, entryInside S registered emaxsize call = .ok m ∧ GRABSIZE ∣ m ∧ m ≤ EMAX) ∧
    (¬ EntryFits S registered call.1 call.2.toNat → ∃ fault, entryInside S registered emaxsize call = .error fault) := by
  obtain ⟨hok, hbad⟩ := @putLines_inside registered call.2.toNat (entryLines S call.1) ⟨0, emaxsize⟩ ⟨hdvd, hint, Nat.zero_le _⟩
  rw [entryInside]
  constructor
  · intro h
    obtain ⟨b, hb, hinv, hend⟩ := hok h
    obtain ⟨m, hm, hdvd', hint', -⟩ := (@makeSpace_iff 1 _ _ hinv.grabbed hinv.int hinv.used).1 hend
    exact ⟨m, by simp [hb, hm, bind, Except.bind], hdvd', hint'⟩
  · intro h
    cases hb : (entryLines S call.1).foldlM (putLineInside registered call.2.toNat) ⟨0, emaxsize⟩ with
    | error fault => exact ⟨fault, rfl⟩
    | ok b =>
      obtain ⟨hinv, hend⟩ := hbad h b hb
      have hnone := (@makeSpace_iff 1 _ _ hinv.grabbed hinv.int hinv.used).2 hend
      exact ⟨.int, by simp [hnone, bind, Except.bind]⟩

theorem callsInside_iff (calls : List (Entry δ × UInt64)) {emaxsize : ℕ} (hdvd : GRABSIZE ∣ emaxsize) (hint : emaxsize ≤ EMAX) :
    (calls.foldlM (entryInside S registered) emaxsize).isOk = true ↔ ∀ call ∈ calls, EntryFits S registered call.1 call.2.toNat := by
  induction calls generalizing emaxsize with
  | nil => simp [Except.isOk, Except.toBool, pure, Except.pure]
  | cons call calls ih =>
    obtain ⟨hok, hbad⟩ := @entryInside_spec δ S registered emaxsize hdvd hint call
    rw [List.foldlM_cons, List.forall_mem_cons]
    by_cases hcall : EntryFits S registered call.1 call.2.toNat
    · obtain ⟨m, heq, hdvd', hint'⟩ := hok hcall
      rw [heq]
      exact (ih hdvd' hint').trans ⟨fun h => ⟨hcall, h⟩, And.right⟩
    · obtain ⟨fault, heq⟩ := hbad hcall
      rw [heq]
      exact ⟨fun h => absurd h (by simp [Except.isOk, Except.toBool, bind, Except.bind]), fun h => absurd h.1 hcall⟩

variable (S registered)

theorem entry_text_fits :
    (∀ calls : List (Entry δ × UInt64), (callsInside S registered calls).isOk = true ↔
      ∀ call ∈ calls, EntryFits S registered call.1 call.2.toNat) ∧
    (∀ (type : Put) (name : Option Str) (val : Str) (wrap : UInt64), (ldifPutWrap registered type name val wrap).isOk = true ↔
      wrap ≠ 1 ∧ (type = .sep ∨ ∀ s ∈ name, 0 ≤ castInt s.bytes.length)) :=
  ⟨fun calls => callsInside_iff calls (Nat.dvd_zero _) (Nat.zero_le _), ldifPutWrap_isOk registered⟩

/-- Lines of two characters, and a line of one. -/
theorem entry_text_overflows : (callsInside leafSchema defaultMustB64Encode [(leafEntry [], 2)]) = .error .outside ∧
    ldifPutWrap defaultMustB64Encode .value (some ⟨text "cn", by decide⟩) ⟨text "a", by decide⟩ 1 = .error .divisionByZero := by
  have hspace : makeSpace 14 0 0 = some GRABSIZE := by
    rw [makeSpace, if_neg (by decide), if_neg (by decide), makeSpace, if_pos (by decide), Nat.zero_add]
  have hline : putLineInside defaultMustB64Encode 2 ⟨0, 0⟩ (text "dn", text "cn=a") = .error .outside := by
    have hsize : LDIF_SIZE_NEEDED (text "dn").length (text "cn=a").length = 14 := by decide
    rw [putLineInside, hsize]
    simp only [hspace]
    decide
  refine ⟨?_, rfl⟩
  have hlines : entryLines leafSchema (leafEntry []) = [(text "dn", text "cn=a")] := rfl
  simp [callsInside, entryInside, hlines, hline, bind, Except.bind]

theorem linesFit_of_wide_cn : LinesFit [] 78 0 [(text "dn", text "cn=a"), (text "cn", text "a")] :=
  linesFit_of_wide (.inr (by decide)) (by decide)

end EntryText
end Slapd
end ReOpenLDAP
