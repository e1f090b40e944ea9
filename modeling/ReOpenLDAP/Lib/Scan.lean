import ReOpenLDAP.Lib.Ascii

/-!
# Lib.Scan

Comparing the text at a pointer with a word. The text is what is there to be read: the octets from the pointer on, with
the NUL behind them where there is one. A read behind the text has no result.
-/

namespace ReOpenLDAP
namespace Scan

open Ascii

def strncasecmp : List Octet → List Octet → Option Bool
  | _, [] => some true
  | [], _ :: _ => none
  | b :: text, c :: word => if toLower b = toLower c then strncasecmp text word else some false

variable {text word w rest : List Octet}

theorem strncasecmp_eq_true_iff :
    strncasecmp text word = some true ↔ ∃ w rest, text = w ++ rest ∧ CaseEq w word := by
  induction word generalizing text with
  | nil => exact ⟨fun _ => ⟨[], text, rfl, rfl⟩, fun _ => by rw [strncasecmp]⟩
  | cons c word ih =>
    cases text with
    | nil =>
      constructor
      · intro h
        cases h
      · rintro ⟨w, rest, happ, heq⟩
        obtain ⟨rfl, rfl⟩ := List.append_eq_nil_iff.mp happ.symm
        cases heq
    | cons b text =>
      rw [strncasecmp]
      split
      · next hb =>
        rw [ih]
        constructor
        · rintro ⟨w, rest, rfl, heq⟩
          exact ⟨b :: w, rest, rfl, by rw [CaseEq, List.map_cons, List.map_cons, hb, heq]⟩
        · rintro ⟨w, rest, happ, heq⟩
          cases w with
          | nil => cases heq
          | cons b' w =>
            obtain ⟨-, rfl⟩ := List.cons.inj happ
            exact ⟨w, rest, rfl, (List.cons.inj heq).2⟩
      · next hb =>
        constructor
        · intro h
          cases h
        · rintro ⟨w, rest, happ, heq⟩
          cases w with
          | nil => cases heq
          | cons b' w =>
            obtain ⟨rfl, -⟩ := List.cons.inj happ
            exact absurd (List.cons.inj heq).1 hb

theorem strncasecmp_of_length (h : word.length ≤ text.length) : ∃ b, strncasecmp text word = some b := by
  induction word generalizing text with
  | nil => exact ⟨true, by rw [strncasecmp]⟩
  | cons c word ih =>
    cases text with
    | nil => cases h
    | cons b text =>
      rw [strncasecmp]
      split
      · exact ih (Nat.le_of_succ_le_succ h)
      · exact ⟨false, rfl⟩

end Scan
end ReOpenLDAP
