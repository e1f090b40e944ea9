import ReOpenLDAP.Sync.CookieText

/-!
# Sync.CsnShift

`slap_csn_shift`, and the CSNs of the deletes at the end of a present phase.
-/

namespace ReOpenLDAP
namespace Sync

/-- `%06x` and `%06d` of `snprintf`. -/
def pad6 (base n : Nat) : List Char := List.replicate (6 - (Nat.toDigits base n).length) '0' ++ Nat.toDigits base n

def carrySeconds (carry : Int) : List Char → List Char
  | [] => []
  | c :: digits =>
    if carry = 0 then c :: digits
    else
      let d := (c.toNat : Int) + carry
      if d < '0'.toNat then '9' :: carrySeconds (-1) digits
      else if d > '9'.toNat then '0' :: carrySeconds 1 digits
      else Char.ofNat d.toNat :: digits

/-- A field of six digits at `pos` in front of `sep`, and the text behind it. -/
def field (base pos : Nat) (sep : Char) (text : List Char) : Option Nat :=
  let r := strntoi base 0 (text.drop pos)
  if r.2 = text.drop (pos + 6) ∧ r.2.head? = some sep then some r.1 else none

def setField (base pos v : Nat) (text : List Char) : Option (List Char) :=
  if (pad6 base v).length = 6 then some (text.take pos ++ pad6 base v ++ text.drop (pos + 6)) else none

/-- `slap_csn_shift`; none if an `LDAP_ENSURE` fails, or `v` does not fit in an `int`. -/
def slapCsnShift (text : List Char) (delta : Int) : Option (List Char) :=
  if delta = 0 then some text
  else
    (field 16 23 '#' text).bind fun count =>
      let v := (count : Int) + delta
      if 2 ^ 31 ≤ v then none
      else
        let carry := v / 0x1000000
        (setField 16 23 (v % 0x1000000).toNat text).bind fun text =>
          if carry = 0 then some text
          else
            (field 10 15 'Z' text).bind fun usec =>
              let v := (usec : Int) + carry
              -- both loops count up, also the one for a negative number
              let carry := (v / 1000000).natAbs
              (setField 10 15 (v % 1000000).toNat text).map fun text =>
                (carrySeconds carry (text.take 14).reverse).reverse ++ text.drop 14

def deleteCsns (hack : Bool) : Nat → List Char → Option (List (List Char))
  | 0, _ => some []
  | n + 1, csn =>
    (if n ≠ 0 ∧ hack then slapCsnShift csn 1 else some csn).bind fun csn => (deleteCsns hack n csn).map fun queued => csn :: queued

/-- The CSNs that `syncrepl_del_nonpresent` passes to `slap_queue_csn`, for `n` entries and none skipped, with the target `csn`. -/
def nonpresentCsns (righteous : Bool) (n : Nat) (csn : List Char) : Option (List (List Char)) :=
  if righteous ∧ 1 < n then (slapCsnShift csn (1 - n)).bind (deleteCsns true n) else deleteCsns false n csn

structure UpTo (target : List Char) (queued : List (List Char)) : Prop where
  last : queued.getLast? = some target
  next : ∀ i a b, queued[i]? = some a → queued[i + 1]? = some b → slapCsnCompareTs a b = .lt ∧ slapCsnShift a 1 = some b

section

variable {hack : Bool} {n : Nat} {csn target : List Char} {queued : List (List Char)}

theorem deleteCsns_last (h : deleteCsns hack (n + 2) csn = some queued) : ∃ front last, queued = front ++ [last, last] := by
  induction n generalizing csn queued with
  | zero =>
    rw [deleteCsns] at h
    obtain ⟨last, -, h⟩ := Option.bind_eq_some_iff.mp h
    obtain ⟨rest, hrest, rfl⟩ := Option.map_eq_some_iff.mp h
    have hone : deleteCsns hack 1 last = some [last] := by simp [deleteCsns]
    rw [hone] at hrest
    obtain rfl := Option.some.inj hrest
    exact ⟨[], last, rfl⟩
  | succ n ih =>
    rw [deleteCsns] at h
    obtain ⟨csn', -, h⟩ := Option.bind_eq_some_iff.mp h
    obtain ⟨rest, hrest, rfl⟩ := Option.map_eq_some_iff.mp h
    obtain ⟨front, last, rfl⟩ := ih hrest
    exact ⟨csn' :: front, last, rfl⟩

theorem compareTs_self (a : List Char) : slapCsnCompareTs a a = .eq := by
  rw [slapCsnCompareTs, memcmp_eq_eq.mpr rfl, memcmp_eq_eq.mpr rfl]
  rfl

theorem not_upTo_twice {front : List (List Char)} {last : List Char} : ¬ UpTo target (front ++ [last, last]) := by
  intro h
  have hlt := (h.next front.length last last (by simp) (by simp)).1
  rw [compareTs_self] at hlt
  cases hlt

theorem nonpresent_csns_iff (hn : 1 ≤ n) (target : List Char) :
    (∃ queued, nonpresentCsns true n target = some queued ∧ queued.length = n ∧ UpTo target queued) ↔ n = 1 := by
  constructor
  · rintro ⟨queued, h, -, hup⟩
    by_contra hne
    obtain ⟨m, rfl⟩ : ∃ m, n = m + 2 := ⟨n - 2, by omega⟩
    rw [nonpresentCsns, if_pos ⟨rfl, by omega⟩] at h
    obtain ⟨csn, -, h⟩ := Option.bind_eq_some_iff.mp h
    obtain ⟨front, last, rfl⟩ := deleteCsns_last h
    exact not_upTo_twice hup
  · rintro rfl
    refine ⟨[target], by simp [nonpresentCsns, deleteCsns], rfl, rfl, fun i a b _ hb => ?_⟩
    simp at hb

/-- One entry. -/
theorem nonpresent_csns_one : 1 ≤ 1 ∧ ((∃ queued, nonpresentCsns true 1 lowerCsn = some queued ∧ queued.length = 1 ∧ UpTo lowerCsn queued) ↔ 1 = 1) :=
  ⟨le_refl 1, nonpresent_csns_iff (le_refl 1) lowerCsn⟩

def countCsn : List Char := "20200101000001.000000Z#000001#001#000000".toList

/-- Two entries get the same CSN. -/
theorem nonpresent_csns_two : nonpresentCsns true 2 countCsn = some [countCsn, countCsn] ∧ ¬ UpTo countCsn [countCsn, countCsn] :=
  ⟨by decide +kernel, @not_upTo_twice countCsn [] countCsn⟩

end

end Sync
end ReOpenLDAP
