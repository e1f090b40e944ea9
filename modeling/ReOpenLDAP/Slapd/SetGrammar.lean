import Mathlib.Data.Set.NAry
import ReOpenLDAP.Slapd.SetFilter

/-!
# Slapd.SetGrammar

What a set expression is, and the set that it stands for.

* `tokens`                 — the tokens of a string. A character that begins none is `bad`.
-/

namespace ReOpenLDAP
namespace Slapd
namespace Sets

open Ascii
open BackMdb (dnParent)

inductive Op where
  | union
  | inter
  | concat

def Op.char : Op → Octet
  | .union => ascii '|'
  | .inter => ascii '&'
  | .concat => ascii '+'

def Op.meaning : Op → Set Str → Set Str → Set Str
  | .union, l, r => l ∪ r
  | .inter, l, r => l ∩ r
  | .concat, l, r => Set.image2 (· ++ ·) l r

/-- `slash` is for `->` too. -/
inductive Token where
  | lparen
  | rparen
  | op (o : Op)
  | this
  | user
  | literal (s : Str)
  | slash
  | attr (w : Str) (closure : Bool)
  | parent (n : ℕ)
  | parents
  | bad

/-- The token that begins with `c`, if `c` is no blank, and how many of the characters behind it belong to it. -/
def lexStep (c : Octet) (filter : Str) : Option Token × ℕ :=
  if c = ascii ' ' ∨ c = 9 ∨ c = 10 ∨ c = 13 then (none, 0)
  else if c = ascii '(' then (some .lparen, 0)
  else if c = ascii ')' then (some .rparen, 0)
  else if c = ascii '|' then (some (.op .union), 0)
  else if c = ascii '&' then (some (.op .inter), 0)
  else if c = ascii '+' then (some (.op .concat), 0)
  else if c = ascii '[' then
    let literal := filter.takeWhile (· ≠ ascii ']')
    if literal.length = filter.length then (some .bad, 0) else (some (.literal literal), literal.length + 1)
  else if c = ascii '-' then
    if filter.head? = some (ascii '*') then (some .parents, 1)
    else if isDigit (filter.headD 0) then (some (.parent (number (filter.takeWhile isDigit))), (filter.takeWhile isDigit).length)
    else if filter.head? = some (ascii '>') then (some .slash, 1)
    else (some .bad, 0)
  else if c = ascii '/' then (some .slash, 0)
  else if AD_LEADCHAR c = false then (some .bad, 0)
  else
    let word := c :: wordTail filter
    if word = text "this" then (some .this, word.length - 1)
    else if word = text "user" then (some .user, word.length - 1)
    else if (filter.drop (wordTail filter).length).head? = some (ascii '*') then (some (.attr word true), word.length)
    else (some (.attr word false), word.length - 1)

/-- The first `skip` characters belong to a token before. -/
def lex : (skip : ℕ) → Str → List Token
  | _, [] => []
  | skip + 1, _ :: filter => lex skip filter
  | 0, c :: filter => (lexStep c filter).1.toList ++ lex (lexStep c filter).2 filter

def tokens (fbv : Str) : List Token := lex 0 (fbv.takeWhile (· ≠ 0))

mutual

inductive Term where
  | this
  | user
  | literal (s : Str)
  | paren (e : Expr)
  | attr (t : Term) (w : Str) (closure : Bool)
  | parent (t : Term) (n : ℕ)
  | parents (t : Term)

inductive Expr where
  | term (t : Term)
  | join (l : Expr) (o : Op) (r : Term)

end

mutual

def Term.toks : Term → List Token
  | .this => [.this]
  | .user => [.user]
  | .literal s => [.literal s]
  | .paren e => .lparen :: e.toks ++ [.rparen]
  | .attr t w closure => t.toks ++ [.slash, .attr w closure]
  | .parent t n => t.toks ++ [.slash, .parent n]
  | .parents t => t.toks ++ [.slash, .parents]

def Expr.toks : Expr → List Token
  | .term t => t.toks
  | .join l o r => l.toks ++ .op o :: r.toks

end

mutual

def Term.slots : Term → ℕ
  | .this | .user | .literal _ => 1
  | .paren e => e.slots + 1
  | .attr t _ _ | .parent t _ | .parents t => max t.slots 2

def Expr.slots : Expr → ℕ
  | .term t => t.slots
  | .join l _ r => max l.slots (r.slots + 2)

end

section

variable {δ : Type*} (env : Env δ)

mutual

def Term.Defined : Term → Prop
  | .this | .literal _ => True
  | .user => env.user.isSome
  | .paren e => e.Defined
  | .attr t w _ => t.Defined ∧ (env.bv2ad w).isSome
  | .parent t _ | .parents t => t.Defined

def Expr.Defined : Expr → Prop
  | .term t => t.Defined
  | .join l _ r => l.Defined ∧ r.Defined

end

mutual

def Term.meaning : Term → Set Str
  | .this => {env.target}
  | .user => {x | env.user = some x}
  | .literal s => {s}
  | .paren e => e.meaning
  | .attr t w true => {x | ∃ ad, env.bv2ad w = some ad ∧ ∃ a ∈ t.meaning, Relation.TransGen (env.dir.Step ad) a x}
  | .attr t w false => {x | ∃ ad, env.bv2ad w = some ad ∧ ∃ a ∈ t.meaning, env.dir.Step ad a x}
  | .parent t n => (dnParent^[n]) '' t.meaning
  | .parents t => {x | ∃ a ∈ t.meaning, ∃ k, x = dnParent^[k] a}

def Expr.meaning : Expr → Set Str
  | .term t => t.meaning
  | .join l o r => o.meaning l.meaning r.meaning

end

/-! ## One token after the other -/

def tokenStep : Token → List Slot → Pass (List Slot)
  | .lparen, st => if topIsSet st then .error .error else push (.op (ascii '(')) st
  | .rparen, st => closeParen st
  | .op o, st => operator o.char st
  | .this, st => pushValue env.target st
  | .user, st =>
    match env.user with
    | none => .error .error
    | some user => pushValue user st
  | .literal s, st => pushValue s st
  | .slash, st => if topIsSet st = false then .error .error else push (.op (ascii '/')) st
  | .attr w closure, st => chaseStep env w closure st
  | .parent n, st => if topIsSlash st = false then .error .error else parentStep (toLong n) st
  | .parents, st => if topIsSlash st = false then .error .error else parentsStep st
  | .bad, _ => .error .error

def run : List Token → List Slot → Pass (List Slot)
  | [], st => .ok st
  | t :: ts, st => tokenStep env t st >>= run ts

theorem run_append (ts us : List Token) (st : List Slot) : run env (ts ++ us) st = run env ts st >>= run env us := by
  induction ts generalizing st with
  | nil => rfl
  | cons t ts ih =>
    rw [List.cons_append, run, run]
    cases tokenStep env t st with
    | error stop => rfl
    | ok st => exact ih st

theorem word_step_token (word rest : Str) (st : List Slot) : wordStep env word rest st =
    (if word = text "this" then (tokenStep env .this st).map fun st => (word.length - 1, st)
    else if word = text "user" then (tokenStep env .user st).map fun st => (word.length - 1, st)
    else if rest.head? = some (ascii '*') then (tokenStep env (.attr word true) st).map fun st => (word.length, st)
    else (tokenStep env (.attr word false) st).map fun st => (word.length - 1, st)) := by
  unfold wordStep
  split_ifs with hthis huser hstar
  · rfl
  · rw [tokenStep]
    cases env.user <;> rfl
  · simp only [hstar, decide_true]
    rfl
  · simp only [hstar, decide_false]
    rfl

theorem filter_step_token (c : Octet) (filter : Str) (st : List Slot) : filterStep env c filter st =
    match lexStep c filter with
    | (none, skip) => .ok (skip, st)
    | (some t, skip) => (tokenStep env t st).map fun st => (skip, st) := by
  unfold filterStep lexStep
  by_cases hblank : c = ascii ' ' ∨ c = 9 ∨ c = 10 ∨ c = 13
  · rw [if_pos hblank, if_pos hblank]
  rw [if_neg hblank, if_neg hblank]
  by_cases hopen : c = ascii '('
  · rw [if_pos hopen, if_pos hopen, hopen]
    dsimp only [tokenStep]
    split_ifs <;> rfl
  rw [if_neg hopen, if_neg hopen]
  by_cases hclose : c = ascii ')'
  · rw [if_pos hclose, if_pos hclose]
    rfl
  rw [if_neg hclose, if_neg hclose]
  by_cases hunion : c = ascii '|'
  · rw [if_pos (.inl hunion), if_pos hunion, hunion]
    rfl
  by_cases hinter : c = ascii '&'
  · rw [if_pos (.inr (.inl hinter)), if_neg hunion, if_pos hinter, hinter]
    rfl
  by_cases hconcat : c = ascii '+'
  · rw [if_pos (.inr (.inr hconcat)), if_neg hunion, if_neg hinter, if_pos hconcat, hconcat]
    rfl
  rw [if_neg (by tauto), if_neg hunion, if_neg hinter, if_neg hconcat]
  by_cases hbracket : c = ascii '['
  · rw [if_pos hbracket, if_pos hbracket]
    dsimp only
    split_ifs <;> rfl
  rw [if_neg hbracket, if_neg hbracket]
  by_cases hhyphen : c = ascii '-'
  · simp only [hhyphen, true_and, if_true]
    by_cases hstar : filter.head? = some (ascii '*')
    · cases hslash : topIsSlash st <;> simp [hstar, hslash, tokenStep, ascii] <;> rfl
    simp only [hstar, and_false, if_false]
    by_cases hdigit : isDigit (filter.headD 0) = true
    · have harrow : filter.head? ≠ some (ascii '>') := by
        intro h
        rw [List.headD_eq_head?_getD, h] at hdigit
        revert hdigit
        decide
      simp only [hdigit, and_true, harrow, if_true]
      cases hslash : topIsSlash st <;> simp [tokenStep, hslash, harrow] <;> rfl
    rw [Bool.not_eq_true] at hdigit
    simp only [hdigit, Bool.false_eq_true, and_false, if_false]
    by_cases harrow : filter.head? = some (ascii '>')
    · simp only [harrow, if_true, ne_eq, not_true_eq_false, if_false, tokenStep]
      split_ifs <;> rfl
    · simp only [harrow, if_false, ne_eq, not_false_eq_true, if_true, tokenStep]
      rfl
  rw [if_neg hhyphen, if_neg (fun h => hhyphen h.1), if_neg (fun h => hhyphen h.1), if_neg hhyphen]
  by_cases hslash : c = ascii '/'
  · rw [if_pos hslash, if_pos hslash, hslash]
    dsimp only [tokenStep]
    split_ifs <;> rfl
  rw [if_neg hslash, if_neg hslash]
  by_cases hlead : AD_LEADCHAR c = false
  · rw [if_pos hlead, if_pos hlead]
    rfl
  rw [if_neg hlead, if_neg hlead, word_step_token]
  dsimp only
  split_ifs <;> rfl

theorem filter_loop_tokens (skip : ℕ) (filter : Str) (st : List Slot) :
    filterLoop env skip filter st = run env (lex skip filter) st := by
  induction filter generalizing skip st with
  | nil => cases skip <;> rfl
  | cons c filter ih =>
    cases skip with
    | succ skip => exact ih skip st
    | zero =>
      rw [filterLoop, lex, filter_step_token]
      rcases lexStep c filter with ⟨_ | t, skip⟩
      · exact ih skip st
      · rw [Option.toList_some, List.singleton_append, run]
        dsimp only
        cases tokenStep env t st with
        | error stop => rfl
        | ok st => exact ih skip st

end

end Sets
end Slapd
end ReOpenLDAP
