import ReOpenLDAP.Slapd.SetGrammar

/-!
# Slapd.SetFilterRight

What `slap_set_filter` makes of a string: on one side all expressions, on the other all strings whose parentheses are balanced.
-/

namespace ReOpenLDAP
namespace Slapd
namespace Sets

open Ascii
open BackMdb (dnParent)

variable {δ : Type*} (env : Env δ)

def Is (v : List Str) (S : Set Str) : Prop := ∀ x, x ∈ v ↔ x ∈ S

def Base : List Slot → Prop
  | [] => True
  | .op c :: _ => c = ascii '('
  | .set _ :: _ => False

def Ready (st : List Slot) : Prop := topIsSlash st = false ∧ topIsSet st = false

variable {env} {st : List Slot}

theorem Base.ready (h : Base st) : Ready st := by
  match st, h with
  | [], _ => exact ⟨rfl, rfl⟩
  | .op _ :: _, rfl => exact ⟨rfl, rfl⟩

theorem op_ready (o : Op) (st : List Slot) : Ready (.op o.char :: st) := by
  cases o <;> exact ⟨rfl, rfl⟩

theorem op_ne_paren (o : Op) : o.char ≠ ascii '(' := by
  cases o <;> decide

theorem push_ok {x : Slot} (h : st.length < STACK_SIZE) : push x st = .ok (x :: st) := if_neg (by omega)

theorem join_op (o : Op) {l r : List Str} {L R : Set Str} (hl : Is l L) (hr : Is r R) (st : List Slot) :
    ∃ v, joinTop (.set l :: st) o.char r = .ok v ∧ Is v (o.meaning L R) := by
  cases o with
  | union =>
    refine ⟨_, rfl, fun x => ?_⟩
    rw [mem_setUnion, hl, hr]
    rfl
  | inter =>
    refine ⟨_, rfl, fun x => ?_⟩
    rw [mem_setIntersect, hl, hr]
    rfl
  | concat =>
    refine ⟨_, rfl, fun x => ?_⟩
    rw [mem_setConcat]
    simp only [hl _, hr _, Op.meaning, Set.mem_image2, eq_comm]

theorem close_two (o : Op) (v w : List Str) (st : List Slot) :
    closeParen (.set w :: .op o.char :: .set v :: .op (ascii '(') :: st) =
      joinTop (.set v :: .op (ascii '(') :: st) o.char w >>= fun set => push (.set set) st := if_neg (op_ne_paren o)

theorem operator_one (hbase : Base st) (x : Octet) (v : List Str) :
    operator x (.set v :: st) = push (.set v) st >>= push (.op x) := by
  match st, hbase with
  | [], _ => rfl
  | .op _ :: st, rfl => rfl

theorem operator_two (x : Octet) (o : Op) (v w : List Str) (st : List Slot) : operator x (.set w :: .op o.char :: .set v :: st) =
    joinTop (.set v :: st) o.char w >>= fun set => push (.set set) st >>= push (.op x) := if_neg (op_ne_paren o)

inductive Held (env : Env δ) : Expr → List Slot → Prop where
  | term {t : Term} {v : List Str} (h : Is v (t.meaning env)) : Held env (.term t) [.set v]
  | join {l : Expr} {o : Op} {r : Term} {v w : List Str} (hl : Is v (l.meaning env)) (hr : Is w (r.meaning env)) :
    Held env (.join l o r) [.set w, .op o.char, .set v]

variable {c : List Slot} {e : Expr} {ts : List Token} {b : ℕ}

theorem Held.close (h : Held env e c) {st : List Slot} (hroom : st.length < STACK_SIZE) :
    ∃ v, closeParen (c ++ .op (ascii '(') :: st) = .ok (.set v :: st) ∧ Is v (e.meaning env) := by
  cases h with
  | term h => exact ⟨_, push_ok hroom, h⟩
  | @join l o r v w hl hr =>
    obtain ⟨v', heq, hv'⟩ := join_op o hl hr (.op (ascii '(') :: st)
    refine ⟨v', (close_two o v w st).trans ?_, hv'⟩
    rw [heq]
    exact push_ok hroom

theorem Held.operator (h : Held env e c) (hbase : Base st) (o : Op) (hroom : st.length + 1 < STACK_SIZE) :
    ∃ v, Sets.operator o.char (c ++ st) = .ok (.op o.char :: .set v :: st) ∧ Is v (e.meaning env) := by
  have hpush : ∀ v : List Str, push (.set v) st >>= push (.op o.char) = .ok (.op o.char :: .set v :: st) := by
    intro v
    rw [push_ok (by omega)]
    exact push_ok hroom
  cases h with
  | @term t v h => exact ⟨v, (operator_one hbase o.char v).trans (hpush v), h⟩
  | @join l p r v w hl hr =>
    obtain ⟨v', heq, hv'⟩ := join_op p hl hr st
    refine ⟨v', (operator_two o.char p v w st).trans ?_, hv'⟩
    rw [heq]
    exact hpush v'

theorem Held.finish {e : Expr} {c : List Slot} (h : Held env e c) : ∃ v, Sets.finish c = .ok v ∧ Is v (e.meaning env) := by
  cases h with
  | term h => exact ⟨_, rfl, h⟩
  | @join l o r v w hl hr => exact join_op o hl hr []

theorem run_two {a b : Token} {st st' : List Slot} (h : run env ts st = .ok st') :
    run env (ts ++ [a, b]) st = tokenStep env a st' >>= tokenStep env b := by
  rw [run_append, h]
  have hlast : (run env [b] : List Slot → Pass (List Slot)) = tokenStep env b := by
    funext st
    rw [run]
    cases tokenStep env b st <;> rfl
  calc run env [a, b] st' = tokenStep env a st' >>= run env [b] := rfl
    _ = _ := by rw [hlast]

theorem slash_then {b : Token} {v nset : List Str} {n : ℕ} (hroom : st.length + max n 2 ≤ STACK_SIZE)
    (h : tokenStep env b (.op (ascii '/') :: .set v :: st) = push (.set nset) st) :
    tokenStep env .slash (.set v :: st) >>= tokenStep env b = .ok (.set nset :: st) := by
  have hpush : tokenStep env .slash (.set v :: st) = .ok (.op (ascii '/') :: .set v :: st) := push_ok (by rw [List.length_cons]; omega)
  rw [hpush]
  exact h.trans (push_ok (by omega))

theorem toInt_toLong {n : ℕ} (h : n < 2 ^ 31) : toLong n = n ∧ (toInt n).toNat = n := by
  have hle : n ≤ 2 ^ 63 - 1 := le_trans h.le (by decide)
  have hint : toInt n = n := Int.bmod_eq_of_le (by omega) (by omega)
  exact ⟨Nat.min_eq_left hle, by rw [hint, Int.toNat_natCast]⟩

theorem pushValue_ok (h : Ready st) (v : Str) (hroom : st.length < STACK_SIZE) : pushValue v st = .ok (.set [v] :: st) := by
  unfold pushValue
  rw [if_neg (by simp [h.1, h.2]), push_ok hroom]

theorem attr_step {w : Str} {ad : δ} (had : env.bv2ad w = some ad) (closure : Bool) (v : List Str) (st : List Slot) :
    ∃ nset, tokenStep env (.attr w closure) (.op (ascii '/') :: .set v :: st) = push (.set nset) st ∧
      ∀ t : Term, Is v (t.meaning env) → Is nset ((Term.attr t w closure).meaning env) := by
  have hmeaning : ∃ nset, setChase env.dir ad (chaseRounds env.dir ad v) (some v) closure = some nset ∧
      ∀ t : Term, Is v (t.meaning env) → Is nset ((Term.attr t w closure).meaning env) := by
    cases closure with
    | true =>
      obtain ⟨nset, heq, hmem, -⟩ := chase_closure_reach env.dir ad v (Nat.le_refl _)
      refine ⟨nset, heq, fun t ht x => ?_⟩
      simp only [hmem, Term.meaning, Set.mem_ofPred_eq, had, Option.some.injEq, exists_eq_left', ht _]
    | false =>
      obtain ⟨nset, heq, hmem⟩ := chase_step_found env.dir ad v (chaseRounds env.dir ad v)
      refine ⟨nset, heq, fun t ht x => ?_⟩
      simp only [hmem, Term.meaning, Set.mem_ofPred_eq, had, Option.some.injEq, exists_eq_left', ht _]
  obtain ⟨nset, heq, hmem⟩ := hmeaning
  refine ⟨nset, ?_, hmem⟩
  calc tokenStep env (.attr w closure) (.op (ascii '/') :: .set v :: st) = chaseStep env w closure (.op (ascii '/') :: .set v :: st) := rfl
    _ = push (.set nset) st := by
      unfold chaseStep
      rw [if_neg (by simp [topIsSlash]), had]
      have hchase : setChase env.dir ad (chaseRounds env.dir ad ((some v).getD [])) (some v) closure = some nset := heq
      simp only [List.tail_cons, popArray, bind, Except.bind, hchase]

theorem parents_step (v : List Str) (st : List Slot) :
    ∃ nset, tokenStep env .parents (.op (ascii '/') :: .set v :: st) = push (.set nset) st ∧
      ∀ t : Term, Is v (t.meaning env) → Is nset ((Term.parents t).meaning env) := by
  refine ⟨setParents (some v), rfl, fun t ht x => ?_⟩
  rw [mem_setParents, Term.meaning]
  simp only [ht _, Set.mem_ofPred_eq]

theorem parent_step (n : ℕ) (v : List Str) (st : List Slot) :
    ∃ nset, tokenStep env (.parent n) (.op (ascii '/') :: .set v :: st) = push (.set nset) st ∧
      (n < 2 ^ 31 → ∀ t : Term, Is v (t.meaning env) → Is nset ((Term.parent t n).meaning env)) := by
  have hstep : tokenStep env (.parent n) (.op (ascii '/') :: .set v :: st) = parentStep (toLong n) (.op (ascii '/') :: .set v :: st) := rfl
  rw [hstep]
  by_cases hzero : toLong n = 0
  · refine ⟨v, by rw [hzero]; rfl, fun _ t ht x => ?_⟩
    have hn : n = 0 := by
      rw [toLong] at hzero
      omega
    rw [ht, hn, Term.meaning]
    simp
  · refine ⟨setParent (toInt (toLong n)) (some v), ?_, fun hn t ht x => ?_⟩
    · unfold parentStep
      simp only [List.tail_cons, popArray, bind, Except.bind, hzero, if_false]
    · obtain ⟨hlong, hint⟩ := toInt_toLong hn
      rw [mem_setParent, hlong, hint, Term.meaning]
      simp only [ht _, Set.mem_image, eq_comm]

/-- No level is too large for an `int`. -/
def Small (ts : List Token) : Prop := ∀ n, .parent n ∈ ts → n < 2 ^ 31

theorem Small.of_subset {us : List Token} (h : Small us) (hsub : ∀ t ∈ ts, t ∈ us) : Small ts := fun n hn => h n (hsub _ hn)

mutual

theorem run_term (t : Term) {st : List Slot} (hready : Ready st) (hdef : t.Defined env) (hsmall : Small t.toks)
    (hroom : st.length + t.slots ≤ STACK_SIZE) : ∃ v, run env t.toks st = .ok (.set v :: st) ∧ Is v (t.meaning env) := by
  match t with
  | .this =>
    refine ⟨[env.target], ?_, fun x => List.mem_singleton⟩
    rw [Term.toks, run, tokenStep, pushValue_ok hready env.target hroom]
    rfl
  | .user =>
    rw [Term.Defined] at hdef
    obtain ⟨user, huser⟩ := Option.isSome_iff_exists.mp hdef
    refine ⟨[user], ?_, fun x => ?_⟩
    · rw [Term.toks, run, tokenStep, huser]
      dsimp only
      rw [pushValue_ok hready user hroom]
      rfl
    · rw [List.mem_singleton, Term.meaning, Set.mem_ofPred_eq, huser, Option.some.injEq, eq_comm]
  | .literal s =>
    refine ⟨[s], ?_, fun x => List.mem_singleton⟩
    rw [Term.toks, run, tokenStep, pushValue_ok hready s hroom]
    rfl
  | .paren e =>
    rw [Term.slots] at hroom
    rw [Term.Defined] at hdef
    obtain ⟨c, hrun, hheld⟩ := @run_expr e (.op (ascii '(') :: st) rfl hdef
      (hsmall.of_subset fun t ht => by simp [Term.toks, ht]) (by rw [List.length_cons]; omega)
    have hlt : st.length < STACK_SIZE := by omega
    obtain ⟨v, hclose, hv⟩ := hheld.close hlt
    refine ⟨v, ?_, hv⟩
    have hopen : tokenStep env .lparen st = .ok (.op (ascii '(') :: st) := by
      rw [tokenStep, if_neg (by simp [hready.2]), push_ok (by omega)]
    rw [Term.toks, List.cons_append, run, hopen]
    calc run env (e.toks ++ [.rparen]) (.op (ascii '(') :: st) = run env [.rparen] (c ++ .op (ascii '(') :: st) := by
          rw [run_append, hrun]
          rfl
      _ = .ok (.set v :: st) := by
          rw [run, tokenStep, hclose]
          rfl
  | .attr t w closure =>
    rw [Term.slots] at hroom
    rw [Term.Defined] at hdef
    obtain ⟨ad, had⟩ := Option.isSome_iff_exists.mp hdef.2
    obtain ⟨v, hrun, hv⟩ := run_term t hready hdef.1 (hsmall.of_subset fun t ht => by simp [Term.toks, ht]) (by omega)
    obtain ⟨nset, hstep, hmeaning⟩ := attr_step had closure v st
    refine ⟨nset, ?_, hmeaning t hv⟩
    rw [Term.toks, run_two hrun]
    exact slash_then hroom hstep
  | .parent t n =>
    rw [Term.slots] at hroom
    rw [Term.Defined] at hdef
    obtain ⟨v, hrun, hv⟩ := run_term t hready hdef (hsmall.of_subset fun t ht => by simp [Term.toks, ht]) (by omega)
    obtain ⟨nset, hstep, hmeaning⟩ := @parent_step δ env n v st
    refine ⟨nset, ?_, hmeaning (hsmall n (by simp [Term.toks])) t hv⟩
    rw [Term.toks, run_two hrun]
    exact slash_then hroom hstep
  | .parents t =>
    rw [Term.slots] at hroom
    rw [Term.Defined] at hdef
    obtain ⟨v, hrun, hv⟩ := run_term t hready hdef (hsmall.of_subset fun t ht => by simp [Term.toks, ht]) (by omega)
    obtain ⟨nset, hstep, hmeaning⟩ := @parents_step δ env v st
    refine ⟨nset, ?_, hmeaning t hv⟩
    rw [Term.toks, run_two hrun]
    exact slash_then hroom hstep

theorem run_expr (e : Expr) {st : List Slot} (hbase : Base st) (hdef : e.Defined env) (hsmall : Small e.toks)
    (hroom : st.length + e.slots ≤ STACK_SIZE) : ∃ c, run env e.toks st = .ok (c ++ st) ∧ Held env e c := by
  match e with
  | .term t =>
    obtain ⟨v, hrun, hv⟩ := run_term t hbase.ready hdef hsmall hroom
    exact ⟨[.set v], hrun, .term hv⟩
  | .join l o r =>
    rw [Expr.slots] at hroom
    obtain ⟨c, hrun, hheld⟩ := run_expr l hbase hdef.1 (hsmall.of_subset fun t ht => by simp [Expr.toks, ht]) (by omega)
    obtain ⟨v, hop, hv⟩ := hheld.operator hbase o (by omega)
    obtain ⟨w, hright, hw⟩ := run_term r (op_ready o (.set v :: st)) hdef.2 (hsmall.of_subset fun t ht => by simp [Expr.toks, ht])
      (by rw [List.length_cons, List.length_cons]; omega)
    refine ⟨[.set w, .op o.char, .set v], ?_, .join hv hw⟩
    calc run env (Expr.join l o r).toks st = run env (.op o :: r.toks) (c ++ st) := by
          rw [Expr.toks, run_append, hrun]
          rfl
      _ = run env r.toks (.op o.char :: .set v :: st) := by
          rw [run, tokenStep, hop]
          rfl
      _ = _ := hright

end

/-! ## Between two parentheses -/

/-- What is in front of a term, and what it is on the stack above `b` other slots. -/
inductive Left (env : Env δ) (b : ℕ) : List Token → List Slot → Prop where
  | none : Left env b [] []
  | some {e : Expr} (o : Op) (v : List Str) (hdef : e.Defined env) (hroom : b + e.slots ≤ STACK_SIZE) :
    Left env b (e.toks ++ [.op o]) [.op o.char, .set v]

/-- The tokens of one pair of parentheses so far. If a parenthesis opens behind an arrow, the string is `lost`. -/
inductive Progress (env : Env δ) (b : ℕ) : List Token → List Slot → Prop where
  | left {ts : List Token} {c : List Slot} (h : Left env b ts c) : Progress env b ts c
  | term {ts : List Token} {c : List Slot} {t : Term} (v : List Str) (h : Left env b ts c) (hdef : t.Defined env)
    (hroom : b + c.length + t.slots ≤ STACK_SIZE) : Progress env b (ts ++ t.toks) (.set v :: c)
  | slash {ts : List Token} {c : List Slot} {t : Term} (v : List Str) (h : Left env b ts c) (hdef : t.Defined env)
    (hroom : b + c.length + max t.slots 2 ≤ STACK_SIZE) : Progress env b (ts ++ t.toks ++ [.slash]) (.op (ascii '/') :: .set v :: c)
  | lost (ts : List Token) (v w : List Str) (c : List Slot) : Progress env b ts (.set w :: .op (ascii '/') :: .set v :: c)
  | lostSlash (ts : List Token) (v w : List Str) (c : List Slot) :
    Progress env b ts (.op (ascii '/') :: .set w :: .op (ascii '/') :: .set v :: c)

def Goes (env : Env δ) (st : List Slot) (ts : List Token) (res : Pass (List Slot)) : Prop :=
  res = .error .error ∨ ∃ c, res = .ok (c ++ st) ∧ Progress env st.length ts c

theorem push_cases (x : Slot) (st : List Slot) : push x st = .error .error ∨ (st.length < STACK_SIZE ∧ push x st = .ok (x :: st)) := by
  by_cases h : st.length < STACK_SIZE
  · exact .inr ⟨h, push_ok h⟩
  · exact .inl (if_pos (by omega))

theorem Left.ready (h : Left env st.length ts c) (hbase : Base st) : Ready (c ++ st) := by
  cases h with
  | none => exact hbase.ready
  | some o v => exact op_ready o _

theorem value_goes (hbase : Base st) (hp : Progress env st.length ts c) (v : Str) {t : Term}
    (hdef : t.Defined env) (hslots : t.slots = 1) : Goes env st (ts ++ t.toks) (pushValue v (c ++ st)) := by
  have herror : ∀ st : List Slot, (topIsSlash st = true ∨ topIsSet st = true) → pushValue v st = .error .error := fun st h => if_pos h
  cases hp with
  | left h =>
    have hready := h.ready hbase
    rcases push_cases (.set [v]) (c ++ st) with hpush | ⟨hroom, hpush⟩
    · exact .inl (by rw [pushValue, if_neg (by simp [hready.1, hready.2]), hpush])
    · refine .inr ⟨.set [v] :: c, by rw [pushValue, if_neg (by simp [hready.1, hready.2]), hpush]; rfl, .term [v] h hdef ?_⟩
      rw [List.length_append] at hroom
      omega
  | term w h => exact .inl (herror _ (.inr rfl))
  | slash w h => exact .inl (herror _ (.inl rfl))
  | lost => exact .inl (herror _ (.inr rfl))
  | lostSlash => exact .inl (herror _ (.inl rfl))

theorem join_some (o : Op) (l r : List Str) (st : List Slot) : ∃ v, joinTop (.set l :: st) o.char r = .ok v := by
  have hself : ∀ v : List Str, Is v {x | x ∈ v} := fun v x => Iff.rfl
  obtain ⟨v, heq, -⟩ := join_op o (hself l) (hself r) st
  exact ⟨v, heq⟩

theorem Left.expr (h : Left env b ts c) {t : Term} (hdef : t.Defined env)
    (hroom : b + c.length + t.slots ≤ STACK_SIZE) : ∃ e : Expr, ts ++ t.toks = e.toks ∧ e.Defined env ∧ b + e.slots ≤ STACK_SIZE := by
  cases h with
  | none => exact ⟨.term t, rfl, hdef, hroom⟩
  | @some e o v hdefe hroome =>
    refine ⟨.join e o t, by simp [Expr.toks], ⟨hdefe, hdef⟩, ?_⟩
    rw [List.length_cons, List.length_singleton] at hroom
    rw [Expr.slots]
    omega

theorem Left.operator (h : Left env b ts c) (hbase : Base st) (x : Octet) (v : List Str) :
    ∃ v', Sets.operator x (.set v :: c ++ st) = push (.set v') st >>= push (.op x) := by
  cases h with
  | none => exact ⟨v, operator_one hbase x v⟩
  | some o l =>
    obtain ⟨v', heq⟩ := join_some o l v st
    refine ⟨v', (operator_two x o l v st).trans ?_⟩
    rw [heq]
    rfl

theorem Left.close (h : Left env b ts c) (v : List Str) (st : List Slot) :
    ∃ v', closeParen (.set v :: c ++ .op (ascii '(') :: st) = push (.set v') st := by
  cases h with
  | none => exact ⟨v, rfl⟩
  | some o l =>
    obtain ⟨v', heq⟩ := join_some o l v (.op (ascii '(') :: st)
    refine ⟨v', (close_two o l v st).trans ?_⟩
    rw [heq]
    rfl

theorem op_goes (hbase : Base st) (hp : Progress env st.length ts c) (o : Op) :
    Goes env st (ts ++ [.op o]) (operator o.char (c ++ st)) := by
  cases hp with
  | left h =>
    left
    cases h with
    | none =>
      match st, hbase with
      | [], _ => rfl
      | .op _ :: _, _ => rfl
    | some p v => rfl
  | term v h hdef hroom =>
    obtain ⟨v', heq⟩ := h.operator hbase o.char v
    obtain ⟨e, htoks, hdefe, hroome⟩ := h.expr hdef hroom
    rw [heq, htoks]
    rcases push_cases (.set v') st with hpush | ⟨-, hpush⟩
    · exact .inl (by rw [hpush]; rfl)
    rw [hpush]
    rcases push_cases (.op o.char) (.set v' :: st) with hpush | ⟨-, hpush⟩
    · exact .inl hpush
    · exact .inr ⟨[.op o.char, .set v'], hpush, .left (.some o v' hdefe hroome)⟩
  | slash v h => exact .inl rfl
  | lost => exact .inl rfl
  | lostSlash => exact .inl rfl

theorem slash_goes (hbase : Base st) (hp : Progress env st.length ts c) :
    Goes env st (ts ++ [.slash]) (tokenStep env .slash (c ++ st)) := by
  cases hp with
  | left h => exact .inl (if_pos (h.ready hbase).2)
  | @term ts c t v h hdef hroom =>
    rcases push_cases (.op (ascii '/')) (.set v :: c ++ st) with hpush | ⟨hlt, hpush⟩
    · exact .inl hpush
    · refine .inr ⟨.op (ascii '/') :: .set v :: c, hpush, .slash v h hdef ?_⟩
      rw [List.cons_append, List.length_cons, List.length_append] at hlt
      omega
  | slash v h => exact .inl rfl
  | lost _ v w c =>
    rcases push_cases (.op (ascii '/')) (.set w :: .op (ascii '/') :: .set v :: c ++ st) with hpush | ⟨-, hpush⟩
    · exact .inl hpush
    · exact .inr ⟨.op (ascii '/') :: .set w :: .op (ascii '/') :: .set v :: c, hpush, .lostSlash _ v w c⟩
  | lostSlash => exact .inl rfl

theorem behind_goes (hbase : Base st) (hp : Progress env st.length ts c) {tok : Token} {f : Term → Term}
    (htoks : ∀ t, (f t).toks = t.toks ++ [.slash, tok]) (hslots : ∀ t, (f t).slots = max t.slots 2)
    (hnot : ∀ st, topIsSlash st = false → tokenStep env tok st = .error .error)
    (hstep : ∀ v st, tokenStep env tok (.op (ascii '/') :: .set v :: st) = .error .error ∨
      ((∃ v', tokenStep env tok (.op (ascii '/') :: .set v :: st) = push (.set v') st) ∧ ∀ t, t.Defined env → (f t).Defined env)) :
    Goes env st (ts ++ [tok]) (tokenStep env tok (c ++ st)) := by
  cases hp with
  | left h => exact .inl (hnot _ (h.ready hbase).1)
  | term v h => exact .inl (hnot _ rfl)
  | @slash ts c t v h hdef hroom =>
    rcases hstep v (c ++ st) with herror | ⟨⟨v', heq⟩, hf⟩
    · exact .inl herror
    · have htoks' : ts ++ t.toks ++ [.slash] ++ [tok] = ts ++ (f t).toks := by simp [htoks]
      rw [List.cons_append, List.cons_append, heq, htoks']
      rcases push_cases (.set v') (c ++ st) with hpush | ⟨-, hpush⟩
      · exact .inl hpush
      · exact .inr ⟨.set v' :: c, hpush, .term v' h (hf t hdef) (by rw [hslots]; exact hroom)⟩
  | lost => exact .inl (hnot _ rfl)
  | lostSlash _ v w c =>
    rcases hstep w (.op (ascii '/') :: .set v :: c ++ st) with herror | ⟨⟨v', heq⟩, -⟩
    · exact .inl herror
    · rcases push_cases (.set v') (.op (ascii '/') :: .set v :: c ++ st) with hpush | ⟨-, hpush⟩
      · exact .inl (heq.trans hpush)
      · exact .inr ⟨.set v' :: .op (ascii '/') :: .set v :: c, heq.trans hpush, .lost _ v v' c⟩

def Token.isParen : Token → Bool
  | .lparen | .rparen => true
  | _ => false

theorem token_goes (hbase : Base st) (hp : Progress env st.length ts c) {t : Token}
    (ht : t.isParen = false) : Goes env st (ts ++ [t]) (tokenStep env t (c ++ st)) := by
  cases t with
  | lparen => exact absurd ht (by decide)
  | rparen => exact absurd ht (by decide)
  | op o => exact op_goes hbase hp o
  | this => exact value_goes hbase hp env.target (t := .this) trivial rfl
  | user =>
    rw [tokenStep]
    cases huser : env.user with
    | none => exact .inl rfl
    | some user => exact value_goes hbase hp user (t := .user) (by rw [Term.Defined, huser]; rfl) rfl
  | literal s => exact value_goes hbase hp s (t := .literal s) trivial rfl
  | slash => exact slash_goes hbase hp
  | attr w closure =>
    refine behind_goes hbase hp (f := fun t => .attr t w closure) (fun t => rfl) (fun t => rfl) (fun st h => if_pos h) fun v st => ?_
    cases had : env.bv2ad w with
    | none =>
      left
      rw [tokenStep, chaseStep, if_neg (by simp [topIsSlash]), had]
    | some ad =>
      obtain ⟨v', heq, -⟩ := attr_step had closure v st
      exact .inr ⟨⟨v', heq⟩, fun t ht => ⟨ht, by rw [had]; rfl⟩⟩
  | parent n =>
    refine behind_goes hbase hp (f := fun t => .parent t n) (fun t => rfl) (fun t => rfl) (fun st h => if_pos h) fun v st => .inr ?_
    obtain ⟨v', heq, -⟩ := @parent_step δ env n v st
    exact ⟨⟨v', heq⟩, fun t ht => ht⟩
  | parents =>
    refine behind_goes hbase hp (f := .parents) (fun t => rfl) (fun t => rfl) (fun st h => if_pos h) fun v st => .inr ?_
    obtain ⟨v', heq, -⟩ := @parents_step δ env v st
    exact ⟨⟨v', heq⟩, fun t ht => ht⟩
  | bad => exact .inl rfl

inductive Frames (env : Env δ) : List Token → List Slot → Prop where
  | base {ts : List Token} {c : List Slot} (h : Progress env 0 ts c) : Frames env ts c
  | nest {ts us : List Token} {st c : List Slot} (h : Frames env ts st) (hopen : topIsSet st = false)
    (hp : Progress env (st.length + 1) us c) : Frames env (ts ++ .lparen :: us) (c ++ .op (ascii '(') :: st)

theorem Frames.top (h : Frames env ts st) : ∃ ts₀ us c b, ts = ts₀ ++ us ∧ st = c ++ b ∧ Base b ∧
    Progress env b.length us c ∧ ∀ us' c', Progress env b.length us' c' → Frames env (ts₀ ++ us') (c' ++ b) := by
  cases h with
  | @base _ c hp => exact ⟨[], ts, st, [], rfl, by simp, trivial, hp, fun us' c' hp' => by simpa using Frames.base hp'⟩
  | @nest ts us st c h hopen hp =>
    refine ⟨ts ++ [.lparen], us, c, .op (ascii '(') :: st, by simp, rfl, rfl, hp, fun us' c' hp' => ?_⟩
    simpa using Frames.nest h hopen hp'

theorem Frames.token (h : Frames env ts st) {t : Token} (ht : t.isParen = false) :
    tokenStep env t st = .error .error ∨ ∃ st', tokenStep env t st = .ok st' ∧ Frames env (ts ++ [t]) st' := by
  obtain ⟨ts₀, us, c, b, rfl, rfl, hbase, hp, hframes⟩ := h.top
  rcases token_goes hbase hp ht with herror | ⟨c', hok, hp'⟩
  · exact .inl herror
  · exact .inr ⟨_, hok, by simpa using hframes _ _ hp'⟩

theorem Frames.lparen (h : Frames env ts st) :
    tokenStep env .lparen st = .error .error ∨ ∃ st', tokenStep env .lparen st = .ok st' ∧ Frames env (ts ++ [.lparen]) st' := by
  rw [tokenStep]
  cases hset : topIsSet st with
  | true => exact .inl rfl
  | false =>
    rcases push_cases (.op (ascii '(')) st with hpush | ⟨-, hpush⟩
    · exact .inl hpush
    · exact .inr ⟨_, hpush, .nest h hset (.left .none)⟩

theorem Frames.paren (h : Frames env ts st) (hopen : topIsSet st = false) (hdef : e.Defined env)
    (hroom : st.length + 1 + e.slots ≤ STACK_SIZE) (v : List Str) : Frames env (ts ++ (Term.paren e).toks) (.set v :: st) := by
  obtain ⟨ts₀, us, c, b, rfl, rfl, hbase, hp, hframes⟩ := h.top
  rw [List.append_assoc]
  cases hp with
  | left h =>
    refine hframes _ (.set v :: c) (.term v h hdef ?_)
    rw [List.length_append] at hroom
    rw [Term.slots]
    omega
  | term w h => cases hopen
  | @slash us c t w h => exact hframes _ (.set v :: .op (ascii '/') :: .set w :: c) (.lost _ w v c)
  | lost => cases hopen
  | lostSlash _ u w c =>
    exact hframes _ (.set v :: .op (ascii '/') :: .set w :: .op (ascii '/') :: .set u :: c) (.lost _ w v _)

def ClosesParen : List Slot → Prop
  | .set _ :: .op c :: _ :: st => (∃ o : Op, c = o.char) → st.head? = some (.op (ascii '('))
  | _ => True

theorem Frames.rparen (h : Frames env ts st) (hclose : ClosesParen st) :
    tokenStep env .rparen st = .error .error ∨ ∃ st', tokenStep env .rparen st = .ok st' ∧ Frames env (ts ++ [.rparen]) st' := by
  rw [tokenStep]
  cases h with
  | base hp =>
    left
    cases hp with
    | left h => cases h <;> rfl
    | term v h =>
      cases h with
      | none => rfl
      | some o w => exact absurd (hclose ⟨o, rfl⟩) (by simp)
    | slash v h => rfl
    | lost => rfl
    | lostSlash => rfl
  | @nest ts us st c h hopen hp =>
    cases hp with
    | left h =>
      left
      cases h <;> rfl
    | @term us c t v hl hdef hroom =>
      obtain ⟨v', heq⟩ := hl.close v st
      obtain ⟨e, htoks, hdefe, hroome⟩ := hl.expr hdef hroom
      rw [heq]
      rcases push_cases (.set v') st with hpush | ⟨-, hpush⟩
      · exact .inl hpush
      · refine .inr ⟨_, hpush, ?_⟩
        have hp := h.paren hopen hdefe hroome v'
        rw [Term.toks, ← htoks] at hp
        simpa using hp
    | slash v h => exact .inl rfl
    | lost => exact .inl rfl
    | lostSlash => exact .inl rfl

def EndsClean : List Slot → Prop
  | .set _ :: .op c :: st => (c = ascii '(' → st = []) ∧ ((∃ o : Op, c = o.char) → st.tail = [])
  | _ => True

variable (env)

/-- In the run over the tokens, each closing parenthesis finds the opening one. -/
def ClosesClean (ts : List Token) : Prop := ∀ us vs st, ts = us ++ .rparen :: vs → run env us [] = .ok st → ClosesParen st

def RunEndsClean (ts : List Token) : Prop := ∀ st, run env ts [] = .ok st → EndsClean st

variable {env}

theorem run_frames (ts : List Token) (hclose : ClosesClean env ts) :
    run env ts [] = .error .error ∨ ∃ st, run env ts [] = .ok st ∧ Frames env ts st := by
  induction ts using List.reverseRecOn with
  | nil => exact .inr ⟨[], rfl, .base (.left .none)⟩
  | append_singleton ts t ih =>
    have hlast : run env (ts ++ [t]) [] = run env ts [] >>= tokenStep env t := by
      rw [run_append]
      cases run env ts [] with
      | error stop => rfl
      | ok st =>
        calc run env [t] st = tokenStep env t st >>= run env [] := rfl
          _ = tokenStep env t st := by cases tokenStep env t st <;> rfl
    rw [hlast]
    rcases ih (fun us vs st heq hrun => hclose us (vs ++ [t]) st (by simp [heq]) hrun) with herror | ⟨st, hrun, hframes⟩
    · exact .inl (by rw [herror]; rfl)
    · rw [hrun]
      by_cases ht : t.isParen = false
      · exact hframes.token ht
      · cases t with
        | lparen => exact hframes.lparen
        | rparen => exact hframes.rparen (hclose ts [] st rfl hrun)
        | _ => exact absurd rfl ht

theorem Frames.finish {ts : List Token} (h : Frames env ts st) (hclean : EndsClean st) :
    Sets.finish st = .error .error ∨ ∃ e : Expr, ts = e.toks ∧ e.Defined env ∧ e.slots ≤ STACK_SIZE := by
  cases h with
  | base hp =>
    cases hp with
    | left h =>
      left
      cases h <;> rfl
    | term v h hdef hroom =>
      obtain ⟨e, htoks, hdefe, hroome⟩ := h.expr hdef hroom
      exact .inr ⟨e, htoks, hdefe, by omega⟩
    | slash v h => exact .inl rfl
    | lost => exact .inl rfl
    | lostSlash => exact .inl rfl
  | @nest ts us st c h hopen hp =>
    left
    cases hp with
    | left h => cases h <;> rfl
    | term v h =>
      cases h with
      | none =>
        obtain rfl := hclean.1 rfl
        rfl
      | some o w => exact absurd (hclean.2 ⟨o, rfl⟩) (by simp)
    | slash v h => rfl
    | lost => rfl
    | lostSlash => rfl

theorem Frames.unclean (h : Frames env ts st) (hunclean : ¬ EndsClean st) : Sets.finish st ≠ .error .error := by
  have hslash : ∀ (w : List Str) (st : List Slot), EndsClean (.set w :: .op (ascii '/') :: st) := fun w st =>
    ⟨fun h => absurd h (by decide), fun ⟨o, ho⟩ => absurd ho (by cases o <;> decide)⟩
  cases h with
  | base hp =>
    refine absurd ?_ hunclean
    cases hp with
    | left h => cases h <;> trivial
    | term v h =>
      cases h with
      | none => trivial
      | some o w => exact ⟨fun h => absurd h (op_ne_paren o), fun _ => rfl⟩
    | slash v h => trivial
    | lost => exact hslash _ _
    | lostSlash => trivial
  | @nest ts us st c h hopen hp =>
    cases hp with
    | left h => exact absurd (by cases h <;> trivial) hunclean
    | term v h =>
      cases h with
      | none =>
        match st, hopen with
        | [], _ => exact absurd ⟨fun _ => rfl, fun _ => rfl⟩ hunclean
        | .op c :: st, _ => exact fun h => by cases h
      | some o w =>
        obtain ⟨v', heq⟩ := join_some o w v (.op (ascii '(') :: st)
        have hfinish : Sets.finish ([.set v, .op o.char, .set w] ++ .op (ascii '(') :: st) = .ok v' := heq
        rw [hfinish]
        exact fun h => by cases h
    | slash v h => exact absurd trivial hunclean
    | lost => exact absurd (hslash _ _) hunclean
    | lostSlash => exact absurd trivial hunclean

def WellFormed (env : Env δ) (fbv : Str) (e : Expr) : Prop := tokens fbv = e.toks ∧ e.Defined env

/-- The string is refused exactly if it is no expression or needs too many slots. Otherwise the result says whether the set
has a value. -/
def Exact (env : Env δ) (fbv : Str) : Prop :=
  (slapSetFilter env fbv = .ok (-1) ↔ ¬ ∃ e, WellFormed env fbv e ∧ e.slots ≤ STACK_SIZE) ∧
    ∀ e, WellFormed env fbv e → e.slots ≤ STACK_SIZE →
      ((e.meaning env).Nonempty → slapSetFilter env fbv = .ok 1) ∧ (e.meaning env = ∅ → slapSetFilter env fbv = .ok 0)

theorem filter_eq_run (fbv : Str) : slapSetFilter env fbv =
    match run env (tokens fbv) [] >>= finish with
    | .ok set => .ok (if set = [] then 0 else 1)
    | .error .error => .ok (-1)
    | .error stop => .error stop := by
  rw [slapSetFilter, filter_loop_tokens]
  rfl

theorem filter_expr {fbv : Str} (h : WellFormed env fbv e) (hsmall : Small (tokens fbv)) (hroom : e.slots ≤ STACK_SIZE) :
    RunEndsClean env (tokens fbv) ∧ ∃ v, slapSetFilter env fbv = .ok (if v = [] then 0 else 1) ∧ Is v (e.meaning env) := by
  obtain ⟨htoks, hdef⟩ := h
  obtain ⟨c, hrun, hheld⟩ := @run_expr δ env e [] trivial hdef (htoks ▸ hsmall) (by simpa using hroom)
  rw [List.append_nil] at hrun
  constructor
  · intro st hst
    rw [htoks, hrun] at hst
    obtain rfl := Except.ok.inj hst
    cases hheld with
    | term h => trivial
    | @join l o r v w hl hr => exact ⟨fun h => absurd h (op_ne_paren o), fun _ => rfl⟩
  · obtain ⟨v, hfinish, hv⟩ := hheld.finish
    refine ⟨v, ?_, hv⟩
    have hall : run env (tokens fbv) [] >>= finish = .ok v := by
      rw [htoks, hrun]
      exact hfinish
    rw [filter_eq_run, hall]

def bare : Env Unit := ⟨⟨fun _ _ => none, ∅, by simp⟩, fun _ => none, some (text "u"), text "t"⟩

def Token.depth : Token → ℤ
  | .lparen => 1
  | .rparen => -1
  | _ => 0

mutual

theorem Term.depth_toks (t : Term) : (t.toks.map Token.depth).sum = 0 := by
  match t with
  | .this | .user | .literal _ => rfl
  | .paren e => simp [Term.toks, Token.depth, Expr.depth_toks e]
  | .attr t _ _ | .parent t _ | .parents t => simp [Term.toks, Token.depth, Term.depth_toks t]

theorem Expr.depth_toks (e : Expr) : (e.toks.map Token.depth).sum = 0 := by
  match e with
  | .term t => exact Term.depth_toks t
  | .join l o r => simp [Expr.toks, Token.depth, Expr.depth_toks l, Term.depth_toks r]

end

end Sets
end Slapd
end ReOpenLDAP
