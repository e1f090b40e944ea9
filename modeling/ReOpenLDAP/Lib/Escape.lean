import Mathlib.Algebra.Order.Ring.Int
import Mathlib.Data.List.Induction

/-!
# Lib.Escape

Strings in which an escape takes away the meaning of the character behind it.
-/

namespace ReOpenLDAP
namespace Escape

open List

inductive Token (α : Type*) where
  | plain (c : α)
  | escaped (c : α)

variable {α : Type*}

namespace Token

def char : Token α → α
  | plain c => c
  | escaped c => c

def isEscaped : Token α → Bool
  | plain _ => false
  | escaped _ => true

end Token

section

variable [DecidableEq α] (esc : α)

def Token.render : Token α → List α
  | .plain c => [c]
  | .escaped c => [esc, c]

def render (ts : List (Token α)) : List α := ts.flatMap (Token.render esc)

def chars (ts : List (Token α)) : List α := ts.map Token.char

def escapes (ts : List (Token α)) : ℕ := ts.countP Token.isEscaped

/-- Up to a character of `stop`: the string, its escapes, and what is left. Escaped characters must be `ok`. -/
def scan (ok stop : α → Bool) : List α → Option (List α × ℕ × List α)
  | [] => some ([], 0, [])
  | [c] => if c = esc then none else if stop c then some ([], 0, [c]) else some ([c], 0, [])
  | c :: d :: t =>
    if c = esc then
      if ok d then (scan ok stop t).map fun r => (c :: d :: r.1, r.2.1 + 1, r.2.2) else none
    else if stop c then some ([], 0, c :: d :: t)
    else (scan ok stop (d :: t)).map fun r => (c :: r.1, r.2)

def stripRev (space : α → Bool) : List α → List α
  | a :: b :: r => if space a ∧ b ≠ esc then stripRev space (b :: r) else a :: b :: r
  | r => r

def strip (space : α → Bool) (s : List α) : List α := (stripRev esc space s.reverse).reverse

def unescape : ℕ → List α → List α
  | 0, _ => []
  | _ + 1, [] => []
  | _ + 1, [c] => if c = esc then [] else [c]
  | n + 1, c :: d :: t => if c = esc then d :: unescape n t else c :: unescape n (d :: t)

def read (ok stop space : α → Bool) (t : List α) : Option (List α × List α) :=
  (scan esc ok stop t).map fun r =>
    let len := (strip esc space r.1).length - r.2.1
    (if r.2.1 = 0 then r.1.take len else unescape esc len r.1, r.2.2)

end

section

variable {esc : α}

@[simp] theorem render_nil : render esc ([] : List (Token α)) = [] := rfl

@[simp] theorem render_cons (t : Token α) (ts : List (Token α)) : render esc (t :: ts) = t.render esc ++ render esc ts := rfl

theorem render_append (ts us : List (Token α)) : render esc (ts ++ us) = render esc ts ++ render esc us := flatMap_append

@[simp] theorem escapes_nil : escapes ([] : List (Token α)) = 0 := rfl

@[simp] theorem escapes_plain (c : α) (ts : List (Token α)) : escapes (.plain c :: ts) = escapes ts := by
  simp [escapes, Token.isEscaped]

@[simp] theorem escapes_escaped (c : α) (ts : List (Token α)) : escapes (.escaped c :: ts) = escapes ts + 1 :=
  countP_cons_of_pos rfl

theorem escapes_append (ts us : List (Token α)) : escapes (ts ++ us) = escapes ts + escapes us := countP_append

theorem length_render (ts : List (Token α)) : (render esc ts).length = (chars ts).length + escapes ts := by
  induction ts with
  | nil => rfl
  | cons t ts ih =>
    rw [render_cons, length_append, ih, chars, chars, map_cons, length_cons]
    cases t <;> simp [Token.render] <;> omega

theorem render_of_no_escapes {ts : List (Token α)} (h : escapes ts = 0) : render esc ts = chars ts := by
  induction ts with
  | nil => rfl
  | cons t ts ih =>
    cases t with
    | plain c => simpa [Token.render, chars, Token.char] using ih (by simpa using h)
    | escaped c => simp at h

theorem mem_render {ts : List (Token α)} {c : α} (h : c ∈ render esc ts) : c = esc ∨ c ∈ chars ts := by
  obtain ⟨t, ht, hc⟩ := List.mem_flatMap.mp h
  have hchar : t.char ∈ chars ts := List.mem_map_of_mem ht
  cases t with
  | plain d => exact .inr (List.mem_singleton.mp hc ▸ hchar)
  | escaped d =>
    rcases List.mem_cons.mp hc with rfl | hc
    · exact .inl rfl
    · exact .inr (List.mem_singleton.mp hc ▸ hchar)

theorem reverse_render_append (ts : List (Token α)) (t : Token α) :
    (render esc (ts ++ [t])).reverse = (t.render esc).reverse ++ (render esc ts).reverse := by
  rw [render_append, reverse_append]
  simp

end

section

variable [DecidableEq α] {esc : α} {ok stop space : α → Bool}

def Fine (esc : α) (ok stop : α → Bool) : Token α → Prop
  | .plain c => c ≠ esc ∧ stop c = false
  | .escaped c => ok c = true

def Stops (stop : α → Bool) (rest : List α) : Prop := ∀ c ∈ rest.head?, stop c = true

variable {t rest : List α} {ts : List (Token α)}

theorem scan_singleton (c : α) : scan esc ok stop [c] =
    if c = esc then none else if stop c then some ([], 0, [c]) else some ([c], 0, []) := rfl

theorem scan_cons_cons (c d : α) : scan esc ok stop (c :: d :: t) =
    if c = esc then if ok d then (scan esc ok stop t).map fun r => (c :: d :: r.1, r.2.1 + 1, r.2.2) else none
    else if stop c then some ([], 0, c :: d :: t)
    else (scan esc ok stop (d :: t)).map fun r => (c :: r.1, r.2) := rfl

theorem scan_plain {c : α} (hc : c ≠ esc) (hstop : stop c = false) :
    scan esc ok stop (c :: t) = (scan esc ok stop t).map fun r => (c :: r.1, r.2) := by
  cases t with
  | nil => rw [scan_singleton, if_neg hc, if_neg (by simp [hstop])]; rfl
  | cons d t => rw [scan_cons_cons, if_neg hc, if_neg (by simp [hstop])]

theorem scan_stop (h : Stops stop rest) (hesc : stop esc = false) : scan esc ok stop rest = some ([], 0, rest) := by
  rcases rest with _ | ⟨c, _ | ⟨d, t⟩⟩
  · rfl
  · have hc : stop c = true := h c rfl
    have hne : c ≠ esc := fun heq => by rw [heq, hesc] at hc; cases hc
    rw [scan_singleton, if_neg hne, if_pos hc]
  · have hc : stop c = true := h c rfl
    have hne : c ≠ esc := fun heq => by rw [heq, hesc] at hc; cases hc
    rw [scan_cons_cons, if_neg hne, if_pos hc]

theorem scan_render (hts : ∀ t ∈ ts, Fine esc ok stop t) (h : Stops stop rest)
    (hesc : stop esc = false) : scan esc ok stop (render esc ts ++ rest) = some (render esc ts, escapes ts, rest) := by
  induction ts with
  | nil => exact scan_stop h hesc
  | cons t ts ih =>
    obtain ⟨ht, htail⟩ := List.forall_mem_cons.mp hts
    rw [render_cons, append_assoc]
    cases t with
    | plain c =>
      rw [Token.render, singleton_append, scan_plain ht.1 ht.2, ih htail]
      simp
    | escaped c =>
      have hok : ok c = true := ht
      rw [Token.render, cons_append, singleton_append, scan_cons_cons, if_pos rfl, if_pos hok, ih htail]
      simp

theorem scan_spec {raw : List α} {n : ℕ} (h : scan esc ok stop t = some (raw, n, rest)) :
    ∃ ts, raw = render esc ts ∧ n = escapes ts ∧ (∀ t ∈ ts, Fine esc ok stop t) ∧ t = raw ++ rest ∧ Stops stop rest := by
  induction t using scan.induct esc ok stop generalizing raw n rest with
  | case1 =>
    obtain ⟨rfl, rfl, rfl⟩ : raw = [] ∧ n = 0 ∧ rest = [] := by
      simpa [eq_comm] using (Option.some.inj h : ([], 0, []) = (raw, n, rest))
    exact ⟨[], rfl, rfl, by simp, rfl, by simp [Stops]⟩
  | case2 => simp [scan_singleton] at h
  | case3 c hc hstop =>
    rw [scan_singleton, if_neg hc, if_pos hstop] at h
    obtain ⟨rfl, rfl, rfl⟩ : raw = [] ∧ n = 0 ∧ rest = [c] := by simpa [eq_comm] using h
    exact ⟨[], rfl, rfl, by simp, rfl, by simpa [Stops] using hstop⟩
  | case4 c hc hstop =>
    rw [scan_singleton, if_neg hc, if_neg hstop] at h
    obtain ⟨rfl, rfl, rfl⟩ : raw = [c] ∧ n = 0 ∧ rest = [] := by simpa [eq_comm] using h
    exact ⟨[.plain c], rfl, rfl, by simpa [Fine] using ⟨hc, by simpa using hstop⟩, rfl, by simp [Stops]⟩
  | case5 d t hok ih =>
    rw [scan_cons_cons, if_pos rfl, if_pos hok, Option.map_eq_some_iff] at h
    obtain ⟨⟨raw', n', rest'⟩, hscan, h⟩ := h
    obtain ⟨rfl, rfl, rfl⟩ : esc :: d :: raw' = raw ∧ n' + 1 = n ∧ rest' = rest := by simpa using h
    obtain ⟨ts, rfl, rfl, hfine, rfl, hstop⟩ := ih hscan
    exact ⟨.escaped d :: ts, by simp [Token.render], by simp,
      List.forall_mem_cons.mpr ⟨hok, hfine⟩, rfl, hstop⟩
  | case6 d t hok => simp [scan_cons_cons, hok] at h
  | case7 c d t hc hstop =>
    rw [scan_cons_cons, if_neg hc, if_pos hstop] at h
    obtain ⟨rfl, rfl, rfl⟩ : raw = [] ∧ n = 0 ∧ rest = c :: d :: t := by simpa [eq_comm] using h
    exact ⟨[], rfl, rfl, by simp, rfl, by simpa [Stops] using hstop⟩
  | case8 c d t hc hstop ih =>
    rw [scan_cons_cons, if_neg hc, if_neg hstop, Option.map_eq_some_iff] at h
    obtain ⟨⟨raw', n', rest'⟩, hscan, h⟩ := h
    obtain ⟨rfl, rfl, rfl⟩ : c :: raw' = raw ∧ n' = n ∧ rest' = rest := by simpa using h
    obtain ⟨ts, rfl, rfl, hfine, ht, hstops⟩ := ih hscan
    exact ⟨.plain c :: ts, rfl, by simp,
      List.forall_mem_cons.mpr ⟨⟨hc, by simpa using hstop⟩, hfine⟩, by rw [ht]; rfl, hstops⟩

/-! ## Spaces at the end -/

def Stripped (space : α → Bool) (ts : List (Token α)) : Prop :=
  ∀ us c, ts = us ++ [.plain c] → space c = true → us = []

theorem stripRev_of_not_space {c : α} {r : List α} (hc : space c = false) : stripRev esc space (c :: r) = c :: r := by
  cases r with
  | nil => rfl
  | cons b r => rw [stripRev, if_neg (by simp [hc])]

theorem strip_render (h : Stripped space ts) : strip esc space (render esc ts) = render esc ts := by
  have hrev : stripRev esc space (render esc ts).reverse = (render esc ts).reverse := by
    rcases eq_nil_or_concat ts with rfl | ⟨us, t, rfl⟩
    · rfl
    rw [concat_eq_append] at h ⊢
    rw [reverse_render_append]
    cases t with
    | escaped c =>
      rw [Token.render, reverse_cons, reverse_singleton, append_assoc, singleton_append, singleton_append,
        stripRev, if_neg (by simp)]
    | plain c =>
      rw [Token.render, reverse_singleton, singleton_append]
      cases hspace : space c with
      | false => exact stripRev_of_not_space hspace
      | true => rw [h us c rfl hspace]; rfl
  rw [strip, hrev, reverse_reverse]

theorem strip_spec {ts : List (Token α)} (hts : ∀ t ∈ ts, Fine esc ok stop t) :
    ∃ us vs, ts = us ++ vs ∧ strip esc space (render esc ts) = render esc us ∧ escapes vs = 0 ∧
      (ok esc = false → Stripped space us) := by
  induction ts using List.reverseRecOn with
  | nil => exact ⟨[], [], rfl, rfl, rfl, fun _ us c h => by simp at h⟩
  | append_singleton ts t ih =>
    have hkept : Stripped space (ts ++ [t]) → ∃ us vs, ts ++ [t] = us ++ vs ∧
        strip esc space (render esc (ts ++ [t])) = render esc us ∧ escapes vs = 0 ∧ (ok esc = false → Stripped space us) :=
      fun h => ⟨ts ++ [t], [], by simp, strip_render h, rfl, fun _ => h⟩
    obtain ⟨hts', ht⟩ : (∀ t ∈ ts, Fine esc ok stop t) ∧ Fine esc ok stop t := by
      simpa [or_imp, forall_and] using hts
    cases t with
    | escaped c => exact hkept fun us c' h _ => by simpa using append_inj_right' h rfl
    | plain c =>
      cases hspace : space c with
      | false =>
        refine hkept fun us c' h hc' => ?_
        obtain ⟨-, h⟩ := append_inj' h rfl
        obtain rfl : c = c' := by simpa using h
        rw [hspace] at hc'
        cases hc'
      | true =>
        rcases eq_nil_or_concat ts with rfl | ⟨xs, t', rfl⟩
        · refine hkept fun us c' h _ => ?_
          have hlen := congrArg List.length h
          simpa using hlen
        rw [concat_eq_append] at ih hts hts' ⊢
        by_cases hesc : t'.char = esc
        · -- the character in front of the space is an escape
          refine ⟨xs ++ [t'] ++ [.plain c], [], by simp, ?_, rfl, fun hok => ?_⟩
          · have hrev : stripRev esc space (render esc (xs ++ [t'] ++ [.plain c])).reverse =
                (render esc (xs ++ [t'] ++ [.plain c])).reverse := by
              rw [reverse_render_append, reverse_render_append]
              cases t' <;> simp_all [Token.render, Token.char, stripRev]
            rw [strip, hrev, reverse_reverse]
          · have ht' := hts' t' (by simp)
            cases t' with
            | plain d => exact absurd hesc ht'.1
            | escaped d =>
              have hd : ok d = true := ht'
              rw [show d = esc from hesc, hok] at hd
              cases hd
        · obtain ⟨us, vs, heq, hstrip, hvs, hstripped⟩ := ih hts'
          refine ⟨us, vs ++ [.plain c], by rw [heq, append_assoc], ?_, by rw [escapes_append, hvs]; simp, hstripped⟩
          rw [← hstrip, strip, strip, reverse_render_append, Token.render, reverse_singleton, singleton_append]
          congr 1
          rw [reverse_render_append]
          cases t' <;> simp_all [Token.render, Token.char, stripRev]

theorem unescape_plain {c : α} (hc : c ≠ esc) (n : ℕ) (t : List α) : unescape esc (n + 1) (c :: t) = c :: unescape esc n t := by
  cases t with
  | nil => cases n <;> simp [unescape, hc]
  | cons d t => rw [unescape, if_neg hc]

theorem unescape_render (hts : ∀ t ∈ ts, Fine esc ok stop t) (us : List (Token α)) :
    unescape esc (chars ts).length (render esc (ts ++ us)) = chars ts := by
  induction ts with
  | nil => simp [chars, unescape]
  | cons t ts ih =>
    obtain ⟨ht, htail⟩ := List.forall_mem_cons.mp hts
    have hchars : chars (t :: ts) = t.char :: chars ts := rfl
    rw [hchars, length_cons, cons_append, render_cons]
    cases t with
    | plain c => rw [Token.render, singleton_append, unescape_plain ht.1, ih htail]; rfl
    | escaped c =>
      rw [Token.render, cons_append, singleton_append, unescape, if_pos rfl, ih htail]
      rfl

theorem value_render {us vs : List (Token α)} (hts : ∀ t ∈ us ++ vs, Fine esc ok stop t) (hvs : escapes vs = 0) :
    (if escapes (us ++ vs) = 0 then (render esc (us ++ vs)).take ((render esc us).length - escapes (us ++ vs))
      else unescape esc ((render esc us).length - escapes (us ++ vs)) (render esc (us ++ vs))) = chars us := by
  have hlen : (render esc us).length - escapes (us ++ vs) = (chars us).length := by
    rw [length_render, escapes_append, hvs]
    omega
  rw [hlen]
  split
  · rename_i hzero
    have hchars : chars (us ++ vs) = chars us ++ chars vs := map_append
    rw [render_of_no_escapes hzero, hchars]
    exact take_left
  · exact unescape_render (fun t ht => hts t (mem_append_left vs ht)) vs

theorem read_render (hts : ∀ t ∈ ts, Fine esc ok stop t) (h : Stops stop rest)
    (hesc : stop esc = false) (hstripped : Stripped space ts) :
    read esc ok stop space (render esc ts ++ rest) = some (chars ts, rest) := by
  have hvalue := @value_render α _ esc ok stop ts [] (by simpa using hts) rfl
  rw [List.append_nil] at hvalue
  rw [read, scan_render hts h hesc, Option.map_some]
  simp only [strip_render hstripped, hvalue]

theorem read_spec {v : List α} (h : read esc ok stop space t = some (v, rest)) :
    ∃ us vs, t = render esc (us ++ vs) ++ rest ∧ v = chars us ∧ (∀ t ∈ us ++ vs, Fine esc ok stop t) ∧
      (ok esc = false → Stripped space us) ∧ Stops stop rest := by
  obtain ⟨⟨raw, n, rest'⟩, hscan, h⟩ := Option.map_eq_some_iff.mp h
  obtain ⟨ts, rfl, rfl, hfine, ht, hstop⟩ := scan_spec hscan
  obtain ⟨us, vs, rfl, hstrip, hvs, hstripped⟩ := @strip_spec α _ esc ok stop space ts hfine
  simp only [hstrip, value_render hfine hvs, Prod.mk.injEq] at h
  obtain ⟨rfl, rfl⟩ := h
  exact ⟨us, vs, ht, rfl, hfine, hstripped, hstop⟩

end

end Escape
end ReOpenLDAP
