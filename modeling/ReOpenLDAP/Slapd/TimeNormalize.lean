import ReOpenLDAP.Slapd.TimeCheck

/-!
# Slapd.TimeNormalize

Normal forms of GeneralizedTime.

* `generalized_time_canonical` — valid values, normal forms, instants and the order.
-/

namespace ReOpenLDAP
namespace Slapd

open Calendar Cmp Decimal List

namespace GeneralizedTime

structure Normal (n : GeneralizedTime) : Prop where
  second : ∃ m s, n.rest = .second m s
  utc : n.zone = .utc
  mark : ∀ f, n.fraction = some f → f.mark = '.'
  digits : n.keptDigits = n.digits

def FractionOfSecond (g : GeneralizedTime) : Prop := g.fraction = none ∨ ∃ m s, g.rest = .second m s

/-- The length of the fraction is an `int`. -/
def Short (g : GeneralizedTime) : Prop := g.digits.length < 2 ^ 31 - 1

theorem keptDigits_prefix (g : GeneralizedTime) : g.keptDigits <+: g.digits := by
  unfold keptDigits
  split_ifs
  · exact prefix_rfl
  · exact trimZeros_prefix _

theorem keptDigits_ok (g : GeneralizedTime) : Digits g.keptDigits := fun c hc => g.digits_ok c (g.keptDigits_prefix.subset hc)

theorem fraction_keptDigits (g : GeneralizedTime) : Decimal.fraction g.keptDigits = Decimal.fraction g.digits := by
  unfold keptDigits
  split_ifs
  · rfl
  · exact fraction_trimZeros _

theorem readLen_short {k : ℕ} (h : k < 2 ^ 31 - 1) : readLen (k + 1) = if k = 0 then 0 else k + 1 := by
  have hint : toInt ((k + 1 : ℕ) : ℤ) = (k + 1 : ℕ) := by
    unfold toInt
    rw [Int.bmod_eq_of_le (by omega) (by omega)]
  have hlen : toLen ((k + 1 : ℕ) : ℤ) = k + 1 := by
    unfold toLen
    omega
  unfold readLen
  rw [hint, hlen]
  by_cases hk : k = 0
  · simp [hk]
  · rw [if_neg hk, if_pos (by omega)]

theorem fmt02_eq {v : ℤ} (h0 : 0 ≤ v) (h : v < 100) : fmt02 v = twoDigits v.toNat := if_pos ⟨h0, h⟩

def ofParts (parts : Parts) (h : Regular parts) (s : Fin 61) (ds : List Char) (hds : Digits ds) : GeneralizedTime where
  century := ⟨(parts 0).toNat, by have := h.century; omega⟩
  year := ⟨(parts 1).toNat, by have := h.year; omega⟩
  month := ⟨(parts 2).toNat, by have := h.month; omega⟩
  day := (parts 3).toNat
  day_lt := by
    have hc := h.century
    have hy := h.year
    have hm := h.month
    have hd := h.day
    simp only [Int.toNat_of_nonneg hc.1, Int.toNat_of_nonneg hy.1, Int.toNat_of_nonneg hm.1, Int.toNat_of_nonneg hd.1]
    omega
  hour := ⟨(parts 4).toNat, by have := h.hour; omega⟩
  rest := .second ⟨(parts 5).toNat, by have := h.minute; omega⟩ s
  fraction := if hne : ds = [] then none else some ⟨'.', .inl rfl, ds, hne, hds⟩
  zone := .utc

variable {parts : Parts} (h : Regular parts) (s : Fin 61) {ds : List Char} (hds : Digits ds)

theorem ofParts_digits : (ofParts parts h s ds hds).digits = ds := by
  unfold digits ofParts
  by_cases hne : ds = [] <;> simp [hne]

theorem ofParts_fractionText : (ofParts parts h s ds hds).fractionText = if ds = [] then [] else '.' :: ds := by
  unfold fractionText ofParts
  by_cases hne : ds = [] <;> simp [hne]

theorem ofParts_minute : (ofParts parts h s ds hds).utcMinute = minuteOf parts := by
  have hc := h.century
  have hy := h.year
  have hm := h.month
  have hd := h.day
  have hh := h.hour
  have hmi := h.minute
  simp only [utcMinute, ofParts, Rest.minutes, Zone.minutes, minuteOf, Int.toNat_of_nonneg hc.1, Int.toNat_of_nonneg hy.1,
    Int.toNat_of_nonneg hm.1, Int.toNat_of_nonneg hd.1, Int.toNat_of_nonneg hh.1, Int.toNat_of_nonneg hmi.1, sub_zero]

theorem ofParts_normal (hkeep : ds.length = 6 ∨ trimZeros ds = ds) : (ofParts parts h s ds hds).Normal := by
  refine ⟨⟨_, _, rfl⟩, rfl, fun f hf => ?_, ?_⟩
  · unfold ofParts at hf
    by_cases hne : ds = []
    · simp [hne] at hf
    · simp only [hne, dite_false, Option.some.injEq] at hf
      rw [← hf]
  · have hkeeps : (ofParts parts h s ds hds).keepsZeros = decide ((ofParts parts h s ds hds).digits.length = 6) := rfl
    rw [keptDigits, hkeeps, ofParts_digits]
    by_cases h6 : ds.length = 6
    · simp [h6]
    · simpa [h6] using hkeep

theorem seconds_lt (g : GeneralizedTime) : ∃ s : Fin 61, g.rest.seconds = (s : ℕ) := by
  cases g.rest with
  | hour => exact ⟨0, rfl⟩
  | minute m => exact ⟨0, rfl⟩
  | second m s => exact ⟨s, rfl⟩

theorem keptDigits_keeps (g : GeneralizedTime) : g.keptDigits.length = 6 ∨ trimZeros g.keptDigits = g.keptDigits := by
  unfold keptDigits
  cases hk : g.keepsZeros with
  | true =>
    left
    unfold keepsZeros at hk
    split at hk
    · simpa using hk
    · cases hk
  | false => exact .inr (trimZeros_trimZeros _)

def dateText (g : GeneralizedTime) : List Char :=
  twoDigits g.century ++ twoDigits g.year ++ twoDigits (g.month + 1) ++ twoDigits (g.day + 1) ++ twoDigits g.hour ++ g.rest.text

theorem text_eq_date (g : GeneralizedTime) : g.text = g.dateText ++ g.fractionText ++ g.zone.text := rfl

theorem length_dateText : (ofParts parts h s ds hds).dateText.length = 14 := rfl

theorem ofParts_date (hs : parts 6 = (s : ℕ)) : fmt02 (parts 0) ++ fmt02 (parts 1) ++ fmt02 (parts 2 + 1) ++
    fmt02 (parts 3 + 1) ++ fmt02 (parts 4) ++ fmt02 (parts 5) ++ fmt02 (parts 6) = (ofParts parts h s ds hds).dateText := by
  obtain ⟨h0, h1, h2, h3, h4, h5⟩ := id h
  have hlen := monthLength_le (parts 0 * 100 + parts 1) (parts 2)
  have hs60 := s.isLt
  rw [fmt02_eq h0.1 h0.2, fmt02_eq h1.1 h1.2, fmt02_eq (by omega) (by omega), fmt02_eq (by omega) (by omega),
    fmt02_eq h4.1 (by omega), fmt02_eq h5.1 (by omega), fmt02_eq (by omega) (by omega), hs,
    Int.toNat_add h2.1 zero_le_one, Int.toNat_add h3.1 zero_le_one]
  simp only [dateText, ofParts, Rest.text, Int.toNat_natCast, append_assoc]
  rfl

theorem ofParts_text : (ofParts parts h s ds hds).text =
    (ofParts parts h s ds hds).dateText ++ (if ds = [] then [] else '.' :: ds) ++ ['Z'] := by
  rw [text_eq_date, ofParts_fractionText]
  rfl

theorem take_fraction (g : GeneralizedTime) (hne : g.keptDigits ≠ []) :
    ((g.fractionText ++ g.zone.text).take (g.keptDigits.length + 1)).tail = g.keptDigits := by
  have hpre := g.keptDigits_prefix
  cases hf : g.fraction with
  | none =>
    have hd : g.digits = [] := by simp [digits, hf]
    rw [hd, prefix_nil] at hpre
    exact absurd hpre hne
  | some f =>
    have hd : g.digits = f.digits := by simp [digits, hf]
    have ht : g.fractionText = f.mark :: f.digits := by simp [fractionText, hf]
    rw [ht, cons_append, take_succ_cons, tail_cons]
    exact (List.prefix_iff_eq_take.mp ((hd ▸ hpre).trans (prefix_append _ _))).symm

theorem validate_text (g : GeneralizedTime) : generalizedTimeValidate g.text = true ↔ g.InEra := by
  obtain ⟨r, hr, hshift⟩ := g.checkTimeSyntax_text
  rw [generalizedTimeValidate, hr]
  cases r with
  | none => exact iff_of_false (by simp) hshift
  | some parts =>
    have hera : Era g.utcMinute := hshift.2.1 ▸ hshift.1.era
    exact iff_of_true rfl hera

theorem normalize_read (g : GeneralizedTime) (hera : g.InEra) {ds : List Char} (hds : Digits ds)
    (hkeep : ds.length = 6 ∨ trimZeros ds = ds) (hshort : ds.length < 2 ^ 31)
    (hread : readLen (g.keptDigits.length + 1) = if ds = [] then 0 else ds.length + 1)
    (htake : ds ≠ [] → ((g.fractionText ++ g.zone.text).take (ds.length + 1)).tail = ds) :
    ∃ n : GeneralizedTime, n.Normal ∧ generalizedTimeNormalize g.text = .ok n.text ∧ n.utcMinute = g.utcMinute ∧
      n.rest.seconds = g.rest.seconds ∧ n.digits = ds := by
  obtain ⟨r, hr, hshift⟩ := g.checkTimeSyntax_text
  cases r with
  | none => exact absurd hera hshift
  | some parts =>
    obtain ⟨hreg, hmin, hsec⟩ := hshift
    obtain ⟨s, hs⟩ := g.seconds_lt
    refine ⟨ofParts parts hreg s ds hds, ofParts_normal hreg s _ hkeep, ?_, (ofParts_minute hreg s _).trans hmin, hs.symm,
      ofParts_digits hreg s _⟩
    have hdate := ofParts_date hreg s hds (hsec.trans hs)
    unfold generalizedTimeNormalize
    rw [hr, ofParts_text, hread]
    dsimp only [Option.map_some]
    rw [hdate, length_dateText]
    by_cases hnil : ds = []
    · rw [if_pos hnil, if_neg (by omega)]
      simp [hnil]
    · rw [if_neg hnil, if_neg (by omega), if_neg (by omega), if_neg hnil, htake hnil]

theorem normalize_text (g : GeneralizedTime) (hera : g.InEra) (hshort : g.Short) :
    ∃ n : GeneralizedTime, n.Normal ∧ generalizedTimeNormalize g.text = .ok n.text ∧ n.utcMinute = g.utcMinute ∧
      n.rest.seconds = g.rest.seconds ∧ n.digits = g.keptDigits := by
  have hkept : g.keptDigits.length < 2 ^ 31 - 1 := lt_of_le_of_lt g.keptDigits_prefix.length_le hshort
  refine g.normalize_read hera g.keptDigits_ok g.keptDigits_keeps (by omega) ?_ g.take_fraction
  rw [readLen_short hkept]
  simp only [length_eq_zero_iff]

/-! ## Instants -/

variable {g n n' : GeneralizedTime}

theorem instant_of_second (h : g.FractionOfSecond) :
    g.instant = toLex (g.utcMinute, (g.rest.seconds : ℚ) + Decimal.fraction g.digits) := by
  unfold instant
  rcases h with h | ⟨m, s, h⟩
  · have hd : g.digits = [] := by simp [digits, h]
    rw [hd]
    cases g.rest <;> simp [Rest.split, Decimal.fraction]
  · simp [h, Rest.split]

theorem Normal.fractionOfSecond (h : n.Normal) : n.FractionOfSecond := .inr h.second

theorem cmp_toLex (a a' : ℤ) (b b' : ℚ) : cmp (toLex (a, b)) (toLex (a', b')) = (cmp a a').then (cmp b b') := by
  rcases lt_trichotomy a a' with h | rfl | h
  · rw [cmp_eq_lt_iff _ _ |>.mpr h, Ordering.lt_then, cmp_eq_lt_iff, Prod.Lex.toLex_lt_toLex]
    exact .inl h
  · rw [cmp_self_eq_eq, Ordering.eq_then]
    refine cmp_congr ?_ ?_
    · simp [Prod.Lex.toLex_lt_toLex]
    · simp [Prod.Lex.toLex_lt_toLex]
  · rw [cmp_eq_gt_iff _ _ |>.mpr h, Ordering.gt_then, cmp_eq_gt_iff, Prod.Lex.toLex_lt_toLex]
    exact .inl h

theorem cmp_add_fraction (s s' : ℕ) {ds ds' : List Char} (h : Digits ds) (h' : Digits ds') :
    cmp ((s : ℚ) + Decimal.fraction ds) (s' + Decimal.fraction ds') =
      (cmp s s').then (cmp (Decimal.fraction ds) (Decimal.fraction ds')) := by
  have h0 := fraction_nonneg ds
  have h1 := fraction_lt_one h
  have h0' := fraction_nonneg ds'
  have h1' := fraction_lt_one h'
  rcases lt_trichotomy s s' with hlt | rfl | hlt
  · have : (s : ℚ) + 1 ≤ s' := by exact_mod_cast hlt
    rw [cmp_eq_lt_iff _ _ |>.mpr hlt, Ordering.lt_then, cmp_eq_lt_iff]
    linarith
  · rw [cmp_self_eq_eq, Ordering.eq_then, cmp_add_left]
  · have : (s' : ℚ) + 1 ≤ s := by exact_mod_cast hlt
    rw [cmp_eq_gt_iff _ _ |>.mpr hlt, Ordering.gt_then, cmp_eq_gt_iff]
    linarith

theorem cmp_fractionText (h : n.Normal) (h' : n'.Normal) : cmp n.fractionText n'.fractionText = cmp n.digits n'.digits := by
  unfold fractionText digits
  cases hf : n.fraction with
  | none =>
    cases hf' : n'.fraction with
    | none => rfl
    | some f' => cases hd : f'.digits with
      | nil => exact absurd hd f'.ne_nil
      | cons c ds => simp [hd, cmp, cmpUsing]
  | some f =>
    cases hf' : n'.fraction with
    | none => cases hd : f.digits with
      | nil => exact absurd hd f.ne_nil
      | cons c ds => simp [hd, cmp, cmpUsing]
    | some f' =>
      have hmark : f.mark = f'.mark := (h.mark f hf).trans (h'.mark f' hf').symm
      simp only [Option.map_some, Option.getD_some]
      rw [cmp_cons, hmark, cmp_self_eq_eq, Ordering.eq_then]

theorem cmp_dateText (h : n.Normal) (h' : n'.Normal) :
    cmp n.dateText n'.dateText = (cmp n.utcMinute n'.utcMinute).then (cmp n.rest.seconds n'.rest.seconds) := by
  obtain ⟨m, s, hr⟩ := h.second
  obtain ⟨m', s', hr'⟩ := h'.second
  have hl := monthLength_le (n.century * 100 + n.year) n.month
  have hl' := monthLength_le (n'.century * 100 + n'.year) n'.month
  have hd := n.day_lt
  have hd' := n'.day_lt
  have htext : cmp n.dateText n'.dateText = (cmp (n.century : ℕ) n'.century).then ((cmp (n.year : ℕ) n'.year).then
      ((cmp (n.month : ℕ) n'.month).then ((cmp n.day n'.day).then ((cmp (n.hour : ℕ) n'.hour).then
        ((cmp (m : ℕ) m').then (cmp (s : ℕ) s')))))) := by
    unfold dateText
    rw [hr, hr']
    simp only [Rest.text, append_assoc]
    rw [cmp_twoDigits_append (by omega) (by omega), cmp_twoDigits_append (by omega) (by omega),
      cmp_twoDigits_append (by omega) (by omega), cmp_twoDigits_append (by omega) (by omega),
      cmp_twoDigits_append (by omega) (by omega), cmp_twoDigits_append (by omega) (by omega),
      cmp_twoDigits (by omega) (by omega), cmp_add_right, cmp_add_right]
  have hminute : cmp n.utcMinute n'.utcMinute =
      (cmp (n.century : ℕ) n'.century).then ((cmp (n.year : ℕ) n'.year).then ((cmp (n.month : ℕ) n'.month).then
        ((cmp n.day n'.day).then ((cmp (n.hour : ℕ) n'.hour).then (cmp (m : ℕ) m'))))) := by
    unfold utcMinute
    rw [h.utc, h'.utc, hr, hr']
    simp only [Rest.minutes, Zone.minutes, sub_zero]
    rw [cmp_mul_add (by omega) (by omega) (by omega) (by omega), cmp_mul_add (by omega) (by omega) (by omega) (by omega),
      cmp_dayNumber ⟨by omega, by omega⟩ ⟨by omega, hd⟩ ⟨by omega, by omega⟩ ⟨by omega, hd'⟩,
      cmp_mul_add (by omega) (by omega) (by omega) (by omega)]
    simp only [cmp_natCast, Ordering.then_assoc]
  rw [htext, hminute, hr, hr']
  simp only [Rest.seconds, cmp_natCast, Ordering.then_assoc]

theorem Normal.length_date (h : n.Normal) : n.dateText.length = 14 := by
  obtain ⟨m, s, hr⟩ := h.second
  rw [dateText, hr]
  rfl

theorem cmp_text (h : n.Normal) (h' : n'.Normal) : cmp (n.dateText ++ n.fractionText) (n'.dateText ++ n'.fractionText) =
      (cmp n.instant n'.instant).then (cmp n.digits.length n'.digits.length) := by
  obtain ⟨s, hs⟩ := n.seconds_lt
  obtain ⟨s', hs'⟩ := n'.seconds_lt
  rw [cmp_append (h.length_date.trans h'.length_date.symm), cmp_dateText h h', cmp_fractionText h h',
    cmp_digits n.digits_ok n'.digits_ok, instant_of_second h.fractionOfSecond, instant_of_second h'.fractionOfSecond,
    cmp_toLex, hs, hs', Int.cast_natCast, Int.cast_natCast, cmp_add_fraction _ _ n.digits_ok n'.digits_ok, cmp_natCast]
  simp only [Ordering.then_assoc]

theorem Normal.text_eq (h : n.Normal) : n.text = (n.dateText ++ n.fractionText) ++ ['Z'] := by
  rw [text_eq_date, h.utc]
  rfl

theorem Normal.length_body (h : n.Normal) :
    14 ≤ (n.dateText ++ n.fractionText).length ∧ (n.dateText ++ n.fractionText).length ≤ 15 + n.digits.length := by
  rw [length_append, h.length_date, fractionText, GeneralizedTime.digits]
  cases n.fraction <;> simp
  omega

theorem orderingMatch_text (h : n.Normal) (h' : n'.Normal) (hs : n.Short) (hs' : n'.Short) :
    cmp (generalizedTimeOrderingMatch false n.text n'.text) 0 =
      (cmp n.instant n'.instant).then (cmp n.digits.length n'.digits.length) := by
  have hlen := h.length_body
  have hlen' := h'.length_body
  unfold Short at hs hs'
  rw [← cmp_text h h', h.text_eq, h'.text_eq]
  generalize n.dateText ++ n.fractionText = a at hlen ⊢
  generalize n'.dateText ++ n'.fractionText = b at hlen' ⊢
  have hmin : min (a ++ ['Z']).length (b ++ ['Z']).length - 1 = min a.length b.length := by
    rw [length_append, length_append, length_singleton, Nat.add_min_add_right, Nat.add_sub_cancel]
  have hint : toInt (((a ++ ['Z']).length : ℤ) - (b ++ ['Z']).length) = a.length - b.length := by
    rw [length_append, length_append, length_singleton, toInt, Int.bmod_eq_of_le (by omega) (by omega)]
    omega
  have hdiff : cmp ((a.length : ℤ) - b.length) 0 = cmp a.length b.length := cmp_congr (by omega) (by omega)
  unfold generalizedTimeOrderingMatch
  dsimp only
  rw [hmin, hint, take_append_of_le_length (min_le_left _ _), take_append_of_le_length (min_le_right _ _),
    Sync.memcmp_eq_cmp, ← cmp_take a b, ← hdiff]
  cases cmp (a.take (min a.length b.length)) (b.take (min a.length b.length)) with
  | lt => rfl
  | eq => rfl
  | gt => rfl

theorem Normal.inEra (h : n.Normal) : n.InEra := by
  have hera : Era (minuteOf n.localParts) := n.localParts_regular.era
  rwa [n.localParts_minute, h.utc, Zone.minutes, add_zero] at hera

theorem instant_normal (h : n.Normal) (hg : g.FractionOfSecond) (hmin : n.utcMinute = g.utcMinute)
    (hsec : n.rest.seconds = g.rest.seconds) (hds : n.digits = g.keptDigits) : n.instant = g.instant := by
  rw [instant_of_second h.fractionOfSecond, instant_of_second hg, hmin, hsec, hds, fraction_keptDigits]

theorem Normal.text_inj (h : n.Normal) (h' : n'.Normal) :
    n.text = n'.text ↔ n.instant = n'.instant ∧ n.digits.length = n'.digits.length := by
  have hcmp := cmp_text h h'
  rw [h.text_eq, h'.text_eq, append_left_inj]
  constructor
  · intro heq
    rw [(cmp_eq_iff _ _).mpr heq, eq_comm, Ordering.then_eq_eq, cmp_eq_eq_iff, cmp_eq_eq_iff] at hcmp
    exact hcmp
  · rintro ⟨hi, hl⟩
    rw [hi, hl, cmp_self_eq_eq, cmp_self_eq_eq] at hcmp
    exact (cmp_eq_iff _ _).mp hcmp

def KeptZeros (g : GeneralizedTime) : Prop := trimZeros g.keptDigits ≠ g.keptDigits

theorem Normal.normalize (h : n.Normal) (hs : n.Short) : generalizedTimeNormalize n.text = .ok n.text := by
  obtain ⟨n', h', hn', hmin, hsec, hds⟩ := n.normalize_text h.inEra hs
  have htext : n'.text = n.text :=
    (h'.text_inj h).mpr ⟨instant_normal h' h.fractionOfSecond hmin hsec hds, by rw [hds, h.digits]⟩
  rw [hn', htext]

theorem instant_inj {g' : GeneralizedTime} (hg : g.FractionOfSecond) (hg' : g'.FractionOfSecond)
    (h : g.instant = g'.instant) : trimZeros g.digits = trimZeros g'.digits := by
  obtain ⟨s, hs⟩ := g.seconds_lt
  obtain ⟨s', hs'⟩ := g'.seconds_lt
  rw [instant_of_second hg, instant_of_second hg', hs, hs'] at h
  have hsec := (Prod.mk.inj (toLex.injective h)).2
  simp only [Int.cast_natCast] at hsec
  have hcmp := cmp_add_fraction s s' g.digits_ok g'.digits_ok
  rw [hsec, cmp_self_eq_eq, eq_comm, Ordering.then_eq_eq, cmp_eq_eq_iff, cmp_eq_eq_iff] at hcmp
  exact trimZeros_eq_of_fraction_eq g.digits_ok g'.digits_ok hcmp.2

theorem trimZeros_keptDigits (g : GeneralizedTime) : trimZeros g.keptDigits = trimZeros g.digits := by
  unfold keptDigits
  split_ifs
  · rfl
  · exact trimZeros_trimZeros _

theorem KeptZeros.length (h : g.KeptZeros) : g.keptDigits.length = 6 ∧ (trimZeros g.keptDigits).length < 6 := by
  have h6 := g.keptDigits_keeps.resolve_right h
  have hpre := trimZeros_prefix g.keptDigits
  refine ⟨h6, lt_of_le_of_ne (h6 ▸ hpre.length_le) fun hlen => h ?_⟩
  exact hpre.eq_of_length (hlen.trans h6.symm)

theorem normalize_eq_iff {g' : GeneralizedTime} (hera : g.InEra) (hera' : g'.InEra) (hs : g.Short) (hs' : g'.Short)
    (hg : g.FractionOfSecond) (hg' : g'.FractionOfSecond) (h : g.instant = g'.instant) :
    generalizedTimeNormalize g.text = generalizedTimeNormalize g'.text ↔ (g.KeptZeros ↔ g'.KeptZeros) := by
  obtain ⟨n, hn, htext, hmin, hsec, hds⟩ := g.normalize_text hera hs
  obtain ⟨n', hn', htext', hmin', hsec', hds'⟩ := g'.normalize_text hera' hs'
  have hinst : n.instant = n'.instant := by
    rw [instant_normal hn hg hmin hsec hds, instant_normal hn' hg' hmin' hsec' hds', h]
  have htrim : trimZeros g.keptDigits = trimZeros g'.keptDigits := by
    rw [trimZeros_keptDigits, trimZeros_keptDigits, instant_inj hg hg' h]
  rw [htext, htext', Except.ok.injEq, hn.text_inj hn', hds, hds', and_iff_right hinst]
  by_cases hk : g.KeptZeros
  · have hlen := hk.length
    by_cases hk' : g'.KeptZeros
    · exact iff_of_true (hlen.1.trans hk'.length.1.symm) (iff_of_true hk hk')
    · have heq : trimZeros g'.keptDigits = g'.keptDigits := not_not.mp hk'
      rw [htrim, heq] at hlen
      exact iff_of_false (by omega) fun hiff => hk' (hiff.mp hk)
  · have heq : trimZeros g.keptDigits = g.keptDigits := not_not.mp hk
    by_cases hk' : g'.KeptZeros
    · have hlen := hk'.length
      rw [← htrim, heq] at hlen
      exact iff_of_false (by omega) fun hiff => hk (hiff.mpr hk')
    · have heq' : trimZeros g'.keptDigits = g'.keptDigits := not_not.mp hk'
      rw [heq, heq'] at htrim
      exact iff_of_true (congrArg List.length htrim) (iff_of_false hk hk')

end GeneralizedTime

open GeneralizedTime

/-- Normalization is canonical up to a fraction of an hour or a minute, and up to the zeros it keeps. -/
theorem generalized_time_canonical :
    (∀ val, generalizedTimeValidate val = true ↔ ∃ g : GeneralizedTime, g.text = val ∧ g.InEra) ∧
    (∀ g : GeneralizedTime, g.InEra → g.Short → ∃ n : GeneralizedTime, n.Normal ∧ generalizedTimeNormalize g.text = .ok n.text ∧
      (g.FractionOfSecond → n.instant = g.instant) ∧ generalizedTimeValidate n.text = true ∧
      generalizedTimeNormalize n.text = .ok n.text) ∧
    (∀ g g' : GeneralizedTime, g.InEra → g'.InEra → g.Short → g'.Short → g.FractionOfSecond → g'.FractionOfSecond →
      g.instant = g'.instant →
      (generalizedTimeNormalize g.text = generalizedTimeNormalize g'.text ↔ (g.KeptZeros ↔ g'.KeptZeros))) ∧
    (∀ n n' : GeneralizedTime, n.Normal → n'.Normal → n.Short → n'.Short →
      cmp (generalizedTimeOrderingMatch false n.text n'.text) 0 =
        (cmp n.instant n'.instant).then (cmp n.digits.length n'.digits.length)) := by
  refine ⟨fun val => ⟨fun h => ?_, ?_⟩, fun g hera hs => ?_, fun g g' => normalize_eq_iff, fun n n' => orderingMatch_text⟩
  · obtain ⟨g, rfl⟩ := checkTimeSyntax_inv h
    exact ⟨g, rfl, g.validate_text.mp h⟩
  · rintro ⟨g, rfl, hera⟩
    exact g.validate_text.mpr hera
  · obtain ⟨n, hn, htext, hmin, hsec, hds⟩ := g.normalize_text hera hs
    have hshort : n.Short := lt_of_le_of_lt (hds ▸ g.keptDigits_prefix.length_le) hs
    exact ⟨n, hn, htext, fun hg => instant_normal hn hg hmin hsec hds, n.validate_text.mpr hn.inEra, hn.normalize hshort⟩

def noon (rest : Rest) (ds : List Char) (hne : ds ≠ []) (hds : Digits ds) (zone : Zone) : GeneralizedTime where
  century := 20
  year := 20
  month := 0
  day := 0
  day_lt := by decide
  hour := 12
  rest := rest
  fraction := some ⟨'.', .inl rfl, ds, hne, hds⟩
  zone := zone

def half : List Char := ['5']

def halfKept : List Char := ['5', '0', '0', '0', '0', '0']

theorem digits_half : Digits half := by decide

theorem digits_halfKept : Digits halfKept := by decide

example : (noon .hour half (by decide) digits_half .utc).text = "2020010112.5Z".toList := by decide

theorem generalized_time_canonical_zone : ∃ n : GeneralizedTime, n.Normal ∧
    generalizedTimeNormalize (noon (.second 0 0) half (by decide) digits_half (.offset true 1 (some 30))).text = .ok n.text ∧
    n.instant = (noon (.second 0 0) half (by decide) digits_half (.offset true 1 (some 30))).instant := by
  obtain ⟨-, h, -⟩ := generalized_time_canonical
  obtain ⟨n, hn, htext, hinst, -⟩ := h (noon (.second 0 0) half (by decide) digits_half (.offset true 1 (some 30)))
    ⟨by decide, by decide⟩ (by unfold Short; decide)
  exact ⟨n, hn, htext, hinst (.inr ⟨0, 0, rfl⟩)⟩

theorem trimZeros_ones (n : ℕ) : trimZeros (List.replicate n '1') = List.replicate n '1' := by
  induction n with
  | zero => rfl
  | succ n ih => rw [replicate_succ, trimZeros, ih, if_neg (by simp)]

theorem digits_ones (n : ℕ) : Digits (List.replicate n '1') := by
  intro c hc
  rw [eq_of_mem_replicate hc]
  decide

theorem normalize_long {n : ℕ} (hne : List.replicate n '1' ≠ []) (hn : n + 1 = 2 ^ 32) : ∃ t : GeneralizedTime, t.Normal ∧
    generalizedTimeNormalize (noon (.second 0 0) (List.replicate n '1') hne (digits_ones n) .utc).text = .ok t.text ∧
    t.instant ≠ (noon (.second 0 0) (List.replicate n '1') hne (digits_ones n) .utc).instant := by
  have hminute : (noon (.second 0 0) (List.replicate n '1') hne (digits_ones n) .utc).utcMinute =
      (noon (.second 0 0) half (by decide) digits_half .utc).utcMinute := rfl
  have hera : (noon (.second 0 0) (List.replicate n '1') hne (digits_ones n) .utc).InEra := by
    rw [InEra, hminute]
    exact ⟨by decide, by decide⟩
  have hsecond : (noon (.second 0 0) (List.replicate n '1') hne (digits_ones n) .utc).FractionOfSecond := .inr ⟨0, 0, rfl⟩
  have hdigits : (noon (.second 0 0) (List.replicate n '1') hne (digits_ones n) .utc).digits = List.replicate n '1' := rfl
  generalize noon (.second 0 0) (List.replicate n '1') hne (digits_ones n) .utc = g at hera hsecond hdigits ⊢
  have hkept : g.keptDigits = List.replicate n '1' := by
    rw [keptDigits, hdigits, trimZeros_ones, ite_self]
  have hread : readLen (g.keptDigits.length + 1) = 0 := by
    rw [hkept, length_replicate, hn]
    decide
  obtain ⟨t, ht, htext, hmin, hsec, hds⟩ := g.normalize_read hera (forall_mem_nil _) (.inr rfl) (by decide)
    (hread.trans (if_pos rfl).symm) (absurd rfl)
  refine ⟨t, ht, htext, fun heq => hne ?_⟩
  have htrim := instant_inj ht.fractionOfSecond hsecond heq
  rwa [hds, hdigits, trimZeros_ones, eq_comm] at htrim

/-- A fraction of an hour, the zeros that are kept, and a fraction that is too long. -/
theorem generalized_time_not_canonical :
    (∃ n : GeneralizedTime, n.Normal ∧ generalizedTimeNormalize (noon .hour half (by decide) digits_half .utc).text = .ok n.text ∧
      n.instant ≠ (noon .hour half (by decide) digits_half .utc).instant) ∧
    ((noon (.second 0 0) half (by decide) digits_half .utc).instant =
        (noon (.second 0 0) halfKept (by decide) digits_halfKept .utc).instant ∧
      generalizedTimeNormalize (noon (.second 0 0) half (by decide) digits_half .utc).text ≠
        generalizedTimeNormalize (noon (.second 0 0) halfKept (by decide) digits_halfKept .utc).text) ∧
    ∃ (n : ℕ) (hne : List.replicate n '1' ≠ []) (t : GeneralizedTime), t.Normal ∧
      generalizedTimeNormalize (noon (.second 0 0) (List.replicate n '1') hne (digits_ones n) .utc).text = .ok t.text ∧
      t.instant ≠ (noon (.second 0 0) (List.replicate n '1') hne (digits_ones n) .utc).instant := by
  have hhalf : Decimal.fraction half = 1 / 2 := by
    rw [half, Decimal.fraction, Decimal.fraction, show value '5' = 5 from rfl]
    norm_num
  have hinst : (noon (.second 0 0) half (by decide) digits_half .utc).instant =
      (noon (.second 0 0) halfKept (by decide) digits_halfKept .utc).instant := by
    have hfrac : Decimal.fraction halfKept = Decimal.fraction half := by
      rw [← fraction_trimZeros]
      rfl
    rw [instant_of_second (.inr ⟨0, 0, rfl⟩), instant_of_second (.inr ⟨0, 0, rfl⟩)]
    exact congrArg (fun f => toLex (_, (0 : ℚ) + f)) hfrac.symm
  refine ⟨?_, ⟨hinst, ?_⟩, ?_⟩
  · obtain ⟨n, hn, htext, hmin, -⟩ := normalize_text (noon .hour half (by decide) digits_half .utc) ⟨by decide, by decide⟩
      (by unfold Short; decide)
    refine ⟨n, hn, htext, fun heq => ?_⟩
    rw [instant_of_second hn.fractionOfSecond, hmin] at heq
    have hfloor := (Prod.mk.inj (toLex.injective heq)).1
    have hthirty : ⌊60 * Decimal.fraction half⌋ = 30 := by
      rw [hhalf]
      norm_num
    change _ = _ + ⌊60 * Decimal.fraction half⌋ at hfloor
    omega
  · rw [ne_eq, normalize_eq_iff ⟨by decide, by decide⟩ ⟨by decide, by decide⟩ (by unfold Short; decide)
      (by unfold Short; decide) (.inr ⟨0, 0, rfl⟩) (.inr ⟨0, 0, rfl⟩) hinst]
    unfold KeptZeros
    decide
  · obtain ⟨n, hn⟩ : ∃ n, n + 1 = 2 ^ 32 := ⟨2 ^ 32 - 1, rfl⟩
    have hne : List.replicate n '1' ≠ [] := by
      rw [ne_eq, replicate_eq_nil_iff]
      omega
    exact ⟨n, hne, normalize_long hne hn⟩

end Slapd
end ReOpenLDAP
