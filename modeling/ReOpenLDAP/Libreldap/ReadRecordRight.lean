import ReOpenLDAP.Libreldap.ReadRecord

/-!
# Libreldap.ReadRecordRight

The records that `ldif_read_record` returns.

* `fgets_spec`, `squash_concat` — what a piece is.
-/

namespace ReOpenLDAP
namespace Libreldap
namespace ReadRecord

open Ascii List

theorem fgets_cons (n : ℕ) (c : Octet) (file : List Octet) : fgets (n + 1) (c :: file) =
    if c = NL then ([c], file, false) else (c :: (fgets n file).1, (fgets n file).2) := rfl

theorem fgets_append (n : ℕ) (file : List Octet) : (fgets n file).1 ++ (fgets n file).2.1 = file := by
  induction n generalizing file with
  | zero => rfl
  | succ n ih =>
    cases file with
    | nil => rfl
    | cons c file =>
      rw [fgets_cons]
      split
      · rfl
      · simp [ih file]

theorem fgets_eof {n : ℕ} {file : List Octet} (h : (fgets n file).2.2 = true) : (fgets n file).2.1 = [] := by
  induction n generalizing file with
  | zero => cases h
  | succ n ih =>
    cases file with
    | nil => rfl
    | cons c file =>
      rw [fgets_cons] at h ⊢
      split at h
      · cases h
      · rename_i hc
        rw [if_neg hc]
        exact ih h

theorem fgets_newline (n : ℕ) (file : List Octet) : NL ∉ (fgets n file).1.dropLast := by
  induction n generalizing file with
  | zero => exact not_mem_nil
  | succ n ih =>
    cases file with
    | nil => exact not_mem_nil
    | cons c file =>
      rw [fgets_cons]
      split
      · exact not_mem_nil
      · rename_i hc
        intro h
        cases hrest : (fgets n file).1 with
        | nil => simp [hrest] at h
        | cons d line =>
          have := ih file
          rw [hrest] at this
          simp only [hrest, dropLast_cons_cons, mem_cons] at h
          exact h.elim (fun h => hc h.symm) this

theorem fgets_nil {n : ℕ} {file : List Octet} (hn : 0 < n) (h : (fgets n file).1 = []) : file = [] := by
  cases n with
  | zero => omega
  | succ n =>
    cases file with
    | nil => rfl
    | cons c file =>
      rw [fgets_cons] at h
      split at h <;> cases h

theorem squash_concat (p : List Octet) (c : Octet) : squash (p ++ [c]) =
    if p.getLast? = some CR then (p.dropLast ++ [NL, c], p.length) else (p ++ [c], p.length + 1) := by
  rcases eq_nil_or_concat p with rfl | ⟨q, d, hp⟩
  · simp [squash]
  · rw [concat_eq_append] at hp
    subst hp
    have hget : (q ++ [d] ++ [c])[(q ++ [d] ++ [c]).length - 2]? = some d := by simp
    have hset : (q ++ [d] ++ [c]).set ((q ++ [d] ++ [c]).length - 2) NL = q ++ [NL, c] := by simp
    rw [squash, hget, hset]
    simp

variable {p rest raw : List Octet} {r : Reader}

theorem lines_open (hp : p ≠ []) (hnl : NL ∉ p) (hcr : p.getLast? = some CR → rest.head? ≠ some NL) :
    lines (p ++ rest) = (p ++ (lines rest).headD []) :: (lines rest).tail := by
  induction p with
  | nil => exact absurd rfl hp
  | cons c p ih =>
    have hc : c ≠ NL := fun h => hnl (h ▸ mem_cons_self)
    rw [cons_append, lines, if_neg hc]
    cases p with
    | nil => rw [if_neg fun h => hcr (by simp [h.1]) h.2]; rfl
    | cons d p =>
      have hd : d ≠ NL := fun h => hnl (h ▸ by simp)
      rw [if_neg fun h => hd (by simpa using h.2),
        ih (by simp) (fun h => hnl (mem_cons_of_mem _ h)) (by simpa [List.getLast?_cons_cons] using hcr)]
      rfl

theorem lines_ended (hnl : NL ∉ p) (hcr : p.getLast? ≠ some CR) (rest : List Octet) :
    lines (p ++ NL :: rest) = p :: lines rest := by
  have hend : lines (NL :: rest) = [] :: lines rest := by rw [lines, if_pos rfl]
  by_cases hp : p = []
  · rw [hp]
    exact hend
  · rw [lines_open hp hnl fun h => absurd h hcr, hend]
    simp

theorem lines_crlf (hnl : NL ∉ p) (rest : List Octet) : lines (p ++ CR :: NL :: rest) = p :: lines rest := by
  have hend : lines (CR :: NL :: rest) = [] :: lines rest := by
    rw [lines, if_neg (by decide), if_pos ⟨rfl, rfl⟩, lines, if_pos rfl]
  by_cases hp : p = []
  · rw [hp]
    exact hend
  · rw [lines_open hp hnl fun _ => (show (CR :: NL :: rest).head? ≠ some NL by simp [CR, NL]), hend]
    simp

theorem piece_cases (hraw : raw ≠ []) (hnl : NL ∉ raw.dropLast) (hok : PieceOk r raw rest) :
    (∃ p extra, NL ∉ p ∧ squash raw = (p ++ NL :: extra, p.length + 1) ∧ raw.length = p.length + 1 + extra.length ∧
      extra.length ≤ 1 ∧ lines (raw ++ rest) = p :: lines rest) ∨
    (NL ∉ raw ∧ squash raw = (raw, raw.length) ∧
      lines (raw ++ rest) = (raw ++ (lines rest).headD []) :: (lines rest).tail) := by
  obtain ⟨p, c, hp⟩ := (eq_nil_or_concat raw).resolve_left hraw
  rw [concat_eq_append] at hp
  subst hp
  rw [dropLast_concat] at hnl
  have hsq := squash_concat p c
  by_cases hc : c = NL
  · subst hc
    left
    by_cases hcr : p.getLast? = some CR
    · obtain ⟨q, rfl⟩ : ∃ q, p = q ++ [CR] := by
        have hp : p ≠ [] := by
          rintro rfl
          cases hcr
        refine ⟨p.dropLast, ?_⟩
        rw [List.getLast?_eq_some_getLast hp, Option.some.injEq] at hcr
        rw [← hcr, dropLast_append_getLast hp]
      refine ⟨q, [NL], fun h => hnl (by simp [h]), ?_, by simp, le_refl 1, ?_⟩
      · rw [hsq, if_pos hcr]
        simp
      · rw [← lines_crlf fun h => hnl (by simp [h])]
        simp
    · refine ⟨p, [], hnl, ?_, by simp, Nat.zero_le 1, ?_⟩
      · rw [hsq, if_neg hcr]
      · rw [← lines_ended hnl hcr]
        simp
  · right
    have hwhole : NL ∉ p ++ [c] := by
      simp only [mem_append, mem_singleton, not_or]
      exact ⟨hnl, fun h => hc h.symm⟩
    have hlen : (squash (p ++ [c])).2 = (p ++ [c]).length := by
      by_contra h
      exact hc (by simpa using hok.cr h)
    refine ⟨hwhole, ?_, lines_open (by simp) hwhole hok.whole⟩
    rw [hsq] at hlen ⊢
    split at hlen
    · simp at hlen
    · rename_i hcr
      rw [if_neg hcr]
      simp

/-- A record so far: its text, whether there is an entry, and whether there are comments in front of it. -/
structure Part where
  text : List Octet
  found : Bool
  top : Bool

namespace Part

def empty : Part := ⟨[], false, false⟩

def add (s : Part) (l : List Octet) : Part :=
  if s.found then { s with text := s.text ++ (l ++ [NL]) }
  else if startsWith HASH l then { s with text := s.text ++ (l ++ [NL]), top := true }
  else if s.top && startsWith SP l then { s with text := s.text ++ (l ++ [NL]) }
  else if startsWithDigit l then { s with found := true }
  else { s with text := s.text ++ (l ++ [NL]), found := true }

def result (s : Part) : Option (List Octet) := if s.found then some s.text else none

theorem foldl_found (t : List Octet) (top : Bool) (ls : List (List Octet)) :
    (ls.foldl add ⟨t, true, top⟩).result = some (t ++ textOf ls) := by
  induction ls generalizing t with
  | nil => simp [result, textOf]
  | cons l ls ih =>
    rw [foldl_cons, add, if_pos rfl, ih]
    simp [textOf]

theorem foldl_top (t : List Octet) (ls : List (List Octet)) : (ls.foldl add ⟨t, false, true⟩).result =
    match ls.drop (ls.takeWhile fun l => startsWith HASH l || startsWith SP l).length with
    | [] => none
    | l :: more => some (t ++ textOf (ls.takeWhile (fun l => startsWith HASH l || startsWith SP l) ++
        if startsWithDigit l then more else l :: more)) := by
  induction ls generalizing t with
  | nil => rfl
  | cons l ls ih =>
    rw [foldl_cons, add, if_neg (by simp), Bool.true_and]
    cases hhash : startsWith HASH l
    · cases hsp : startsWith SP l
      · cases hdigit : startsWithDigit l <;> simp [hhash, hsp, hdigit, foldl_found, textOf]
      · simp [hhash, hsp, ih, textOf]
    · simp [hhash, ih, textOf]

theorem foldl_empty (block : List (List Octet)) : (block.foldl add empty).result = record block := by
  cases block with
  | nil => rfl
  | cons l ls =>
    rw [record, topLines, headD_cons, foldl_cons, add, if_neg (by simp [empty])]
    cases hhash : startsWith HASH l
    · cases hdigit : startsWithDigit l <;> simp [hdigit, empty, foldl_found, textOf]
    · rw [if_pos rfl, if_pos rfl]
      simp only [empty, foldl_top]
      simp [hhash, textOf] <;> rfl

end Part

def group (s : Part) : List (List Octet) → List (List Octet)
  | [] => s.result.toList
  | l :: ls => if l = [] then s.result.toList ++ group .empty ls else group (s.add l) ls

theorem group_split (s : Part) (ls : List (List Octet)) : ∃ block blocks, ls.splitOn [] = block :: blocks ∧
    group s ls = (block.foldl Part.add s).result.toList ++ blocks.filterMap record := by
  induction ls generalizing s with
  | nil => exact ⟨[], [], splitOn_nil _, (List.append_nil _).symm⟩
  | cons l ls ih =>
    have hcons : (l :: ls).splitOn [] = if l = [] then [] :: ls.splitOn [] else (ls.splitOn []).modifyHead (l :: ·) := by
      rw [List.splitOn, splitOnP_cons_eq_if_modifyHead]
      simp only [beq_iff_eq]
      rfl
    rw [hcons, group]
    by_cases hl : l = []
    · obtain ⟨block, blocks, hsplit, hgroup⟩ := ih .empty
      refine ⟨[], block :: blocks, by rw [if_pos hl, hsplit], ?_⟩
      rw [if_pos hl, hgroup, Part.foldl_empty]
      cases hrec : record block <;> simp [hrec]
    · obtain ⟨block, blocks, hsplit, hgroup⟩ := ih (s.add l)
      refine ⟨l :: block, blocks, by rw [if_neg hl, hsplit, modifyHead_cons], ?_⟩
      rw [if_neg hl, hgroup, foldl_cons]

theorem group_eq (file : List Octet) : group .empty (lines file) = records file := by
  obtain ⟨block, blocks, hsplit, hgroup⟩ := group_split .empty (lines file)
  rw [records, hsplit, hgroup, Part.foldl_empty]
  cases hrec : record block <;> simp [hrec]

/-! ## The buffer -/

/-- The string in the buffer is inside, and `lcur` in it. -/
structure Room (r : Reader) : Prop where
  int : r.buflen < 2 ^ 31
  null : r.bufp = none → r.buflen = 0 ∧ r.lcur = 0
  inside : ∀ s ∈ r.bufp, s.length < r.buflen ∧ r.lcur ≤ s.length

def kept (r : Reader) : List Octet := (r.bufp.getD []).take r.lcur

theorem Room.length_kept (h : Room r) : (kept r).length = r.lcur ∧ r.lcur ≤ r.buflen := by
  unfold kept
  cases hb : r.bufp with
  | none =>
    have := h.null hb
    simp only [Option.getD_none, take_nil, length_nil]
    omega
  | some s =>
    have := h.inside s hb
    simp only [Option.getD_some, length_take]
    omega

theorem kept_exact (h : Exact r) : r.bufp = some (kept r) := by
  obtain ⟨s, hs, hlen⟩ := h
  rw [kept, hs, Option.getD_some, take_of_length_le hlen.le]

/-- After `strcpy`, in a block of `b` bytes. -/
def stored (r : Reader) (line : List Octet) (len b : ℕ) : Reader :=
  { r with bufp := some (kept r ++ line), buflen := b, lcur := r.lcur + len, lastCh := line.getD (len - 1) 0 }

theorem copy_spec {r : Reader} (h : Room r) {line : List Octet} {len : ℕ} (hle : len ≤ line.length) (hext : line.length ≤ len + 1)
    (hroom : line.length ≠ len → r.buflen - r.lcur ≠ len + 1)
    (hint : r.buflen - r.lcur ≤ len → r.buflen + len + LDIF_MAXLINE < 2 ^ 31) :
    ∃ b, copy r line len = .next (stored r line len b) ∧ b < 2 ^ 31 ∧ r.lcur + line.length < b := by
  obtain ⟨hkept, hcur⟩ := h.length_kept
  have hsmall := h.int
  obtain ⟨b, hb, hblt, hbroom⟩ : ∃ b : ℕ, grown r len = b ∧ b < 2 ^ 31 ∧ r.lcur + line.length < b := by
    unfold grown
    split
    · rename_i hfull
      have := hint hfull
      have hmax : LDIF_MAXLINE = 4096 := rfl
      exact ⟨r.buflen + len + LDIF_MAXLINE, Int.bmod_eq_of_le (by omega) (by omega), this, by omega⟩
    · refine ⟨r.buflen, rfl, hsmall, ?_⟩
      by_cases hsame : line.length = len
      · omega
      · have := hroom hsame
        omega
  refine ⟨b, ?_, hblt, hbroom⟩
  rw [copy, hb, if_neg (by omega), if_neg (by omega), Int.toNat_natCast]
  rfl

theorem Room.stored {r : Reader} {line : List Octet} {len b : ℕ} (h : Room r) (hle : len ≤ line.length) (hb : b < 2 ^ 31)
    (hroom : r.lcur + line.length < b) : Room (stored r line len b) ∧ kept (stored r line len b) = kept r ++ line.take len ∧
      (line.length = len → Exact (stored r line len b)) := by
  obtain ⟨hkept, -⟩ := h.length_kept
  refine ⟨⟨hb, (by nofun), ?_⟩, ?_, ?_⟩
  · intro s hs
    obtain rfl := Option.some.inj hs
    simp only [ReadRecord.stored, length_append]
    omega
  · change ((kept r ++ line).take (r.lcur + len)) = _
    rw [← hkept, take_length_add_append]
  · intro hsame
    exact ⟨kept r ++ line, rfl, by simp only [ReadRecord.stored, length_append]; omega⟩

structure Inv (r : Reader) : Prop extends Room r where
  eof : r.feof = true → r.rest = []
  exact : r.lastCh ≠ NL → Exact r
  ends : r.lastCh = NL → r.foundEntry = true → EndsBlock r.rest → Exact r
  included : ∀ l ∈ if r.lastCh = NL then lines r.rest else (lines r.rest).tail, isInclude l = false

def part (r : Reader) : Part := ⟨kept r, r.foundEntry, r.topComment⟩

def owed (r : Reader) : List (List Octet) :=
  if r.lastCh = NL then group (part r) (lines r.rest)
  else group ⟨kept r ++ ((lines r.rest).headD [] ++ [NL]), r.foundEntry, r.topComment⟩ (lines r.rest).tail

/-- What the calls have returned and will return is the same, and there is less to do. -/
structure Goes (r r' : Reader) : Prop where
  inv : Inv r'
  records : r'.returned ++ (owed r').map some = r.returned ++ (owed r).map some
  less : 2 * r'.rest.length + r'.foundEntry.toNat < 2 * r.rest.length + r.foundEntry.toNat

theorem copied (h : Room r) (hraw : raw ≠ []) (hnl : NL ∉ raw.dropLast) {rc : Reader}
    (hok : PieceOk rc raw r.rest) (hbuflen : rc.buflen = r.buflen) (hlcur : rc.lcur = r.lcur)
    (hcopied : kind rc (squash raw).1 ∈ [.more, .comment, .entry])
    (hlast : r.foundEntry = true → EndsBlock r.rest → (squash raw).2 = raw.length) (heof : r.feof = true → r.rest = [])
    (hinc : ∀ l ∈ (lines (raw ++ r.rest)).tail, isInclude l = false) :
    ∃ r', copy r (squash raw).1 (squash raw).2 = .next r' ∧ Inv r' ∧ r'.returned = r.returned ∧ r'.rest = r.rest ∧
      r'.foundEntry = r.foundEntry ∧ owed r' =
        group ⟨kept r ++ ((lines (raw ++ r.rest)).headD [] ++ [NL]), r.foundEntry, r.topComment⟩ (lines (raw ++ r.rest)).tail := by
  have hroom := fun hne => hok.room hne hcopied
  have hint := hok.int hcopied
  rw [hbuflen, hlcur] at hroom hint
  rcases piece_cases hraw hnl hok with ⟨p, extra, hp, hsq, hlen, hextra, hlines⟩ | ⟨hopen, hsq, hlines⟩
  · rw [hsq] at hroom hint hlast ⊢
    simp only at hroom hint hlast ⊢
    have hlength : (p ++ NL :: extra).length = raw.length := by
      simp only [length_append, length_cons]
      omega
    obtain ⟨b, hcopy, hb, hroomb⟩ := @copy_spec r h (p ++ NL :: extra) (p.length + 1) (by omega) (by omega)
      (fun hne => hroom (by omega)) hint
    refine ⟨_, hcopy, ?_⟩
    obtain ⟨hroom', hkept, hexact⟩ := @Room.stored r (p ++ NL :: extra) (p.length + 1) b h (by omega) hb hroomb
    have hnewline : (stored r (p ++ NL :: extra) (p.length + 1) b).lastCh = NL := by simp [stored]
    refine ⟨⟨hroom', heof, fun hne => absurd hnewline hne, ?_, ?_⟩, rfl, rfl, rfl, ?_⟩
    · intro _ hfound hends
      exact hexact (by have := hlast hfound hends; omega)
    · rw [if_pos hnewline]
      rw [hlines] at hinc
      exact hinc
    · have htake : (p ++ NL :: extra).take (p.length + 1) = p ++ [NL] := take_length_add_append 1
      rw [owed, if_pos hnewline, part, hkept, hlines, htake]
      simp [stored]
  · rw [hsq] at hroom hint hlast ⊢
    simp only at hroom hint hlast ⊢
    obtain ⟨b, hcopy, hb, hroomb⟩ := copy_spec h (le_refl raw.length) (by omega) (fun hne => absurd rfl hne) hint
    refine ⟨_, hcopy, ?_⟩
    obtain ⟨hroom', hkept, hexact⟩ := h.stored (le_refl raw.length) hb hroomb
    have hnewline : (stored r raw raw.length b).lastCh ≠ NL := by
      have hlastCh : (stored r raw raw.length b).lastCh = raw.getLast hraw := by
        have hpos := length_pos_of_ne_nil hraw
        simp [stored, getLast_eq_getElem, List.getElem?_eq_getElem (show raw.length - 1 < raw.length by omega)]
      rw [hlastCh]
      exact fun heq => hopen (heq ▸ getLast_mem hraw)
    refine ⟨⟨hroom', heof, fun _ => hexact rfl, fun heq => absurd heq hnewline, ?_⟩, rfl, rfl, rfl, ?_⟩
    · rw [if_neg hnewline]
      rw [hlines] at hinc
      exact hinc
    · rw [owed, if_neg hnewline, hkept, hlines, take_length]
      simp [stored]

theorem ret_spec {r : Reader} (h : Room r) (hexact : Exact r) (hfound : r.foundEntry = true) (heof : r.feof = true → r.rest = [])
    (hinc : ∀ l ∈ lines r.rest, isInclude l = false) :
    ∃ r', ret r = .next r' ∧ Inv r' ∧ r'.rest = r.rest ∧ r'.foundEntry = false ∧ r'.returned = r.returned ++ [some (kept r)] ∧
      owed r' = group .empty (lines r.rest) := by
  refine ⟨_, if_pos hfound, ⟨⟨h.int, ?_, ?_⟩, heof, ?_, ?_, ?_⟩, rfl, rfl, by rw [kept_exact hexact], ?_⟩
  · exact fun hnone => ⟨(h.null hnone).1, rfl⟩
  · exact fun s hs => ⟨(h.inside s hs).1, Nat.zero_le _⟩
  · exact fun hne => absurd rfl hne
  · exact fun _ hfound' => absurd hfound' (by simp)
  · exact hinc
  · rw [owed, if_pos rfl]
    rfl

theorem stopped_spec (h : Inv r) (hrest : r.rest = [])
    (hint : r.lastCh ≠ NL → r.buflen - r.lcur ≤ 1 → r.buflen + 1 + LDIF_MAXLINE < 2 ^ 31) :
    (∃ r', stopped r = .next r' ∧ Goes r r') ∨ stopped r = .done (r.returned ++ (owed r).map some) := by
  have hnone : lines r.rest = [] := by rw [hrest]; rfl
  by_cases hlast : r.lastCh = NL
  · rw [stopped, if_pos hlast, owed, if_pos hlast, hnone]
    cases hfound : r.foundEntry with
    | false =>
      right
      simp [ret, group, part, Part.result, hfound]
    | true =>
      left
      have hexact := h.ends hlast hfound (by rw [EndsBlock, hnone]; rfl)
      obtain ⟨r', hret, hinv, hrest', hfound', hreturned, howed⟩ := ret_spec h.toRoom hexact hfound h.eof (by simp [hnone])
      refine ⟨r', hret, hinv, ?_, ?_⟩
      · rw [hreturned, howed, owed, if_pos hlast, hnone]
        simp [group, part, Part.result, Part.empty, hfound]
      · rw [hrest', hfound', hfound]
        simp
  · obtain ⟨b, hcopy, hb, hroom⟩ := @copy_spec r h.toRoom [NL] 1 (le_refl 1) (by simp) (by simp) (hint hlast)
    obtain ⟨hroom', hkept, hexact⟩ := @Room.stored r [NL] 1 b h.toRoom (le_refl 1) hb hroom
    rw [stopped, if_neg hlast, hcopy]
    simp only
    cases hfound : r.foundEntry with
    | false =>
      right
      simp [ret, stored, owed, hlast, hnone, group, Part.result, hfound]
    | true =>
      left
      obtain ⟨r', hret, hinv, hrest', hfound', hreturned, howed⟩ := ret_spec hroom' (hexact rfl) hfound h.eof
        (show ∀ l ∈ lines r.rest, isInclude l = false by simp [hnone])
      refine ⟨r', hret, hinv, ?_, ?_⟩
      · rw [hreturned, howed, owed, if_neg hlast, hkept]
        simp [stored, group, Part.result, Part.empty, hfound, hnone]
      · rw [hrest', hfound', hfound]
        simp [stored]

theorem head_spec (hraw : raw ≠ []) (hnl : NL ∉ raw.dropLast) (hok : PieceOk r raw rest) : ∃ l ls, lines (raw ++ rest) = l :: ls ∧
      (startsWith NL (squash raw).1 = true → l = [] ∧ ls = lines rest ∧ (squash raw).1.getD ((squash raw).2 - 1) 0 = NL) ∧
      (startsWith NL (squash raw).1 = false → l ≠ [] ∧ (squash raw).1.head? = l.head? ∧
        (isInclude (squash raw).1 = true → isInclude l = true)) ∧
      (raw.getLast? = some NL → ls = lines rest ∧ (squash raw).1.getD ((squash raw).2 - 1) 0 = NL) := by
  have hcolon : NL ∉ text "include:" := by decide
  rcases piece_cases hraw hnl hok with ⟨p, extra, hp, hsq, hlen, hextra, hlines⟩ | ⟨hopen, hsq, hlines⟩
  · have hend : (p ++ NL :: extra).getD (p.length + 1 - 1) 0 = NL := by simp
    refine ⟨p, _, hlines, ?_⟩
    rw [hsq]
    refine ⟨fun hblank => ?_, fun hblank => ?_, fun _ => ⟨rfl, hend⟩⟩
    · cases p with
      | nil => exact ⟨rfl, rfl, hend⟩
      | cons c p =>
        have hc : c = NL := by simpa [startsWith] using hblank
        exact absurd (hc ▸ mem_cons_self) hp
    · cases p with
      | nil => simp [startsWith] at hblank
      | cons c p =>
        refine ⟨by simp, rfl, fun hinc => ?_⟩
        unfold isInclude at hinc ⊢
        rw [decide_eq_true_eq] at hinc ⊢
        by_cases hshort : 8 ≤ (c :: p).length
        · rwa [take_append_of_le_length hshort] at hinc
        · -- the newline is one of the first eight bytes
          refine absurd ?_ hcolon
          rw [← hinc]
          have hmem : NL ∈ ((c :: p) ++ NL :: extra).take 8 := by
            rw [take_append]
            refine mem_append_right _ ?_
            obtain ⟨k, hk⟩ : ∃ k, 8 - (c :: p).length = k + 1 := ⟨7 - (c :: p).length, by omega⟩
            rw [hk, take_succ_cons]
            exact mem_cons_self
          exact List.mem_map.mpr ⟨NL, hmem, rfl⟩
  · refine ⟨_, _, hlines, ?_⟩
    rw [hsq]
    have hnot : startsWith NL raw = false := by
      cases raw with
      | nil => rfl
      | cons c raw =>
        simp only [startsWith, List.head?_cons, Option.some.injEq, decide_eq_false_iff_not]
        exact fun hc => hopen (hc ▸ mem_cons_self)
    refine ⟨fun hblank => ?_, fun _ => ⟨by simp [hraw], ?_, fun hinc => ?_⟩, fun hend => ?_⟩
    · rw [hnot] at hblank
      cases hblank
    · cases raw with
      | nil => exact absurd rfl hraw
      | cons c raw => rfl
    · unfold isInclude at hinc ⊢
      rw [decide_eq_true_eq] at hinc ⊢
      have hlong : 8 ≤ raw.length := by
        have := congrArg List.length hinc
        have htext : (text "include:").length = 8 := by decide
        simp only [length_map, length_take, htext] at this
        omega
      rwa [take_append_of_le_length hlong]
    · exact absurd (List.mem_of_getLast? hend) hopen

theorem copied_goes {r₁ : Reader} (h : Inv r) (hrest : r.rest = raw ++ rest) (hraw : raw ≠ [])
    (hnl : NL ∉ raw.dropLast) (hok : PieceOk r raw rest) (hcopied : kind r (squash raw).1 ∈ [.more, .comment, .entry])
    (hr₁ : r₁.bufp = r.bufp ∧ r₁.buflen = r.buflen ∧ r₁.lcur = r.lcur ∧ r₁.returned = r.returned ∧ r₁.rest = rest)
    (heof : r₁.feof = true → rest = []) (hlast : r₁.foundEntry = true → EndsBlock rest → (squash raw).2 = raw.length)
    (howed : owed r = group ⟨kept r ++ ((lines r.rest).headD [] ++ [NL]), r₁.foundEntry, r₁.topComment⟩ (lines r.rest).tail) :
    ∃ r', copy r₁ (squash raw).1 (squash raw).2 = .next r' ∧ Goes r r' := by
  obtain ⟨hbufp, hbuflen, hlcur, hreturned, rfl⟩ := hr₁
  have hroom : Room r₁ := ⟨hbuflen ▸ h.int, by rw [hbufp, hbuflen, hlcur]; exact h.null, by rw [hbufp, hbuflen, hlcur]; exact h.inside⟩
  have hinc : ∀ l ∈ (lines (raw ++ r₁.rest)).tail, isInclude l = false := by
    intro l hl
    refine h.included l ?_
    rw [hrest]
    split
    · exact mem_of_mem_tail hl
    · exact hl
  obtain ⟨r', hcopy, hinv, hret', hrest', hfound', howed'⟩ :=
    copied hroom hraw hnl hok hbuflen.symm hlcur.symm hcopied hlast heof hinc
  have hkept : kept r₁ = kept r := by rw [kept, kept, hbufp, hlcur]
  refine ⟨r', hcopy, hinv, ?_, ?_⟩
  · rw [hret', hreturned, howed', howed, hkept, hrest]
  · have hpos := length_pos_of_ne_nil hraw
    have hbool : ∀ b : Bool, b.toNat ≤ 1 := Bool.toNat_le
    have := hbool r'.foundEntry
    rw [hrest', hrest, length_append]
    omega

theorem piece_spec (h : Inv r) {feof : Bool} (hrest : r.rest = raw ++ rest) (hraw : raw ≠ [])
    (hnl : NL ∉ raw.dropLast) (heof : feof = true → rest = []) (hok : PieceOk r raw rest) :
    ∃ r', piece { r with rest, feof } (squash raw).1 (squash raw).2 = .next r' ∧ Goes r r' := by
  obtain ⟨l, ls, hlines, hblank, hother, hended⟩ := head_spec hraw hnl hok
  have hpos := length_pos_of_ne_nil hraw
  have hkind : kind { r with rest, feof } (squash raw).1 = kind r (squash raw).1 := rfl
  have hheadD : (lines r.rest).headD [] = l := by rw [hrest, hlines]; rfl
  have htail : (lines r.rest).tail = ls := by rw [hrest, hlines]; rfl
  rw [piece, hkind]
  by_cases hlast : r.lastCh = NL
  case neg =>
    -- inside of a line
    have hk : kind r (squash raw).1 = .more := by simp [kind, hlast]
    rw [hk]
    exact copied_goes h hrest hraw hnl hok (by simp [hk]) ⟨rfl, rfl, rfl, rfl, rfl⟩ heof
      (fun hfound hends => hok.last hends (.inr ⟨hfound, hk⟩)) (by rw [owed, if_neg hlast])
  have howed : owed r = group (part r) (l :: ls) := by rw [owed, if_pos hlast, hrest, hlines]
  have hadd : l ≠ [] → owed r = group ((part r).add l) ls := fun hl => by rw [howed, group, if_neg hl]
  cases hnewline : startsWith NL (squash raw).1
  case true =>
    -- a blank line
    have hk : kind r (squash raw).1 = .blank := by simp [kind, hlast, hnewline]
    obtain ⟨rfl, rfl, hend⟩ := hblank hnewline
    have hinc : ∀ l ∈ lines rest, isInclude l = false := fun l hl => h.included l (by
      rw [if_pos hlast, hrest, hlines]
      exact mem_cons_of_mem _ hl)
    rw [hk]
    cases hfound : r.foundEntry with
    | true =>
      have hexact := h.ends hlast hfound (by rw [EndsBlock, hheadD])
      obtain ⟨r', hret, hinv, hrest', hfound', hreturned, howed'⟩ :=
        @ret_spec { r with rest, feof, lno := if r.lastCh = NL then r.lno + 1 else r.lno }
          ⟨h.int, h.null, h.inside⟩ hexact hfound heof hinc
      refine ⟨r', by simpa [hfound] using hret, hinv, ?_, ?_⟩
      · rw [hreturned, howed', howed, group, if_pos rfl]
        simp [part, Part.result, hfound, kept]
      · rw [hrest', hfound', hrest, length_append]
        simp only [Bool.toNat_false]
        omega
    | false =>
      refine ⟨_, rfl, ⟨⟨h.int, fun hnone => ⟨(h.null hnone).1, rfl⟩, fun s hs => ⟨(h.inside s hs).1, Nat.zero_le _⟩⟩, heof,
        fun hne => absurd hend hne, fun _ hf => absurd hf (by simp), ?_⟩, ?_, ?_⟩
      · rw [if_pos hend]
        exact hinc
      · rw [howed, group, if_pos rfl, owed, if_pos hend]
        simp [part, kept, hfound, Part.result, Part.empty]
      · simp only [hfound, hrest, length_append]
        omega
  obtain ⟨hl, hhead, hinclude⟩ := hother hnewline
  have hstarts : ∀ c, startsWith c (squash raw).1 = startsWith c l := fun c => by rw [startsWith, startsWith, hhead]
  have hdigit : startsWithDigit (squash raw).1 = startsWithDigit l := by rw [startsWithDigit, startsWithDigit, hhead]
  have hsame : lines r.rest = l :: ls := hrest ▸ hlines
  cases hfound : r.foundEntry
  case true =>
    have hk : kind r (squash raw).1 = .more := by simp [kind, hlast, hnewline, hfound]
    rw [hk]
    exact copied_goes h hrest hraw hnl hok (by simp [hk]) ⟨rfl, rfl, rfl, rfl, rfl⟩ heof
      (fun _ hends => hok.last hends (.inr ⟨hfound, hk⟩)) (by rw [hadd hl, hsame]; simp [Part.add, part, hfound])
  cases hhash : startsWith HASH l
  case true =>
    have hk : kind r (squash raw).1 = .comment := by simp [kind, hlast, hnewline, hfound, hstarts, hhash]
    rw [hk]
    exact copied_goes h hrest hraw hnl hok (by simp [hk]) ⟨rfl, rfl, rfl, rfl, rfl⟩ heof
      (fun hfound' => absurd hfound' (by simp)) (by rw [hadd hl, hsame]; simp [Part.add, part, hfound, hhash])
  cases hsp : r.topComment && startsWith SP l
  case true =>
    have hk : kind r (squash raw).1 = .more := by simp [kind, hlast, hnewline, hfound, hstarts, hhash, hsp]
    rw [hk]
    exact copied_goes h hrest hraw hnl hok (by simp [hk]) ⟨rfl, rfl, rfl, rfl, rfl⟩ heof
      (fun hfound' => absurd hfound' (by simp)) (by rw [hadd hl, hsame]; simp [Part.add, part, hfound, hhash, hsp])
  cases hnumber : startsWithDigit l
  case true =>
    -- a number is skipped
    have hk : kind r (squash raw).1 = .index := by
      simp [kind, hlast, hnewline, hfound, hstarts, hhash, hsp, hdigit, hnumber]
    obtain ⟨hwhole, hexact⟩ := hok.index hk
    obtain ⟨rfl, hend⟩ := hended hwhole
    rw [hk]
    refine ⟨_, rfl, ⟨⟨h.int, h.null, h.inside⟩, heof, fun hne => absurd hend hne, fun _ _ => hexact, ?_⟩, ?_, ?_⟩
    · rw [if_pos hend]
      exact fun l' hl' => h.included l' (by rw [if_pos hlast, hsame]; exact mem_cons_of_mem _ hl')
    · rw [hadd hl, owed, if_pos hend]
      simp [Part.add, part, kept, hfound, hhash, hsp, hnumber]
    · simp only [hfound, hrest, length_append, Bool.toNat_true, Bool.toNat_false]
      omega
  case false =>
    have hnot : isInclude (squash raw).1 = false := by
      rw [← Bool.not_eq_true]
      intro hinc
      have := h.included l (by rw [if_pos hlast, hsame]; exact mem_cons_self)
      rw [hinclude hinc] at this
      cases this
    have hk : kind r (squash raw).1 = .entry := by
      simp [kind, hlast, hnewline, hfound, hstarts, hhash, hsp, hdigit, hnumber, hnot]
    rw [hk]
    exact copied_goes h hrest hraw hnl hok (by simp [hk]) ⟨rfl, rfl, rfl, rfl, rfl⟩ heof
      (fun _ hends => hok.last hends (.inl hk)) (by rw [hadd hl, hsame]; simp [Part.add, part, hfound, hhash, hsp, hnumber])

theorem step_spec (h : Inv r) (hok : StepOk r) :
    (∃ r', step r = .next r' ∧ Goes r r') ∨ step r = .done (r.returned ++ (owed r).map some) := by
  rw [step]
  cases heof : r.feof with
  | true => exact stopped_spec h (h.eof heof) (hok.int (h.eof heof))
  | false =>
    rw [if_neg (by simp)]
    have happend := fgets_append (LDIF_MAXLINE - 1) r.rest
    have hnl := fgets_newline (LDIF_MAXLINE - 1) r.rest
    have hend := @fgets_eof (LDIF_MAXLINE - 1) r.rest
    have hnil := @fgets_nil (LDIF_MAXLINE - 1) r.rest (by decide)
    have hpiece := hok.piece heof
    generalize fgets (LDIF_MAXLINE - 1) r.rest = got at *
    obtain ⟨raw, rest, feof⟩ := got
    cases raw with
    | nil =>
      -- the end is met with the first byte
      have hempty := hnil rfl
      obtain rfl : rest = [] := (List.nil_append rest).symm.trans (happend.trans hempty)
      have hinv : Inv { r with rest := [], feof := true } :=
        ⟨⟨h.int, h.null, h.inside⟩, fun _ => rfl, h.exact, hempty ▸ h.ends, hempty ▸ h.included⟩
      have howed : owed { r with rest := [], feof := true } = owed r := by
        rw [owed, owed, hempty]
        rfl
      rcases stopped_spec hinv rfl (hok.int hempty) with ⟨r', hr', hgoes⟩ | hdone
      · refine .inl ⟨r', hr', hgoes.inv, howed ▸ hgoes.records, ?_⟩
        rw [hempty]
        exact hgoes.less
      · exact .inr (howed ▸ hdone)
    | cons c raw => exact .inl (piece_spec h happend.symm (by simp) hnl hend (hpiece (by simp)))

theorem start_inv (b : Buffer) {file : List Octet} (h : ∀ l ∈ lines file, isInclude l = false) : Inv (start b file) where
  int := b.int
  null hnone := ⟨b.null hnone, rfl⟩
  inside s hs := ⟨b.inside s hs, Nat.zero_le _⟩
  eof hfeof := by cases hfeof
  exact hne := absurd rfl hne
  ends _ hfound := by cases hfound
  included := h

theorem owed_start (b : Buffer) (file : List Octet) : owed (start b file) = records file := by
  rw [owed, if_pos (show (start b file).lastCh = NL from rfl), ← group_eq]
  rfl

theorem reach_inv {r' : Reader} (h : Reach r r') (hok : ∀ r', Reach r r' → StepOk r') (hr : Inv r) :
    Inv r' ∧ r'.returned ++ (owed r').map some = r.returned ++ (owed r).map some := by
  induction h with
  | refl => exact ⟨hr, rfl⟩
  | tail hreach hstep ih =>
    obtain ⟨hinv, hrecords⟩ := ih
    rcases step_spec hinv (hok _ hreach) with ⟨r₂, heq, hgoes⟩ | hdone
    · rw [hstep] at heq
      obtain rfl := Outcome.next.inj heq
      exact ⟨hgoes.inv, hgoes.records.trans hrecords⟩
    · rw [hstep] at hdone
      cases hdone

theorem reach_done (n : ℕ) (hn : 2 * r.rest.length + r.foundEntry.toNat < n) (hr : Inv r)
    (hok : ∀ r', Reach r r' → StepOk r') : ∃ r', Reach r r' ∧ step r' = .done (r.returned ++ (owed r).map some) := by
  induction n generalizing r with
  | zero => omega
  | succ n ih =>
    rcases step_spec hr (hok r .refl) with ⟨r₁, heq, hgoes⟩ | hdone
    · have hless := hgoes.less
      obtain ⟨r', hreach, hdone⟩ := ih (by omega) hgoes.inv fun r' h => hok r' (.head heq h)
      exact ⟨r', .head heq hreach, hgoes.records ▸ hdone⟩
    · exact ⟨r, .refl, hdone⟩

theorem ldif_read_records (b : Buffer) (file : List Octet) (hinc : ∀ l ∈ lines file, isInclude l = false)
    (hok : ∀ r, Reach (start b file) r → StepOk r) :
    (∀ r, Reach (start b file) r → step r ≠ .wild ∧ ∃ left, r.returned ++ left = (records file).map some) ∧
    ∃ r, Reach (start b file) r ∧ step r = .done ((records file).map some) := by
  have hstart := start_inv b hinc
  constructor
  · intro r hreach
    obtain ⟨hinv, hrecords⟩ := reach_inv hreach hok hstart
    rw [owed_start] at hrecords
    refine ⟨fun hwild => ?_, _, hrecords⟩
    rcases step_spec hinv (hok r hreach) with ⟨r', heq, -⟩ | hdone
    · rw [hwild] at heq
      cases heq
    · rw [hwild] at hdone
      cases hdone
  · obtain ⟨r, hreach, hdone⟩ := reach_done _ (Nat.lt_succ_self _) hstart hok
    exact ⟨r, hreach, by rw [hdone, owed_start]; rfl⟩

instance (r : Reader) : Decidable (Exact r) :=
  decidable_of_iff (r.bufp.map List.length = some r.lcur) (by simp [Exact, Option.map_eq_some_iff])

instance (r : Reader) (raw rest : List Octet) : Decidable (PieceOk r raw rest) :=
  decidable_of_iff (((squash raw).2 ≠ raw.length → raw.getLast? = some NL) ∧ (raw.getLast? = some CR → rest.head? ≠ some NL) ∧
      ((squash raw).2 ≠ raw.length → kind r (squash raw).1 ∈ [.more, .comment, .entry] → r.buflen - r.lcur ≠ (squash raw).2 + 1) ∧
      (kind r (squash raw).1 ∈ [.more, .comment, .entry] → r.buflen - r.lcur ≤ (squash raw).2 →
        r.buflen + (squash raw).2 + LDIF_MAXLINE < 2 ^ 31) ∧
      (kind r (squash raw).1 = .index → raw.getLast? = some NL ∧ (EndsBlock rest → Exact r)) ∧
      (EndsBlock rest → kind r (squash raw).1 = .entry ∨ r.foundEntry = true ∧ kind r (squash raw).1 = .more →
        (squash raw).2 = raw.length))
    ⟨fun ⟨h1, h2, h3, h4, h5, h6⟩ => ⟨h1, h2, h3, h4, h5, h6⟩, fun ⟨h1, h2, h3, h4, h5, h6⟩ => ⟨h1, h2, h3, h4, h5, h6⟩⟩

instance (r : Reader) : Decidable (StepOk r) :=
  decidable_of_iff ((r.feof = false → (fgets (LDIF_MAXLINE - 1) r.rest).1 ≠ [] →
      PieceOk r (fgets (LDIF_MAXLINE - 1) r.rest).1 (fgets (LDIF_MAXLINE - 1) r.rest).2.1) ∧
      (r.rest = [] → r.lastCh ≠ NL → r.buflen - r.lcur ≤ 1 → r.buflen + 1 + LDIF_MAXLINE < 2 ^ 31))
    ⟨fun ⟨h1, h2⟩ => ⟨h1, h2⟩, fun ⟨h1, h2⟩ => ⟨h1, h2⟩⟩

theorem reach_next {P : Reader → Prop} {r₁ : Reader} (hr : P r) (heq : step r = .next r₁) (h : ∀ r', Reach r₁ r' → P r') :
    ∀ r', Reach r r' → P r' := by
  intro r' hreach
  rcases hreach.cases_head with rfl | ⟨r₂, heq', hreach'⟩
  · exact hr
  · rw [heq] at heq'
    exact h r' (Outcome.next.inj heq' ▸ hreach')

theorem reach_last {P : Reader → Prop} {returned : List (Option (List Octet))} (hr : P r)
    (hdone : step r = .done returned) : ∀ r', Reach r r' → P r' := by
  intro r' hreach
  rcases hreach.cases_head with rfl | ⟨r₂, heq, -⟩
  · exact hr
  · rw [hdone] at heq
    cases heq

def noBuffer : Buffer := ⟨none, 0, Nat.two_pow_pos 31, fun _ => rfl, fun s hs => by cases hs⟩

def twoRecords : List Octet := text "dn: a\r\ncn: b\n\n1\ndn: c\n"

/-- A line with `\r\n`, and a number in front of the second record. -/
theorem ldif_read_records_two :
    (∀ r, Reach (start noBuffer twoRecords) r → step r ≠ .wild ∧ ∃ left, r.returned ++ left = (records twoRecords).map some) ∧
    ∃ r, Reach (start noBuffer twoRecords) r ∧ step r = .done ((records twoRecords).map some) :=
  ldif_read_records noBuffer twoRecords (by decide)
    (reach_next (by decide) rfl (reach_next (by decide) rfl (reach_next (by decide) rfl (reach_next (by decide) rfl
      (reach_next (by decide) rfl (reach_next (by decide) rfl (reach_last (by decide) rfl)))))))

/-- A record gets a second `\n` where its last line ends with `\r\n`, and a byte is written behind a full buffer. -/
theorem ldif_read_record_adds : (∃ r, Reach (start noBuffer (text "dn: a\r\n")) r ∧ step r = .done [some (text "dn: a\n\n")]) ∧
    records (text "dn: a\r\n") = [text "dn: a\n"] ∧
    step (start ⟨some [], 6, by decide, fun h => absurd h (Option.some_ne_none []), fun _ hs => Option.some.inj hs ▸ Nat.zero_lt_succ 5⟩ (text "abcd\r\n")) = .wild := by
  refine ⟨⟨_, .head rfl (.head rfl .refl), by decide⟩, by decide, by decide⟩

end ReadRecord
end Libreldap
end ReOpenLDAP
