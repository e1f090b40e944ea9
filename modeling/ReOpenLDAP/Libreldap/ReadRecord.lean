import ReOpenLDAP.Libreldap.Ldif

/-!
# Libreldap.ReadRecord

`ldif_read_record`, piece by piece.

A file has no `'\0'`, and nothing is included.
-/

namespace ReOpenLDAP
namespace Libreldap
namespace ReadRecord

open Ascii

def LDIF_MAXLINE : ℕ := 4096

/-- `fgets`: no more than `n` bytes, the rest of the file, and `feof`. -/
def fgets : ℕ → List Octet → List Octet × List Octet × Bool
  | 0, file => ([], file, false)
  | _ + 1, [] => ([], [], true)
  | n + 1, c :: file =>
    if c = NL then ([c], file, false)
    else (c :: (fgets n file).1, (fgets n file).2)

/-- Squash `\\r\\n` to `\\n`: what is in `line` up to the `'\0'`, and `len`. -/
def squash (line : List Octet) : List Octet × ℕ :=
  if 1 < line.length ∧ (line)[line.length - 2]? = some CR then (line.set (line.length - 2) NL, line.length - 1)
  else (line, line.length)

/-- `strncasecmp` with `include:`. -/
def isInclude (line : List Octet) : Bool := (line.take 8).map toLower = text "include:"

def startsWith (c : Octet) (line : List Octet) : Bool := line.head? = some c

def startsWithDigit (line : List Octet) : Bool := (line.head?.map isDigit).getD false

/-- The file, `*lno`, the buffer, and what the function keeps from round to round. -/
structure Reader where
  rest : List Octet
  feof : Bool
  lno : ℕ
  /-- The string at `*bufp`; none is the null pointer. -/
  bufp : Option (List Octet)
  /-- `*buflenp` -/
  buflen : ℕ
  lcur : ℕ
  lastCh : Octet
  foundEntry : Bool
  topComment : Bool
  /-- What the calls before have returned. -/
  returned : List (Option (List Octet))
deriving DecidableEq

inductive Outcome where
  | next (r : Reader)
  /-- A call returns 0. -/
  | done (returned : List (Option (List Octet)))
  /-- A write at `*bufp + *buflenp`. -/
  | wild
  | included
deriving DecidableEq

def ret (r : Reader) : Outcome :=
  if r.foundEntry then
    .next { r with returned := r.returned ++ [r.bufp], lcur := 0, lastCh := NL, foundEntry := false, topComment := false }
  else .done r.returned

/-- `*buflenp` for `len` more bytes, an `int`. -/
def grown (r : Reader) (len : ℕ) : ℤ :=
  if r.buflen - r.lcur ≤ len then castInt (r.buflen + len + LDIF_MAXLINE) else r.buflen

/-- `strcpy` to `*bufp + lcur`. There is no block of a negative size, and the function returns 0. -/
def copy (r : Reader) (line : List Octet) (len : ℕ) : Outcome :=
  if grown r len < 0 then .done r.returned
  else if grown r len < r.lcur + line.length + 1 then .wild
  else
    .next { r with bufp := some ((r.bufp.getD []).take r.lcur ++ line), buflen := (grown r len).toNat, lcur := r.lcur + len,
                   lastCh := line.getD (len - 1) 0 }

/-- No more pieces: a `\\n` is added if the file does not end with one. -/
def stopped (r : Reader) : Outcome :=
  if r.lastCh = NL then ret r
  else
    match copy r [NL] 1 with
    | .next r => ret r
    | o => o

inductive Kind where
  | blank
  | more
  | comment
  | index
  | include
  | entry
deriving DecidableEq

def kind (r : Reader) (line : List Octet) : Kind :=
  if r.lastCh ≠ NL then .more
  else if startsWith NL line then .blank
  else if r.foundEntry then .more
  else if startsWith HASH line then .comment
  else if r.topComment && startsWith SP line then .more
  else if startsWithDigit line then .index
  else if isInclude line then .include
  else .entry

/-- A piece in `line`. -/
def piece (r : Reader) (line : List Octet) (len : ℕ) : Outcome :=
  let last := line.getD (len - 1) 0
  let lno := if r.lastCh = NL then r.lno + 1 else r.lno
  match kind r line with
  | .blank => if r.foundEntry then ret { r with lno } else .next { r with lno, lcur := 0, topComment := false, lastCh := last }
  | .more => copy { r with lno } line len
  | .comment => copy { r with lno, topComment := true } line len
  | .index => .next { r with lno, foundEntry := true, lastCh := last }
  | .include => .included
  | .entry => copy { r with lno, foundEntry := true } line len

/-- One round of `ldif_read_record`. -/
def step (r : Reader) : Outcome :=
  if r.feof then stopped r
  else
    match fgets (LDIF_MAXLINE - 1) r.rest with
    | ([], rest, _) => stopped { r with rest, feof := true }
    | (line, rest, feof) => piece { r with rest, feof } (squash line).1 (squash line).2

structure Buffer where
  bufp : Option (List Octet)
  buflen : ℕ
  int : buflen < 2 ^ 31
  null : bufp = none → buflen = 0
  inside : ∀ s ∈ bufp, s.length < buflen

def start (b : Buffer) (file : List Octet) : Reader := ⟨file, false, 0, b.bufp, b.buflen, 0, NL, false, false, []⟩

def Reach : Reader → Reader → Prop := Relation.ReflTransGen fun r r' => step r = .next r'

def lines : List Octet → List (List Octet)
  | [] => []
  | c :: cs =>
    if c = NL then [] :: lines cs
    else if c = CR ∧ cs.head? = some NL then lines cs
    else (c :: (lines cs).headD []) :: (lines cs).tail

def topLines (block : List (List Octet)) : List (List Octet) :=
  if startsWith HASH (block.headD []) then block.takeWhile fun l => startsWith HASH l || startsWith SP l else []

def textOf (ls : List (List Octet)) : List Octet := ls.flatMap fun l => l ++ [NL]

/-- The record of the lines between two blank ones. A number in front of the entry is not part of it. -/
def record (block : List (List Octet)) : Option (List Octet) :=
  match block.drop (topLines block).length with
  | [] => none
  | l :: ls => some (textOf (topLines block ++ if startsWithDigit l then ls else l :: ls))

def records (file : List Octet) : List (List Octet) := ((lines file).splitOn []).filterMap record

def EndsBlock (rest : List Octet) : Prop := (lines rest).headD [] = []

instance (rest : List Octet) : Decidable (EndsBlock rest) := inferInstanceAs (Decidable (_ = _))

/-- The string in the buffer ends at `lcur`. -/
def Exact (r : Reader) : Prop := ∃ s ∈ r.bufp, s.length = r.lcur

/-- What has to hold of a piece `raw` that is followed by `rest`. -/
structure PieceOk (r : Reader) (raw rest : List Octet) : Prop where
  /-- A `\\r` that is the last but one byte stands in front of a `\\n`. -/
  cr : (squash raw).2 ≠ raw.length → raw.getLast? = some NL
  /-- A `\\r\\n` is in one piece. -/
  whole : raw.getLast? = some CR → rest.head? ≠ some NL
  /-- A line that was squashed has space for the byte behind its end. -/
  room : (squash raw).2 ≠ raw.length → kind r (squash raw).1 ∈ [.more, .comment, .entry] →
    r.buflen - r.lcur ≠ (squash raw).2 + 1
  /-- The buffer gets no larger than an `int`. -/
  int : kind r (squash raw).1 ∈ [.more, .comment, .entry] → r.buflen - r.lcur ≤ (squash raw).2 →
    r.buflen + (squash raw).2 + LDIF_MAXLINE < 2 ^ 31
  /-- A number is in one piece, and with nothing behind it the string in the buffer is what there is in front of it. -/
  index : kind r (squash raw).1 = .index → raw.getLast? = some NL ∧ (EndsBlock rest → Exact r)
  /-- The last line of an entry was not squashed. -/
  last : EndsBlock rest → kind r (squash raw).1 = .entry ∨ r.foundEntry = true ∧ kind r (squash raw).1 = .more →
    (squash raw).2 = raw.length

/-- The same for every round: at the end of the file there may be a `\\n` to add. -/
structure StepOk (r : Reader) : Prop where
  piece : r.feof = false → (fgets (LDIF_MAXLINE - 1) r.rest).1 ≠ [] →
    PieceOk r (fgets (LDIF_MAXLINE - 1) r.rest).1 (fgets (LDIF_MAXLINE - 1) r.rest).2.1
  int : r.rest = [] → r.lastCh ≠ NL → r.buflen - r.lcur ≤ 1 → r.buflen + 1 + LDIF_MAXLINE < 2 ^ 31

end ReadRecord
end Libreldap
end ReOpenLDAP
