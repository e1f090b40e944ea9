import Mathlib.Algebra.Order.BigOperators.Group.List
import Mathlib.Algebra.Order.Group.Nat
import ReOpenLDAP.Lib.Ascii
import ReOpenLDAP.Lib.Layout

/-!
# Slapd.EntryBlock

Copies of an entry: `entry_dup`, string by string, and `entry_dup_bv`, in one block of the size that `entry_partsize` counts. The block
is the memory after its `nvals` bervals, which are counted by the way.
-/

namespace ReOpenLDAP
namespace Slapd
namespace EntryBlock

open Ascii Layout List

/-- `Attribute`. `nvals` is none if `a_nvals` is `a_vals`. -/
structure Attribute (δ : Type*) where
  desc : δ
  vals : List (List Octet)
  nvals : Option (List (List Octet))
  numvals : Nat
  numvals_eq : numvals = vals.length
  nvals_eq : ∀ ns ∈ nvals, ns.length = numvals

/-- `Entry`. The text of a DN has no NUL; `strval2str` writes one as `\00`. -/
structure Entry (δ : Type*) where
  id : Nat
  name : List Octet
  nname : List Octet
  attrs : List (Attribute δ)
  ocflags : Nat
  nname_text : ∀ b ∈ nname, b ≠ 0

section
variable {δ : Type*} (cname : δ → List Octet) (m : Nat → Octet)

def entryLenlen (l : Nat) : Nat :=
  if l < 0x80 then 1 else if l < 0x100 then 2 else if l < 0x10000 then 3 else if l < 0x1000000 then 4 else 5

structure PartSize where
  len : Nat
  nattrs : Nat
  nvals : Nat
deriving DecidableEq

def stringLen (s : List Octet) : Nat := s.length + 1 + entryLenlen s.length

def stringsLen (ss : List (List Octet)) : Nat := (ss.map stringLen).sum

/-- One round of the loop of `entry_partsize`. -/
def attrPartsize (norm : Bool) (z : PartSize) (a : Attribute δ) : PartSize :=
  let len := z.len + stringLen (cname a.desc) + stringsLen a.vals + entryLenlen a.vals.length
  let nvals := z.nvals + a.vals.length + 1
  match norm, a.nvals with
  | true, some ns => ⟨len + stringsLen ns + entryLenlen ns.length, z.nattrs + 1, nvals + ns.length + 1⟩
  | _, _ => ⟨len + entryLenlen 0, z.nattrs + 1, nvals⟩

def entryPartsize (e : Entry δ) (norm : Bool) : PartSize :=
  let z := e.attrs.foldl (attrPartsize cname norm) ⟨stringLen e.name + if norm then stringLen e.nname else 0, 0, 0⟩
  { z with len := z.len + entryLenlen z.nattrs + entryLenlen z.nvals }

/-- What a reader of a copied attribute sees. `nvals` is none if `a_nvals` is NULL. -/
structure AttributeView (δ : Type*) where
  desc : δ
  vals : List (List Octet)
  nvals : Option (List (List Octet))
  numvals : Nat

structure EntryView (δ : Type*) where
  id : Nat
  name : List Octet
  nname : List Octet
  attrs : List (AttributeView δ)
  ocflags : Nat

/-- `attr_dup`; `tmp->a_nvals` is `tmp->a_vals` or an array of its own. -/
def attrDup (a : Attribute δ) : AttributeView δ where
  desc := a.desc
  vals := a.vals.take a.numvals
  nvals := some <| match a.nvals with
    | none => a.vals.take a.numvals
    | some ns => if a.vals.take a.numvals = [] then [] else ns
  numvals := a.numvals

def entryDup (e : Entry δ) : EntryView δ := ⟨e.id, e.name, e.nname, e.attrs.map attrDup, e.ocflags⟩

structure BlockAttribute (δ : Type*) where
  desc : δ
  vals : List Span
  nvals : Option (List Span)
  numvals : Nat

/-- The memory behind the bervals, `ptr`, and the number of bervals before `bvl`. -/
structure Cursor where
  mem : Nat → Octet
  ptr : Nat
  bvl : Nat

structure Block (δ : Type*) where
  id : Nat
  name : Span
  nname : Span
  attrs : List (BlockAttribute δ)
  ocflags : Nat
  last : Cursor

/-- `memcpy` of `s`, then `ptr += step` and a NUL. -/
def Cursor.put (c : Cursor) (s : List Octet) (step : Nat) : Cursor :=
  ⟨write (write c.mem c.ptr s) (c.ptr + step) [0], c.ptr + step + 1, c.bvl⟩

/-- The loop over a `BerVarray`. -/
def copyVals : List (List Octet) → Cursor → List Span × Cursor
  | [], c => ([], { c with bvl := c.bvl + 1 })
  | v :: vs, c =>
    let r := copyVals vs { c.put v v.length with bvl := c.bvl + 1 }
    (⟨c.ptr, v.length⟩ :: r.1, r.2)

def copyAttr (a : Attribute δ) (c : Cursor) : BlockAttribute δ × Cursor :=
  let r := copyVals a.vals c
  match a.nvals with
  | none => (⟨a.desc, r.1, none, a.numvals⟩, r.2)
  | some ns => (⟨a.desc, r.1, some (copyVals ns r.2).1, a.numvals⟩, (copyVals ns r.2).2)

def copyAttrs : List (Attribute δ) → Cursor → List (BlockAttribute δ) × Cursor
  | [], c => ([], c)
  | a :: as, c =>
    let r := copyAttrs as (copyAttr a c).2
    ((copyAttr a c).1 :: r.1, r.2)

/-- `m` is what `ch_malloc` gives. The pointer goes past `e_nname` by the length of `e_name`. -/
def entryDupBv (e : Entry δ) : Block δ :=
  let c := Cursor.put ⟨m, 0, 0⟩ e.name e.name.length
  let r := copyAttrs e.attrs (c.put e.nname e.name.length)
  ⟨e.id, ⟨0, e.name.length⟩, ⟨c.ptr, e.nname.length⟩, r.1, e.ocflags, r.2⟩

def BlockAttribute.view (a : BlockAttribute δ) : AttributeView δ :=
  ⟨a.desc, a.vals.map (read m), a.nvals.map fun ns => ns.map (read m), a.numvals⟩

def Block.view (b : Block δ) : EntryView δ :=
  ⟨b.id, read b.last.mem b.name, read b.last.mem b.nname, b.attrs.map (·.view b.last.mem), b.ocflags⟩

def BlockAttribute.spans (a : BlockAttribute δ) : List Span := a.vals ++ a.nvals.getD []

def Block.spans (b : Block δ) : List Span := b.name :: b.nname :: b.attrs.flatMap BlockAttribute.spans

/-- The copy in a block is the copy, and fits. -/
structure BlockRight (e : Entry δ) : Prop where
  same : (entryDupBv m e).view = entryDup e
  apart : (entryDupBv m e).spans.Pairwise Apart
  bervals : (entryDupBv m e).last.bvl ≤ (entryPartsize cname e true).nvals
  inside : ∀ s ∈ (entryDupBv m e).spans, s.off + s.len < (entryPartsize cname e true).len
  written : (entryDupBv m e).last.ptr ≤ (entryPartsize cname e true).len

end

section
variable {δ : Type*} {cname : δ → List Octet} {m : Nat → Octet} {a : Attribute δ} {as : List (Attribute δ)}

def Attribute.strings (a : Attribute δ) : List (List Octet) := a.vals ++ a.nvals.getD []

theorem attrDup_eq (a : Attribute δ) : attrDup a = ⟨a.desc, a.vals, some (a.nvals.getD a.vals), a.numvals⟩ := by
  have hlen := a.numvals_eq
  have hnvals := a.nvals_eq
  unfold attrDup
  rw [hlen, take_length]
  cases hn : a.nvals with
  | none => rfl
  | some ns =>
    by_cases hv : a.vals = []
    · have := hnvals ns hn
      have hns : ns = [] := eq_nil_of_length_eq_zero (by rw [this, hlen, hv, length_nil])
      simp [hv, hns]
    · simp [hv]

/-! ## The values -/

theorem copyVals_eq (vs : List (List Octet)) (c : Cursor) :
    copyVals vs c = (layout c.ptr vs, ⟨write c.mem c.ptr (terminated 0 vs), c.ptr + size vs, c.bvl + vs.length + 1⟩) := by
  induction vs generalizing c with
  | nil => simp [copyVals, layout, write_nil, size]
  | cons v vs ih =>
    rw [copyVals, ih, terminated_cons, size_cons]
    simp only [Cursor.put, layout, write_append, length_cons, Prod.mk.injEq, Cursor.mk.injEq, true_and]
    refine ⟨?_, by omega, by omega⟩
    have := write_append c.mem c.ptr (v ++ [0]) (terminated 0 vs)
    rw [length_append, length_singleton, ← Nat.add_assoc] at this
    rw [this, append_assoc, singleton_append]

/-- Where the strings of an attribute are when they begin at `p`. -/
def layoutAttr (p : Nat) (a : Attribute δ) : BlockAttribute δ :=
  ⟨a.desc, layout p a.vals, a.nvals.map (layout (p + size a.vals)), a.numvals⟩

def layoutAttrs : Nat → List (Attribute δ) → List (BlockAttribute δ)
  | _, [] => []
  | p, a :: as => layoutAttr p a :: layoutAttrs (p + size a.strings) as

def Attribute.bervals (a : Attribute δ) : Nat := a.vals.length + 1 + (a.nvals.map fun ns => ns.length + 1).getD 0

theorem copyAttr_eq (a : Attribute δ) (c : Cursor) : copyAttr a c =
    (layoutAttr c.ptr a, ⟨write c.mem c.ptr (terminated 0 a.strings), c.ptr + size a.strings, c.bvl + a.bervals⟩) := by
  unfold copyAttr layoutAttr Attribute.strings Attribute.bervals
  cases a.nvals with
  | none => simp [copyVals_eq, Nat.add_assoc]
  | some ns =>
    have := write_append c.mem c.ptr (terminated 0 a.vals) (terminated 0 ns)
    rw [length_terminated] at this
    simp [copyVals_eq, this, size_append, Nat.add_assoc]

theorem copyAttrs_eq (as : List (Attribute δ)) (c : Cursor) : copyAttrs as c = (layoutAttrs c.ptr as,
    ⟨write c.mem c.ptr (terminated 0 (as.flatMap Attribute.strings)), c.ptr + size (as.flatMap Attribute.strings),
      c.bvl + (as.map Attribute.bervals).sum⟩) := by
  induction as generalizing c with
  | nil => simp [copyAttrs, layoutAttrs, write_nil, size]
  | cons a as ih =>
    have := write_append c.mem c.ptr (terminated 0 a.strings) (terminated 0 (as.flatMap Attribute.strings))
    rw [length_terminated] at this
    rw [copyAttrs, ih, copyAttr_eq]
    simp [this, layoutAttrs, size_append, Nat.add_assoc]

theorem spans_layoutAttr (p : Nat) (a : Attribute δ) : (layoutAttr p a).spans = layout p a.strings := by
  unfold layoutAttr BlockAttribute.spans Attribute.strings
  cases a.nvals with
  | none => simp
  | some ns => simp [layout_append]

theorem spans_layoutAttrs (p : Nat) (as : List (Attribute δ)) :
    (layoutAttrs p as).flatMap BlockAttribute.spans = layout p (as.flatMap Attribute.strings) := by
  induction as generalizing p with
  | nil => rfl
  | cons a as ih => rw [layoutAttrs, flatMap_cons, flatMap_cons, layout_append, spans_layoutAttr, ih]

theorem view_layoutAttr {p : Nat} (h : read m ⟨p, size a.strings⟩ = terminated 0 a.strings) :
    (layoutAttr p a).view m = ⟨a.desc, a.vals, a.nvals, a.numvals⟩ := by
  unfold layoutAttr BlockAttribute.view
  unfold Attribute.strings at h
  rw [size_append, read_add, terminated_append] at h
  obtain ⟨hv, hn⟩ := append_inj h (by rw [length_read, length_terminated])
  simp only [read_layout hv]
  cases hns : a.nvals with
  | none => rfl
  | some ns =>
    rw [hns] at hn
    simp only [Option.map_some, @read_layout _ _ _ _ ns hn]

theorem view_layoutAttrs {p : Nat}
    (h : read m ⟨p, size (as.flatMap Attribute.strings)⟩ = terminated 0 (as.flatMap Attribute.strings)) :
    (layoutAttrs p as).map (·.view m) = as.map fun a => ⟨a.desc, a.vals, a.nvals, a.numvals⟩ := by
  induction as generalizing p with
  | nil => rfl
  | cons a as ih =>
    rw [flatMap_cons, size_append, read_add, terminated_append] at h
    obtain ⟨ha, has⟩ := append_inj h (by rw [length_read, length_terminated])
    rw [layoutAttrs, map_cons, map_cons, view_layoutAttr ha, ih has]

theorem put_below {c : Cursor} {s : List Octet} {step i : Nat} (h : i < c.ptr) : (c.put s step).mem i = c.mem i :=
  (write_below (by omega)).trans (write_below h)

theorem put_nul (c : Cursor) (s : List Octet) (step : Nat) : (c.put s step).mem (c.ptr + step) = 0 := by
  simp [Cursor.put, write]

theorem read_put {c : Cursor} {s : List Octet} {step : Nat} (h : s.length ≤ step) :
    read (c.put s step).mem ⟨c.ptr, s.length⟩ = s := by
  have hbefore : read (c.put s step).mem ⟨c.ptr, s.length⟩ = read (write c.mem c.ptr s) ⟨c.ptr, s.length⟩ :=
    read_congr fun i _ hi => write_below (by simp only at hi; omega)
  rw [hbefore, read_write]

def nnameCursor (m : Nat → Octet) (e : Entry δ) : Cursor := Cursor.put ⟨m, 0, 0⟩ e.name e.name.length

def valsCursor (m : Nat → Octet) (e : Entry δ) : Cursor := (nnameCursor m e).put e.nname e.name.length

theorem nnameCursor_ptr (m : Nat → Octet) (e : Entry δ) : (nnameCursor m e).ptr = e.name.length + 1 := by
  simp [nnameCursor, Cursor.put]

theorem valsCursor_ptr (m : Nat → Octet) (e : Entry δ) : (valsCursor m e).ptr = 2 * (e.name.length + 1) := by
  simp only [valsCursor, Cursor.put, nnameCursor_ptr]
  omega

variable {e : Entry δ}

theorem entryDupBv_eq (m : Nat → Octet) (e : Entry δ) : entryDupBv m e = ⟨e.id, ⟨0, e.name.length⟩,
    ⟨(nnameCursor m e).ptr, e.nname.length⟩, layoutAttrs (valsCursor m e).ptr e.attrs, e.ocflags,
    ⟨write (valsCursor m e).mem (valsCursor m e).ptr (terminated 0 (e.attrs.flatMap Attribute.strings)),
      (valsCursor m e).ptr + size (e.attrs.flatMap Attribute.strings), (e.attrs.map Attribute.bervals).sum⟩⟩ := by
  simp only [entryDupBv, copyAttrs_eq]
  simp [nnameCursor, valsCursor, Cursor.put]

/-- What is written after the names leaves them as they are. -/
theorem last_below {i : Nat} (h : i < (valsCursor m e).ptr) : (entryDupBv m e).last.mem i = (valsCursor m e).mem i := by
  rw [entryDupBv_eq]
  exact write_below h

theorem view_name : (entryDupBv m e).view.name = e.name := by
  have hc := nnameCursor_ptr m e
  have hd := valsCursor_ptr m e
  have hname : read (nnameCursor m e).mem ⟨0, e.name.length⟩ = e.name := read_put (c := ⟨m, 0, 0⟩) (Nat.le_refl _)
  have hkept : read (entryDupBv m e).last.mem ⟨0, e.name.length⟩ = read (nnameCursor m e).mem ⟨0, e.name.length⟩ := by
    refine read_congr fun i _ hi => ?_
    simp only at hi
    rw [last_below (by omega), valsCursor, put_below (by omega)]
  exact hkept.trans hname

theorem view_nname : (entryDupBv m e).view.nname = read (entryDupBv m e).last.mem ⟨(nnameCursor m e).ptr, e.nname.length⟩ := by
  rw [Block.view, entryDupBv_eq]

theorem view_nname_of_le (h : e.nname.length ≤ e.name.length) : (entryDupBv m e).view.nname = e.nname := by
  have hc := nnameCursor_ptr m e
  have hd := valsCursor_ptr m e
  have hname : read (valsCursor m e).mem ⟨(nnameCursor m e).ptr, e.nname.length⟩ = e.nname := read_put h
  rw [view_nname]
  refine (read_congr fun i _ hi => ?_).trans hname
  simp only at hi
  exact last_below (by omega)

/-- The NUL after a name as long as the other one is inside of a longer one. -/
theorem le_of_view_nname (h : (entryDupBv m e).view.nname = e.nname) : e.nname.length ≤ e.name.length := by
  by_contra hlt
  have hd := valsCursor_ptr m e
  have hc := nnameCursor_ptr m e
  have hnul : (entryDupBv m e).last.mem ((nnameCursor m e).ptr + e.name.length) = 0 :=
    (last_below (by omega)).trans (put_nul _ _ _)
  have hmem : (0 : Octet) ∈ (entryDupBv m e).view.nname := by
    rw [view_nname, ← hnul]
    exact List.mem_map_of_mem (List.mem_range.mpr (Nat.lt_of_not_le hlt))
  rw [h] at hmem
  exact e.nname_text 0 hmem rfl

theorem view_attrs : (entryDupBv m e).view.attrs = e.attrs.map fun a => ⟨a.desc, a.vals, a.nvals, a.numvals⟩ := by
  rw [Block.view, entryDupBv_eq]
  refine view_layoutAttrs ?_
  rw [← length_terminated 0]
  exact read_write _ _ _

theorem spans_eq : (entryDupBv m e).spans = ⟨0, e.name.length⟩ :: ⟨e.name.length + 1, e.nname.length⟩ ::
    layout (2 * (e.name.length + 1)) (e.attrs.flatMap Attribute.strings) := by
  rw [Block.spans, entryDupBv_eq, spans_layoutAttrs, nnameCursor_ptr, valsCursor_ptr]

/-- What an array and its length take in an encoding. -/
def arrayLen (vs : List (List Octet)) : Nat := entryLenlen vs.length + stringsLen vs

def Attribute.codeLen (cname : δ → List Octet) (a : Attribute δ) : Nat :=
  stringLen (cname a.desc) + (arrayLen a.vals + arrayLen (a.nvals.getD []))

theorem size_strings_le (a : Attribute δ) : size a.strings ≤ a.codeLen cname := by
  have hle : ∀ ss, size ss ≤ arrayLen ss := fun ss =>
    Nat.le_add_left_of_le (sum_le_sum fun _ _ => Nat.le_add_right _ _)
  rw [Attribute.strings, size_append, Attribute.codeLen]
  exact Nat.le_add_left_of_le (Nat.add_le_add (hle _) (hle _))

theorem attrPartsize_eq (z : PartSize) (a : Attribute δ) :
    attrPartsize cname true z a = ⟨z.len + a.codeLen cname, z.nattrs + 1, z.nvals + a.bervals⟩ := by
  unfold attrPartsize Attribute.bervals Attribute.codeLen arrayLen
  cases a.nvals with
  | none => simp [stringsLen]; omega
  | some ns => simp; omega

theorem foldl_partsize (z : PartSize) : as.foldl (attrPartsize cname true) z =
    ⟨z.len + (as.map (Attribute.codeLen cname)).sum, z.nattrs + as.length, z.nvals + (as.map Attribute.bervals).sum⟩ := by
  induction as generalizing z with
  | nil => rfl
  | cons a as ih => simp [ih, attrPartsize_eq, Nat.add_assoc, Nat.add_comm 1]

theorem entryPartsize_eq (cname : δ → List Octet) (e : Entry δ) : entryPartsize cname e true =
    ⟨stringLen e.name + stringLen e.nname + (e.attrs.map (Attribute.codeLen cname)).sum + entryLenlen e.attrs.length +
      entryLenlen (e.attrs.map Attribute.bervals).sum, e.attrs.length, (e.attrs.map Attribute.bervals).sum⟩ := by
  simp [entryPartsize, foldl_partsize]

theorem partsize_len (e : Entry δ) :
    e.name.length + 1 + (e.nname.length + 1) + size (e.attrs.flatMap Attribute.strings) ≤ (entryPartsize cname e true).len := by
  have hsize : size (e.attrs.flatMap Attribute.strings) ≤ (e.attrs.map (Attribute.codeLen cname)).sum := by
    induction e.attrs with
    | nil => exact Nat.le_refl _
    | cons a as ih =>
      rw [flatMap_cons, size_append, map_cons, sum_cons]
      exact Nat.add_le_add (size_strings_le a) ih
  simp only [entryPartsize_eq, stringLen]
  omega

theorem entry_dup_bv_iff (cname : δ → List Octet) (m : Nat → Octet) (e : Entry δ) : BlockRight cname m e ↔
    (∀ a ∈ e.attrs, a.nvals ≠ none) ∧ e.nname.length ≤ e.name.length ∧
      2 * (e.name.length + 1) + size (e.attrs.flatMap Attribute.strings) ≤ (entryPartsize cname e true).len := by
  have hptr : (entryDupBv m e).last.ptr = 2 * (e.name.length + 1) + size (e.attrs.flatMap Attribute.strings) := by
    rw [entryDupBv_eq, ← valsCursor_ptr m e]
  constructor
  · intro h
    refine ⟨fun a ha hnone => ?_, le_of_view_nname (congrArg EntryView.nname h.same), hptr ▸ h.written⟩
    have hattrs := congrArg EntryView.attrs h.same
    rw [view_attrs] at hattrs
    have hview := List.map_inj_left.mp hattrs a ha
    rw [attrDup_eq, hnone] at hview
    cases congrArg AttributeView.nvals hview
  · rintro ⟨hnvals, hle, hroom⟩
    refine ⟨?_, ?_, ?_, ?_, hptr ▸ hroom⟩
    · have hattrs : (entryDupBv m e).view.attrs = (entryDup e).attrs := by
        rw [view_attrs]
        refine map_congr_left fun a ha => ?_
        obtain ⟨ns, hns⟩ := Option.ne_none_iff_exists'.mp (hnvals a ha)
        rw [attrDup_eq, hns, Option.getD_some]
      have hid : (entryDupBv m e).view.id = e.id ∧ (entryDupBv m e).view.ocflags = e.ocflags := ⟨rfl, rfl⟩
      calc (entryDupBv m e).view = ⟨e.id, e.name, e.nname, (entryDup e).attrs, e.ocflags⟩ := by
            rw [← hid.1, ← hid.2, ← hattrs]
            conv_rhs => rw [← view_name (m := m) (e := e), ← view_nname_of_le (m := m) hle]
        _ = entryDup e := rfl
    · rw [spans_eq]
      refine .cons (fun s hs => Or.inl ?_) (.cons (fun s hs => Or.inl ?_) (layout_apart _ _))
      · rcases List.mem_cons.mp hs with rfl | hs
        · simp
        · have := (layout_bounds hs).1
          simp only
          omega
      · have := (layout_bounds hs).1
        simp only
        omega
    · rw [entryPartsize_eq, entryDupBv_eq]
    · intro s hs
      have hlen := @partsize_len δ cname e
      rw [spans_eq] at hs
      simp only [mem_cons] at hs
      rcases hs with rfl | rfl | hs
      · simp only
        omega
      · simp only
        omega
      · have := (layout_bounds hs).2
        omega

/-- `cn=Å`, whose normal form is one octet longer, in a value and in the names. -/
theorem entry_dup_bv_cuts_nname : ¬ BlockRight (fun d : List Octet => d) (fun _ => 0)
    { id := 1
      name := [99, 110, 61, 0xc5, 0x89]
      nname := [99, 110, 61, 0xca, 0xbc, 110]
      attrs := [⟨[99, 110], [[0xc5, 0x89]], some [[0xca, 0xbc, 110]], 1, rfl, by simp⟩]
      ocflags := 0
      nname_text := by simp } := by
  intro h
  have := congrArg EntryView.nname h.same
  revert this
  decide

end
end EntryBlock
end Slapd
end ReOpenLDAP
