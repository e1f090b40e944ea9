import ReOpenLDAP.Lib.Copying
import ReOpenLDAP.Slapd.GetFilter

/-!
# Slapd.FilterCopy

Filters in memory, and `filter_dup`.

* `Node.blocks`     — the memory that belongs to it alone.
-/

namespace ReOpenLDAP
namespace Slapd
namespace FilterCopy

open BackMdb (Byte Value AttributeDescription Compare MraRule)
open Copying

/-- `strncpy` behind `ad_cname`: nothing of a name is left behind a NUL. -/
def strncpy (bv : Value) : Value := bv.takeWhile (· ≠ 0) ++ List.replicate (bv.dropWhile (· ≠ 0)).length 0

theorem strncpy_strncpy (bv : Value) : strncpy (strncpy bv) = strncpy bv := by
  induction bv with
  | nil => rfl
  | cons b bv ih =>
    by_cases hb : b = 0
    · subst hb
      simp [strncpy, List.replicate_succ]
    · simpa [strncpy, hb] using ih

/-- The name that `slap_bv2tmp_ad` stores. -/
structure TmpName where
  cname : Value
  padded : strncpy cname = cname
deriving DecidableEq

/-- `AttributeDescription`: one of the schema, which all share, or one with `SLAP_DESC_TEMPORARY` in a block of its own. -/
inductive Desc where
  | permanent (ad : AttributeDescription)
  | temporary (addr : ℕ) (name : TmpName)
deriving DecidableEq

namespace Desc

def isTemporary : Desc → Bool
  | permanent _ => false
  | temporary _ _ => true

def cname : Desc → Value
  | permanent ad => ad.cname.toList.map fun c => Fin.ofNat 256 c.toNat
  | temporary _ name => name.cname

/-- `tmp` gives a description for each temporary one. -/
def ad (tmp : Value → AttributeDescription) : Desc → AttributeDescription
  | permanent ad => ad
  | temporary _ name => tmp name.cname

def blocks : Desc → List ℕ
  | permanent _ => []
  | temporary addr _ => [addr]

def plain : Desc → Desc
  | permanent ad => permanent ad
  | temporary _ name => temporary 0 name

end Desc

/-- A `berval` and its block. -/
structure Bv where
  addr : ℕ
  val : Value
deriving DecidableEq

def Bv.plain (bv : Bv) : Bv := { bv with addr := 0 }

structure AttributeAssertion where
  addr : ℕ
  aa_desc : Desc
  aa_value : Bv
deriving DecidableEq

/-- `sa_any` has its array, and the values in it. -/
structure SubstringsAssertion where
  addr : ℕ
  sa_desc : Desc
  sa_initial : Option Bv
  sa_any : Option (ℕ × List Bv)
  sa_final : Option Bv
deriving DecidableEq

structure MraNode where
  addr : ℕ
  ma_desc : Option Desc
  ma_value : Bv
  ma_rule : MraRule
  ma_rule_text : Option Value
  ma_dnattrs : Bool
deriving DecidableEq

/-- The union `f_un`, by the member that was stored; `f_un_complex` is apart. -/
inductive Un where
  | result (r : Compare)
  | desc (d : Desc)
  | ava (a : AttributeAssertion)
  | ssa (s : SubstringsAssertion)
  | mra (m : MraNode)
deriving DecidableEq

/-- `Filter`. -/
inductive Node where
  | item (addr choice : ℕ) (un : Un)
  | list (addr choice : ℕ) (fs : List Node)

def AttributeAssertion.blocks (a : AttributeAssertion) : List ℕ := a.addr :: a.aa_value.addr :: a.aa_desc.blocks

def SubstringsAssertion.blocks (s : SubstringsAssertion) : List ℕ :=
  s.addr :: s.sa_desc.blocks ++ s.sa_initial.toList.map Bv.addr ++
    (s.sa_any.toList.flatMap fun any => any.1 :: any.2.map Bv.addr) ++ s.sa_final.toList.map Bv.addr

def MraNode.blocks (m : MraNode) : List ℕ := m.addr :: m.ma_value.addr :: m.ma_desc.toList.flatMap Desc.blocks

def Un.blocks : Un → List ℕ
  | result _ => []
  | desc d => d.blocks
  | ava a => a.blocks
  | ssa s => s.blocks
  | mra m => m.blocks

mutual

def Node.blocks : Node → List ℕ
  | .item addr _ un => addr :: un.blocks
  | .list addr _ fs => addr :: blocksList fs

def blocksList : List Node → List ℕ
  | [] => []
  | f :: fs => f.blocks ++ blocksList fs

end

def AttributeAssertion.plain (a : AttributeAssertion) : AttributeAssertion := ⟨0, a.aa_desc.plain, a.aa_value.plain⟩

def SubstringsAssertion.plain (s : SubstringsAssertion) : SubstringsAssertion :=
  ⟨0, s.sa_desc.plain, s.sa_initial.map Bv.plain, s.sa_any.map fun any => (0, any.2.map Bv.plain), s.sa_final.map Bv.plain⟩

def MraNode.plain (m : MraNode) : MraNode := { m with addr := 0, ma_desc := m.ma_desc.map Desc.plain, ma_value := m.ma_value.plain }

def Un.plain : Un → Un
  | result r => result r
  | desc d => desc d.plain
  | ava a => ava a.plain
  | ssa s => ssa s.plain
  | mra m => mra m.plain

mutual

def Node.plain : Node → Node
  | .item _ choice un => .item 0 choice un.plain
  | .list _ choice fs => .list 0 choice (plainList fs)

def plainList : List Node → List Node
  | [] => []
  | f :: fs => f.plain :: plainList fs

end

def SLAPD_FILTER_COMPUTED : ℕ := 0

def SLAPD_FILTER_MASK : ℕ := 0x7fff

def SLAPD_FILTER_UNDEFINED : ℕ := 0x8000

def isUndefined (choice : ℕ) : Bool := choice &&& SLAPD_FILTER_UNDEFINED ≠ 0

def tagged (tag : ℕ) (undefined : Bool) : ℕ := if undefined then tag ||| SLAPD_FILTER_UNDEFINED else tag

inductive Member where
  | result
  | desc
  | ava
  | ssa
  | mra
  | complex
deriving DecidableEq

def member (tag : ℕ) : Option Member :=
  if tag = SLAPD_FILTER_COMPUTED then some .result
  else if tag = LDAP_FILTER_PRESENT then some .desc
  else if tag = LDAP_FILTER_EQUALITY ∨ tag = LDAP_FILTER_GE ∨ tag = LDAP_FILTER_LE ∨ tag = LDAP_FILTER_APPROX then some .ava
  else if tag = LDAP_FILTER_SUBSTRINGS then some .ssa
  else if tag = LDAP_FILTER_EXT then some .mra
  else if tag = LDAP_FILTER_AND ∨ tag = LDAP_FILTER_OR ∨ tag = LDAP_FILTER_NOT then some .complex
  else none

structure Read where
  tag : ℕ
  member : Member
deriving DecidableEq

def Read.Belongs (r : Read) : Prop := FilterCopy.member r.tag = some r.member

instance (r : Read) : Decidable r.Belongs := inferInstanceAs (Decidable (_ = _))

namespace Un

def fResult : Un → Option Compare
  | result r => some r
  | _ => none

def fDesc : Un → Option Desc
  | desc d => some d
  | _ => none

def fAva : Un → Option AttributeAssertion
  | ava a => some a
  | _ => none

def fSub : Un → Option SubstringsAssertion
  | ssa s => some s
  | _ => none

def fMra : Un → Option MraNode
  | mra m => some m
  | _ => none

/-- `f_sub_desc`, the first field of a `SubstringsAssertion`. The other assertions have their description there too. -/
def fSubDesc : Un → Option Desc
  | ssa s => some s.sa_desc
  | ava a => some a.aa_desc
  | mra m => m.ma_desc
  | _ => none

end Un

def slapBv2tmpAd (bv : Value) : Copier Read Desc :=
  bind malloc fun addr => ret (.temporary addr ⟨strncpy bv, strncpy_strncpy bv⟩)

/-- The description `d` is copied if the flags of `tested` have `SLAP_DESC_TEMPORARY`. -/
def dupDesc (tested d : Desc) : Copier Read Desc := if tested.isTemporary then slapBv2tmpAd d.cname else ret d

def berDupbv (bv : Bv) : Copier Read Bv := bind malloc fun addr => ret ⟨addr, bv.val⟩

def dupOption {α : Type*} (f : α → Copier Read α) : Option α → Copier Read (Option α)
  | none => ret none
  | some a => bind (f a) fun a => ret (some a)

def dupAny (any : ℕ × List Bv) : Copier Read (ℕ × List Bv) :=
  bind malloc fun addr => bind (mapM berDupbv any.2) fun any => ret (addr, any)

def dupUn (tag : ℕ) (un : Un) : Copier Read Un :=
  if tag = SLAPD_FILTER_COMPUTED then bind (examine ⟨tag, .result⟩ un.fResult) fun r => ret (.result r)
  else if tag = LDAP_FILTER_PRESENT then
    bind (examine ⟨tag, .desc⟩ un.fDesc) fun d => bind (dupDesc d d) fun d => ret (.desc d)
  else if tag = LDAP_FILTER_EQUALITY ∨ tag = LDAP_FILTER_GE ∨ tag = LDAP_FILTER_LE ∨ tag = LDAP_FILTER_APPROX then
    bind (examine ⟨tag, .ava⟩ un.fAva) fun a => bind malloc fun addr => bind (dupDesc a.aa_desc a.aa_desc) fun d =>
      bind (berDupbv a.aa_value) fun value => ret (.ava ⟨addr, d, value⟩)
  else if tag = LDAP_FILTER_SUBSTRINGS then
    bind (examine ⟨tag, .ssa⟩ un.fSub) fun s => bind malloc fun addr => bind (dupDesc s.sa_desc s.sa_desc) fun d =>
      bind (dupOption berDupbv s.sa_initial) fun initial => bind (dupOption dupAny s.sa_any) fun any =>
        bind (dupOption berDupbv s.sa_final) fun final => ret (.ssa ⟨addr, d, initial, any, final⟩)
  else if tag = LDAP_FILTER_EXT then
    bind (examine ⟨tag, .mra⟩ un.fMra) fun m => bind malloc fun addr =>
      -- the flags are those of `f_sub_desc`
      bind (dupOption (fun d => bind (examine ⟨tag, .ssa⟩ un.fSubDesc) fun tested => dupDesc tested d) m.ma_desc) fun d =>
        bind (berDupbv m.ma_value) fun value => ret (.mra { m with addr := addr, ma_desc := d, ma_value := value })
  else fail

mutual

def filterDup : Node → Copier Read Node
  | .item _ choice un =>
    bind malloc fun addr => bind (dupUn (choice &&& SLAPD_FILTER_MASK) un) fun un => ret (.item addr choice un)
  | .list _ choice fs =>
    let tag := choice &&& SLAPD_FILTER_MASK
    if tag = LDAP_FILTER_AND ∨ tag = LDAP_FILTER_OR ∨ tag = LDAP_FILTER_NOT then
      bind malloc fun addr => bind (examine ⟨tag, .complex⟩ (some ())) fun _ =>
        bind (filterDupList fs) fun fs => ret (.list addr choice fs)
    else fail

/-- The loop over `f_list`. -/
def filterDupList : List Node → Copier Read (List Node)
  | [] => ret []
  | f :: fs => bind (filterDup f) fun f => bind (filterDupList fs) fun fs => ret (f :: fs)

end

/-! ## Well-formed filters -/

def Un.member : Un → Member
  | result _ => .result
  | desc _ => .desc
  | ava _ => .ava
  | ssa _ => .ssa
  | mra _ => .mra

def Un.desc? : Un → Option Desc
  | result _ => none
  | desc d => some d
  | ava a => some a.aa_desc
  | ssa s => some s.sa_desc
  | mra m => m.ma_desc

structure ItemOk (choice : ℕ) (un : Un) : Prop where
  member : member (choice &&& SLAPD_FILTER_MASK) = some un.member
  temporary : ∀ d ∈ un.desc?, d.isTemporary = true → isUndefined choice = true

inductive WellFormed : Node → Prop where
  | item (addr : ℕ) {choice : ℕ} {un : Un} (h : ItemOk choice un) : WellFormed (.item addr choice un)
  | list (addr : ℕ) {tag : ℕ} {fs : List Node} (htag : tag = LDAP_FILTER_AND ∨ tag = LDAP_FILTER_OR ∨ tag = LDAP_FILTER_NOT)
    (hfs : ∀ f ∈ fs, WellFormed f) : WellFormed (.list addr tag fs)

mutual

def Node.NoExtDesc : Node → Prop
  | .item _ _ (.mra m) => m.ma_desc = none
  | .item _ _ _ => True
  | .list _ _ fs => NoExtDescList fs

def NoExtDescList : List Node → Prop
  | [] => True
  | f :: fs => f.NoExtDesc ∧ NoExtDescList fs

end

theorem noExtDescList_iff (fs : List Node) : NoExtDescList fs ↔ ∀ f ∈ fs, f.NoExtDesc := by
  induction fs with
  | nil => simp [NoExtDescList]
  | cons f fs ih => simp [NoExtDescList, ih]

section

variable {base : ℕ}

theorem makes_dupDesc (d : Desc) :
    Makes Read.Belongs base (dupDesc d d) True fun d' => d'.plain = d.plain ∧ ∀ b ∈ d'.blocks, base ≤ b := by
  cases d with
  | permanent ad => exact makes_ret ⟨rfl, by simp [Desc.blocks]⟩
  | temporary addr name =>
    have hdup : dupDesc (.temporary addr name) (.temporary addr name) = slapBv2tmpAd name.cname := rfl
    rw [hdup, slapBv2tmpAd]
    refine Makes.imp (makes_bind makes_malloc fun addr haddr => makes_ret ?_) and_self_iff fun _ h => h
    refine ⟨?_, by simpa [Desc.blocks] using haddr⟩
    obtain ⟨cname, padded⟩ := name
    simp only [Desc.plain, padded]

theorem makes_berDupbv (bv : Bv) :
    Makes Read.Belongs base (berDupbv bv) True fun bv' => bv'.plain = bv.plain ∧ base ≤ bv'.addr :=
  (makes_bind makes_malloc fun _ haddr => makes_ret ⟨rfl, haddr⟩).imp and_self_iff fun _ h => h

theorem makes_dupOption {α : Type*} {f : α → Copier Read α} {x : Option α} {cond : Prop} {ok : α → α → Prop}
    (h : ∀ a ∈ x, Makes Read.Belongs base (f a) cond (ok a)) :
    Makes Read.Belongs base (dupOption f x) (x.isSome → cond) (Option.Rel ok x) := by
  cases x with
  | none => exact (makes_ret .none).imp (by simp) fun _ h => h
  | some a => exact (makes_bind (h a rfl) fun b hb => makes_ret (.some hb)).imp (by simp) fun _ h => h

theorem values_spec {bvs bvs' : List Bv} (h : List.Forall₂ (fun bv bv' => bv'.plain = bv.plain ∧ base ≤ bv'.addr) bvs bvs') :
    bvs'.map Bv.plain = bvs.map Bv.plain ∧ ∀ b ∈ bvs'.map Bv.addr, base ≤ b := by
  induction h with
  | nil => simp
  | cons hhead _ ih =>
    refine ⟨by rw [List.map_cons, List.map_cons, hhead.1, ih.1], ?_⟩
    rw [List.map_cons, List.forall_mem_cons]
    exact ⟨hhead.2, ih.2⟩

theorem makes_dupAny (any : ℕ × List Bv) : Makes Read.Belongs base (dupAny any) True fun any' =>
    any'.2.map Bv.plain = any.2.map Bv.plain ∧ ∀ b ∈ any'.1 :: any'.2.map Bv.addr, base ≤ b := by
  have hvalues := @makes_mapM _ _ _ Read.Belongs base berDupbv any.2 (fun _ => True) _ fun bv _ => makes_berDupbv bv
  refine Makes.imp (makes_bind makes_malloc fun addr haddr => makes_bind hvalues fun bvs hbvs => makes_ret ?_)
    (by simp) fun _ h => h
  exact ⟨(values_spec hbvs).1, List.forall_mem_cons.mpr ⟨haddr, (values_spec hbvs).2⟩⟩

theorem option_spec {x x' : Option Bv} (h : Option.Rel (fun bv bv' => bv'.plain = bv.plain ∧ base ≤ bv'.addr) x x') :
    x'.map Bv.plain = x.map Bv.plain ∧ ∀ b ∈ x'.toList.map Bv.addr, base ≤ b := by
  cases h with
  | none => simp
  | some h => simp [h.1, h.2]

theorem any_spec {x x' : Option (ℕ × List Bv)} (h : Option.Rel (fun any any' =>
    any'.2.map Bv.plain = any.2.map Bv.plain ∧ ∀ b ∈ any'.1 :: any'.2.map Bv.addr, base ≤ b) x x') :
    x'.map (fun any => (0, any.2.map Bv.plain)) = x.map (fun any => (0, any.2.map Bv.plain)) ∧
      ∀ b ∈ x'.toList.flatMap fun any => any.1 :: any.2.map Bv.addr, base ≤ b := by
  cases h with
  | none => simp
  | some h => exact ⟨by rw [Option.map_some, Option.map_some, h.1], by simpa using h.2⟩

theorem desc_spec {x x' : Option Desc} (h : Option.Rel (fun d d' => d'.plain = d.plain ∧ ∀ b ∈ d'.blocks, base ≤ b) x x') :
    x'.map Desc.plain = x.map Desc.plain ∧ ∀ b ∈ x'.toList.flatMap Desc.blocks, base ≤ b := by
  cases h with
  | none => simp
  | some h => exact ⟨by rw [Option.map_some, Option.map_some, h.1], by simpa using h.2⟩

theorem member_spec {tag : ℕ} {m : Member} (h : member tag = some m) :
    (m = .result → tag = SLAPD_FILTER_COMPUTED) ∧ (m = .desc → tag = LDAP_FILTER_PRESENT) ∧
    (m = .ava → tag = LDAP_FILTER_EQUALITY ∨ tag = LDAP_FILTER_GE ∨ tag = LDAP_FILTER_LE ∨ tag = LDAP_FILTER_APPROX) ∧
    (m = .ssa → tag = LDAP_FILTER_SUBSTRINGS) ∧ (m = .mra → tag = LDAP_FILTER_EXT) ∧
    (m = .complex → tag = LDAP_FILTER_AND ∨ tag = LDAP_FILTER_OR ∨ tag = LDAP_FILTER_NOT) := by
  unfold member at h
  split_ifs at h with h₁ h₂ h₃ h₄ h₅ h₆
  all_goals
    obtain rfl := Option.some.inj h
    simp_all

def Copied (base : ℕ) (un un' : Un) : Prop := un'.plain = un.plain ∧ ∀ b ∈ un'.blocks, base ≤ b

theorem makes_dup_ava {tag : ℕ} (htag : member tag = some .ava) (a : AttributeAssertion) :
    Makes Read.Belongs base (dupUn tag (.ava a)) True (Copied base (.ava a)) := by
  have hcase : dupUn tag (.ava a) = bind (examine ⟨tag, .ava⟩ (some a)) fun a => bind malloc fun addr =>
      bind (dupDesc a.aa_desc a.aa_desc) fun d => bind (berDupbv a.aa_value) fun value => ret (.ava ⟨addr, d, value⟩) := by
    rcases (member_spec htag).2.2.1 rfl with rfl | rfl | rfl | rfl <;> rfl
  rw [hcase]
  refine Makes.imp (makes_examine (makes_bind makes_malloc fun addr haddr => makes_bind (makes_dupDesc _) fun d hd =>
    makes_bind (makes_berDupbv _) fun value hvalue => makes_ret ?_)) (by simpa [Read.Belongs] using htag) fun _ h => h
  refine ⟨?_, ?_⟩
  · rw [Un.plain, Un.plain, AttributeAssertion.plain, AttributeAssertion.plain, hd.1, hvalue.1]
  · simpa [Un.blocks, AttributeAssertion.blocks] using ⟨haddr, hvalue.2, hd.2⟩

theorem makes_dup_ssa (s : SubstringsAssertion) :
    Makes Read.Belongs base (dupUn LDAP_FILTER_SUBSTRINGS (.ssa s)) True (Copied base (.ssa s)) := by
  have hcase : dupUn LDAP_FILTER_SUBSTRINGS (.ssa s) = bind (examine ⟨LDAP_FILTER_SUBSTRINGS, .ssa⟩ (some s)) fun s =>
      bind malloc fun addr => bind (dupDesc s.sa_desc s.sa_desc) fun d => bind (dupOption berDupbv s.sa_initial) fun initial =>
        bind (dupOption dupAny s.sa_any) fun any => bind (dupOption berDupbv s.sa_final) fun final =>
          ret (.ssa ⟨addr, d, initial, any, final⟩) := rfl
  rw [hcase]
  have hvalue (x : Option Bv) := @makes_dupOption base _ berDupbv x True _ fun bv _ => makes_berDupbv bv
  have hany := @makes_dupOption base _ dupAny s.sa_any True _ fun any _ => makes_dupAny any
  refine Makes.imp (makes_examine (makes_bind makes_malloc fun addr haddr => makes_bind (makes_dupDesc _) fun d hd =>
    makes_bind (hvalue _) fun initial hinitial => makes_bind hany fun any hany => makes_bind (hvalue _) fun final hfinal =>
      makes_ret ?_)) (by simp; decide) fun _ h => h
  obtain ⟨hinitial, hinitial'⟩ := option_spec hinitial
  obtain ⟨hfinal, hfinal'⟩ := option_spec hfinal
  obtain ⟨hany, hany'⟩ := any_spec hany
  refine ⟨?_, ?_⟩
  · simp only [Un.plain, SubstringsAssertion.plain, hd.1, hinitial, hfinal, hany]
  · simp only [Un.blocks, SubstringsAssertion.blocks, List.cons_append, List.forall_mem_cons, List.forall_mem_append]
    exact ⟨haddr, ⟨⟨hd.2, hinitial'⟩, hany'⟩, hfinal'⟩

theorem makes_dup_mra (m : MraNode) :
    Makes Read.Belongs base (dupUn LDAP_FILTER_EXT (.mra m)) (m.ma_desc = none) (Copied base (.mra m)) := by
  have hcase : dupUn LDAP_FILTER_EXT (.mra m) = bind (examine ⟨LDAP_FILTER_EXT, .mra⟩ (some m)) fun m =>
      bind malloc fun addr =>
        bind (dupOption (fun d => bind (examine ⟨LDAP_FILTER_EXT, .ssa⟩ (Un.mra m).fSubDesc) fun tested => dupDesc tested d)
          m.ma_desc) fun d =>
          bind (berDupbv m.ma_value) fun value => ret (.mra { m with addr := addr, ma_desc := d, ma_value := value }) := rfl
  rw [hcase]
  have hdesc : Makes Read.Belongs base
      (dupOption (fun d => bind (examine ⟨LDAP_FILTER_EXT, .ssa⟩ (Un.mra m).fSubDesc) fun tested => dupDesc tested d) m.ma_desc)
      (m.ma_desc.isSome → False) (Option.Rel (fun d d' => d'.plain = d.plain ∧ ∀ b ∈ d'.blocks, base ≤ b) m.ma_desc) := by
    refine makes_dupOption fun d hd => ?_
    have hread : (Un.mra m).fSubDesc = some d := hd
    rw [hread]
    exact Makes.imp (makes_examine (makes_dupDesc d)) (by decide) fun _ h => h
  refine Makes.imp (makes_examine (makes_bind makes_malloc fun addr haddr => makes_bind hdesc fun d hd =>
    makes_bind (makes_berDupbv _) fun value hvalue => makes_ret ?_)) ?_ fun _ h => h
  · obtain ⟨hplain, hblocks⟩ := desc_spec hd
    refine ⟨?_, ?_⟩
    · simp only [Un.plain, MraNode.plain, hplain, hvalue.1]
    · simp only [Un.blocks, MraNode.blocks, List.forall_mem_cons]
      exact ⟨haddr, hvalue.2, hblocks⟩
  · have hext : Read.Belongs ⟨LDAP_FILTER_EXT, .mra⟩ := by decide
    simp [hext]

theorem makes_dupUn {choice : ℕ} {un : Un} (h : ItemOk choice un) (addr : ℕ) :
    Makes Read.Belongs base (dupUn (choice &&& SLAPD_FILTER_MASK) un) (Node.item addr choice un).NoExtDesc (Copied base un) := by
  obtain ⟨hresult, hdesc, -, hssa, hmra, -⟩ := member_spec h.member
  cases un with
  | result r =>
    rw [hresult rfl]
    have hcopied : Copied base (.result r) (.result r) := ⟨rfl, by simp [Un.blocks]⟩
    exact Makes.imp (makes_examine (makes_ret hcopied)) (by simp [Node.NoExtDesc]; decide) fun _ h => h
  | desc d =>
    rw [hdesc rfl]
    refine Makes.imp (makes_examine (makes_bind (makes_dupDesc d) fun d' hd => makes_ret ?_)) (by simp [Node.NoExtDesc]; decide)
      fun _ h => h
    exact ⟨by rw [Un.plain, Un.plain, hd.1], hd.2⟩
  | ava a => exact makes_dup_ava h.member a
  | ssa s =>
    rw [hssa rfl]
    exact makes_dup_ssa s
  | mra m =>
    rw [hmra rfl]
    exact makes_dup_mra m

end

section

variable {base : ℕ}

theorem filterDupList_eq (fs : List Node) : filterDupList fs = mapM filterDup fs := by
  induction fs with
  | nil => rfl
  | cons f fs ih => rw [filterDupList, ih, mapM]

theorem makes_filterDup {f : Node} (h : WellFormed f) : Makes Read.Belongs base (filterDup f) f.NoExtDesc fun g =>
    g.plain = f.plain ∧ ∀ b ∈ g.blocks, base ≤ b := by
  induction h with
  | @item addr choice un h =>
    rw [filterDup]
    refine Makes.imp (makes_bind makes_malloc fun addr' haddr => makes_bind (makes_dupUn h addr) fun un' hun => makes_ret ?_)
      (by simp) fun _ h => h
    refine ⟨by rw [Node.plain, Node.plain, hun.1], ?_⟩
    rw [Node.blocks, List.forall_mem_cons]
    exact ⟨haddr, hun.2⟩
  | @list addr tag fs htag hwf ih =>
    have hmask : tag &&& SLAPD_FILTER_MASK = tag := by rcases htag with rfl | rfl | rfl <;> rfl
    have hread : Read.Belongs ⟨tag, .complex⟩ := by rcases htag with rfl | rfl | rfl <;> decide
    rw [filterDup]
    simp only [hmask]
    rw [if_pos htag, filterDupList_eq]
    refine Makes.imp (makes_bind makes_malloc fun addr' haddr => makes_examine (makes_bind (makes_mapM ih) fun fs' hfs =>
      makes_ret ?_)) ?_ fun _ h => h
    · have hlist : plainList fs' = plainList fs ∧ ∀ b ∈ blocksList fs', base ≤ b := by
        clear ih hwf
        induction hfs with
        | nil => simp [blocksList]
        | cons hhead _ ih' =>
          rw [plainList, plainList, hhead.1, ih'.1, blocksList, List.forall_mem_append]
          exact ⟨rfl, hhead.2, ih'.2⟩
      refine ⟨by rw [Node.plain, Node.plain, hlist.1], ?_⟩
      rw [Node.blocks, List.forall_mem_cons]
      exact ⟨haddr, hlist.2⟩
    · rw [Node.NoExtDesc, noExtDescList_iff]
      simp [hread]

end

end FilterCopy
end Slapd
end ReOpenLDAP
