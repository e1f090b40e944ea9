import ReOpenLDAP.Lib.ReaderWriter
import ReOpenLDAP.Lib.Run

/-!
# Slapd.Rurwl

The lock for readers and a writer that a thread may take again, give up and obtain.
-/

namespace ReOpenLDAP
namespace Slapd

open Function

/-- `RURW_LOCK_MAXTHREADS` -/
abbrev Place := Fin 64

/-- `rurw_thr_state_t`; no thread is zero -/
structure ThrState (τ : Type*) where
  thr : Option τ
  state : Depth

structure RurwLock (τ : Type*) where
  rurwMutex : Option τ
  rurwReaders : ℕ
  rurwWriter : Bool
  rurwFullscanBitmask : Place → Bool
  state : Place → ThrState τ

/-- What a function comes to: `stop` is `LDAP_BUG` and its kind, `misuse` a wait or a release of the mutex by a thread without it. -/
inductive Outcome (τ : Type*) where
  | back (p : RurwLock τ)
  | waits (p : RurwLock τ)
  | misuse
  | stop

/-- Where `rurw_enter` is when it returns or locks the mutex. -/
inductive Entry where
  | found (i : Place)
  | null
  | lockOwn (i : Place)
  | lockScan (mask : Option Place)

variable {τ : Type*} [DecidableEq τ]

def rurwLockInit : RurwLock τ := ⟨none, 0, false, fun _ => false, fun _ => ⟨none, ⟨0, 0⟩⟩⟩

namespace RurwLock

variable (p : RurwLock τ) (t : τ)

def find : Option Place := (List.finRange 64).find? fun i => (p.state i).thr = some t

def free : Option Place := (List.finRange 64).find? fun i => (p.state i).thr.isNone

def setThr (i : Place) (thr : Option τ) : RurwLock τ := { p with state := update p.state i { p.state i with thr := thr } }

def setState (i : Place) (d : Depth) : RurwLock τ := { p with state := update p.state i { p.state i with state := d } }

/-- Behind the label `locked` -/
def locked (mask : Option Place) : Option (RurwLock τ × Place) :=
  p.free.map fun i =>
    ({ p.setThr i (some t) with rurwFullscanBitmask := fun k => if mask = some k then true else p.rurwFullscanBitmask k }, i)

/-- The rest of `rurw_enter` with the mutex. -/
def take : Entry → Option (RurwLock τ × Place)
  | .found i => some (p, i)
  | .null => none
  | .lockOwn i =>
    if (p.state i).thr.isSome then p.locked t (some i)
    else some ({ p.setThr i (some t) with rurwFullscanBitmask := update p.rurwFullscanBitmask i false }, i)
  | .lockScan mask => p.locked t mask

/-- `ldap_pvt_thread_mutex_unlock` -/
def unlock : Outcome τ := if p.rurwMutex = some t then .back { p with rurwMutex := none } else .misuse

/-- `ldap_pvt_thread_cond_wait`, until it takes the mutex again -/
def wait : Outcome τ := if p.rurwMutex = some t then .waits { p with rurwMutex := none } else .misuse

end RurwLock

section

variable (p : RurwLock τ) (t : τ) (i : Place)

/-- Behind the label `fullscan` -/
def fullscan (acquire : Bool) (mask : Option Place) : Entry :=
  match p.find t with
  | some i => .found i
  | none => if acquire then .lockScan mask else .null

/-- `rurw_enter` up to the mutex -/
def rurwEnter (index : ℕ) (acquire : Bool) : Entry :=
  if h : index < 64 then
    let i : Place := ⟨index, h⟩
    if (p.state i).thr = some t then .found i
    else if (p.state i).thr = none then
      if acquire then .lockOwn i
      else if p.rurwFullscanBitmask i then fullscan p t acquire (some i) else .null
    else fullscan p t acquire (some i)
  else fullscan p t acquire none

/-- The loop of `rurw_r_lock` -/
def rLockLoop : Outcome τ :=
  if p.rurwWriter then p.wait t
  else { p.setState i { (p.state i).state with r := 1 } with rurwReaders := p.rurwReaders + 1 }.unlock t

def rurwRLock : Outcome τ :=
  if (p.state i).state.r ≠ 0 then
    if (p.state i).state.r < 0xFFFF then .back (p.setState i { (p.state i).state with r := (p.state i).state.r + 1 }) else .stop
  else rLockLoop p t i

/-- The loop of `rurw_w_lock` -/
def wLockLoop : Outcome τ :=
  if p.rurwReaders ≠ 0 ∨ p.rurwWriter then p.wait t
  else { p.setState i { (p.state i).state with w := 1 } with rurwWriter := true }.unlock t

def rurwWLock : Outcome τ :=
  if (p.state i).state.w ≠ 0 then
    if (p.state i).state.w < 0xFFFF then .back (p.setState i { (p.state i).state with w := (p.state i).state.w + 1 }) else .stop
  else wLockLoop p t i

/-- `rurw_r_unlock` with the mutex -/
def rurwRUnlock : Outcome τ :=
  let s := (p.state i).state
  if s.r = 0 ∨ p.rurwReaders = 0 then .stop
  else
    let p := p.setState i { s with r := s.r - 1 }
    (if s.r - 1 = 0 then { (if s.w = 0 then p.setThr i none else p) with rurwReaders := p.rurwReaders - 1 } else p).unlock t

/-- `rurw_w_unlock` with the mutex -/
def rurwWUnlock : Outcome τ :=
  let s := (p.state i).state
  if s.w = 0 ∨ p.rurwWriter = false then .stop
  else
    let p := p.setState i { s with w := s.w - 1 }
    (if s.w - 1 = 0 then { (if s.r = 0 then p.setThr i none else p) with rurwWriter := false } else p).unlock t

/-- `rurw_retreat` with the mutex; it returns the depths of the slot -/
def rurwRetreat : Outcome τ :=
  let s := (p.state i).state
  if s = ⟨0, 0⟩ ∨ s.r ≠ 0 ∧ p.rurwReaders = 0 ∨ s.w ≠ 0 ∧ p.rurwWriter = false then .stop
  else
    let p := if s.r ≠ 0 then { p.setState i { s with r := 0 } with rurwReaders := p.rurwReaders - 1 } else p
    let p := if s.w ≠ 0 then { p.setState i ⟨0, 0⟩ with rurwWriter := false } else p
    (p.setThr i none).unlock t

/-- The loops of `rurw_obtain` -/
def obtainLoop : Outcome τ :=
  let s := (p.state i).state
  if s.w ≠ 0 then
    if p.rurwReaders ≠ 0 ∨ p.rurwWriter then p.wait t
    else { p with rurwWriter := true, rurwReaders := p.rurwReaders + if 0 < s.r then 1 else 0 }.unlock t
  else if p.rurwWriter then p.wait t
  else { p with rurwReaders := p.rurwReaders + 1 }.unlock t

/-- `rurw_obtain` with a slot -/
def rurwObtain (state : Depth) : Outcome τ := obtainLoop (p.setState i state) t i

end

/-! ## Threads -/

namespace Rurw

inductive Call where
  | rLock
  | rUnlock
  | wLock
  | wUnlock
  | retreat
  | obtain (state : Depth)
  deriving DecidableEq

/-- How a function calls `rurw_enter`. -/
def Call.acquire : Call → Bool
  | rLock | wLock | obtain _ => true
  | rUnlock | wUnlock | retreat => false

def body (p : RurwLock τ) (t : τ) (i : Place) : Call → Outcome τ
  | .rLock => rurwRLock p t i
  | .rUnlock => rurwRUnlock p t i
  | .wLock => rurwWLock p t i
  | .wUnlock => rurwWUnlock p t i
  | .retreat => rurwRetreat p t i
  | .obtain state => rurwObtain p t i state

def loop (p : RurwLock τ) (t : τ) (i : Place) : Call → Outcome τ
  | .rLock => rLockLoop p t i
  | .wLock => wLockLoop p t i
  | .obtain _ => obtainLoop p t i
  | _ => .stop

inductive Pc where
  | idle
  | locking (c : Call) (e : Entry)
  | waiting (c : Call) (i : Place)

/-- The lock and its threads, with the numbers that `rurw_thread_index` gave them. -/
structure System (τ : Type*) where
  lock : RurwLock τ
  index : τ → ℕ
  last : ℕ
  pc : τ → Pc
  misuse : Bool

def init : System τ := ⟨rurwLockInit, fun _ => 0, 0, fun _ => .idle, false⟩

inductive Act (τ : Type*) where
  | call (t : τ) (c : Call)
  | lock (t : τ)
  | wake (t : τ)

def Act.thread : Act τ → τ
  | call t _ | lock t | wake t => t

namespace System

variable (s : System τ)

/-- `rurw_thread_index`, before it takes one off -/
def threadIndex (t : τ) : System τ :=
  if s.index t ≠ 0 then s
  else if s.last < 64 then { s with index := update s.index t (s.last + 1), last := s.last + 1 }
  else { s with index := update s.index t (2 ^ 31 - 1) }

def after (t : τ) (c : Call) (i : Place) : Outcome τ → Option (System τ)
  | .back p => some { s with lock := p, pc := update s.pc t .idle }
  | .waits p => some { s with lock := p, pc := update s.pc t (.waiting c i) }
  | .misuse => some { s with misuse := true }
  | .stop => none

def call (t : τ) (c : Call) : Option (System τ) :=
  match rurwEnter s.lock t (s.index t - 1) c.acquire with
  | .null => some s
  | .found i =>
    if c.acquire then s.after t c i (body s.lock t i c) else some { s with pc := update s.pc t (.locking c (.found i)) }
  | e => some { s with pc := update s.pc t (.locking c e) }

def next : Act τ → Option (System τ)
  | .call t c =>
    match s.pc t with
    | .idle => if c = .obtain ⟨0, 0⟩ then some s else (s.threadIndex t).call t c
    | _ => none
  | .lock t =>
    match s.pc t, s.lock.rurwMutex with
    | .locking c e, none => ({ s.lock with rurwMutex := some t }.take t e).bind fun r => s.after t c r.2 (body r.1 t r.2 c)
    | _, _ => none
  | .wake t =>
    match s.pc t, s.lock.rurwMutex with
    | .waiting c i, none => s.after t c i (loop { s.lock with rurwMutex := some t } t i c)
    | _, _ => none

def Admits : Act τ → Prop
  | .call t .rUnlock => ∃ i, (s.lock.state i).thr = some t ∧ 0 < (s.lock.state i).state.r
  | .call t .wUnlock => ∃ i, (s.lock.state i).thr = some t ∧ 0 < (s.lock.state i).state.w
  | _ => True

instance : DecidablePred s.Admits
  | .call _ .rUnlock => inferInstanceAs (Decidable (∃ _, _))
  | .call _ .wUnlock => inferInstanceAs (Decidable (∃ _, _))
  | .call _ .rLock | .call _ .wLock | .call _ .retreat | .call _ (.obtain _) | .lock _ | .wake _ => .isTrue trivial

end System

def Step (s : System τ) (a : Act τ) (s' : System τ) : Prop := s.misuse = false ∧ s.Admits a ∧ s.next a = some s'

def runs (P : System τ → Act τ → Prop) [∀ s a, Decidable (P s a)] : System τ → List (Act τ) → Option (System τ)
  | s, [] => some s
  | s, a :: as => if s.misuse = false ∧ s.Admits a ∧ P s a then (s.next a).bind fun s' => runs P s' as else none

theorem steps_of_runs {P : System τ → Act τ → Prop} [∀ s a, Decidable (P s a)] {s s' : System τ} {as : List (Act τ)}
    (h : runs P s as = some s') : Steps (fun s a s' => Step s a s' ∧ P s a) s as s' := by
  induction as generalizing s with
  | nil =>
    cases h
    exact .refl
  | cons a as ih =>
    rw [runs, Option.ite_none_right_eq_some] at h
    obtain ⟨⟨hmisuse, hadmits, hP⟩, h⟩ := h
    obtain ⟨s1, hnext, h⟩ := Option.bind_eq_some_iff.mp h
    exact .cons ⟨⟨hmisuse, hadmits, hnext⟩, hP⟩ (ih h)

end Rurw
end Slapd
end ReOpenLDAP
