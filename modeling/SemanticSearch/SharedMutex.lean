import SemanticSearch.Runs
import Mathlib.Algebra.Order.BigOperators.Group.Finset
import Mathlib.Data.Fintype.Basic
import Mathlib.Tactic.Common

namespace SemanticSearch.SharedMutex

/-- A program that reads the object a part at a time. -/
inductive Reader (S R : Type)
  | done (r : R)
  | read (next : S → Reader S R)

/-- A program that reads and changes the object a part at a time. -/
inductive Writer (S R : Type)
  | done (r : R)
  | write (effect : S → S) (next : S → Writer S R)

variable {S E R ι : Type}

def Reader.run : Reader S R → S → R
  | .done r, _ => r
  | .read next, s => (next s).run s

def Writer.run : Writer S R → S → S × R
  | .done r, s => (s, r)
  | .write effect next, s => (next s).run (effect s)

/-- The effects one after the other, and then the rest. -/
def Writer.effects (es : List (S → S)) (rest : Writer S R) : Writer S R :=
  es.foldr (fun effect c => .write effect fun _ => c) rest

@[simp] theorem Writer.run_done (r : R) (s : S) : (Writer.done r).run s = (s, r) := rfl

@[simp] theorem Writer.run_write (effect : S → S) (next : S → Writer S R) (s : S) :
    (Writer.write effect next).run s = (next s).run (effect s) := rfl

@[simp] theorem Writer.run_effects (es : List (S → S)) (rest : Writer S R) (s : S) :
    (Writer.effects es rest).run s = rest.run (es.foldl (fun s effect => effect s) s) := by
  induction es generalizing s with
  | nil => rfl
  | cons effect es ih => exact ih (effect s)

/-- An exclusive section: it works on the object, looks outside once, and goes on with what it
has seen. -/
structure Update (S E R : Type) where
  before : Writer S Unit
  after : E → Writer S R

def Update.apply (u : Update S E R) (e : E) (s : S) : S × R := (u.after e).run (u.before.run s).1

/-- The exclusive section before and behind its look outside. `old` is a record of the object
that the section has found. -/
inductive Holder (S E R : Type)
  | preparing (u : Update S E R) (old : S) (c : Writer S Unit)
  | finishing (c : Writer S R)

/-- The object and the sections in progress. `returned` is a record of the answers, in the order
in which the sections have ended. -/
structure Guarded (S E R ι : Type) where
  object : S
  shared : ι → Option (Reader S R) := fun _ => none
  exclusive : Option (ι × Holder S E R) := none
  returned : List (ι × R) := []

inductive Act (S E R ι : Type)
  | lockShared (i : ι) (c : Reader S R)
  | read (i : ι)
  | unlockShared (i : ι)
  | lock (i : ι) (u : Update S E R)
  | write
  | look (i : ι) (e : E)
  | unlock (i : ι)

variable [DecidableEq ι]

def Guarded.setShared (g : Guarded S E R ι) (i : ι) (c : Option (Reader S R)) :
    Guarded S E R ι := { g with shared := Function.update g.shared i c }

/-- The exclusive section goes on at `x`, with `s` as the object. -/
def Guarded.hold (g : Guarded S E R ι) (i : ι) (x : Holder S E R) (s : S) : Guarded S E R ι :=
  { g with object := s, exclusive := some (i, x) }

/-- One step, if the mutex and the section allow it. -/
def tryStep [Fintype ι] (g : Guarded S E R ι) : Act S E R ι → Option (Guarded S E R ι)
  | .lockShared i c =>
    if g.exclusive.isNone ∧ (g.shared i).isNone then some (g.setShared i (some c)) else none
  | .read i =>
    match g.shared i with
    | some (.read next) => some (g.setShared i (some (next g.object)))
    | _ => none
  | .unlockShared i =>
    match g.shared i with
    | some (.done r) => some { g.setShared i none with returned := g.returned ++ [(i, r)] }
    | _ => none
  | .lock i u =>
    if g.exclusive.isNone ∧ ∀ j, (g.shared j).isNone then
      some (g.hold i (.preparing u g.object u.before) g.object)
    else none
  | .write =>
    match g.exclusive with
    | some (i, .preparing u old (.write effect next)) =>
      some (g.hold i (.preparing u old (next g.object)) (effect g.object))
    | some (i, .finishing (.write effect next)) =>
      some (g.hold i (.finishing (next g.object)) (effect g.object))
    | _ => none
  | .look i e =>
    match g.exclusive with
    | some (j, .preparing u _ (.done _)) =>
      if j = i then some (g.hold i (.finishing (u.after e)) g.object) else none
    | _ => none
  | .unlock i =>
    match g.exclusive with
    | some (j, .finishing (.done r)) =>
      if j = i then some { g with exclusive := none, returned := g.returned ++ [(i, r)] } else none
    | _ => none

/-- How far a call is: not made, made without an effect yet, or with its effect and answer. -/
inductive Call (S E R : Type)
  | idle
  | invoked (u : Update S E R)
  | answered (r : R)

/-- An object on which each call takes effect in one step. -/
structure Atomic (S E R ι : Type) where
  object : S
  call : ι → Call S E R := fun _ => .idle
  returned : List (ι × R) := []

def Atomic.setCall (t : Atomic S E R ι) (i : ι) (c : Call S E R) : Atomic S E R ι :=
  { t with call := Function.update t.call i c }

def Atomic.tryStep (t : Atomic S E R ι) : Act S E R ι → Option (Atomic S E R ι)
  | .lockShared i c =>
    match t.call i with
    | .idle => some (t.setCall i (.answered (c.run t.object)))
    | _ => none
  | .lock i u =>
    match t.call i with
    | .idle => some (t.setCall i (.invoked u))
    | _ => none
  | .look i e =>
    match t.call i with
    | .invoked u =>
      some { t.setCall i (.answered (u.apply e t.object).2) with object := (u.apply e t.object).1 }
    | _ => none
  | .unlockShared i =>
    match t.call i with
    | .answered r => some { t.setCall i .idle with returned := t.returned ++ [(i, r)] }
    | _ => none
  | .unlock i =>
    match t.call i with
    | .answered r => some { t.setCall i .idle with returned := t.returned ++ [(i, r)] }
    | _ => none
  | .read _ => some t
  | .write => some t

section Atomic

variable {t t' : Atomic S E R ι} {i : ι}

theorem setCall_self {c : Call S E R} (h : t.call i = c) : t.setCall i c = t := by
  subst h
  simp only [Atomic.setCall, Function.update_eq_self]

theorem Atomic.lockShared_iff {c : Reader S R} : t.tryStep (.lockShared i c) = some t' ↔
    t.call i = .idle ∧ t.setCall i (.answered (c.run t.object)) = t' := by
  rcases h : t.call i with _ | u | r <;> simp [Atomic.tryStep, h]

theorem Atomic.lock_iff {u : Update S E R} : t.tryStep (.lock i u) = some t' ↔
    t.call i = .idle ∧ t.setCall i (.invoked u) = t' := by
  rcases h : t.call i with _ | u | r <;> simp [Atomic.tryStep, h]

theorem Atomic.look_iff {e : E} : t.tryStep (.look i e) = some t' ↔
    ∃ u, t.call i = .invoked u ∧ { t.setCall i (.answered (u.apply e t.object).2) with
      object := (u.apply e t.object).1 } = t' := by
  rcases h : t.call i with _ | u | r <;> simp [Atomic.tryStep, h]

theorem Atomic.unlockShared_iff : t.tryStep (.unlockShared i) = some t' ↔
    ∃ r, t.call i = .answered r ∧
      { t.setCall i .idle with returned := t.returned ++ [(i, r)] } = t' := by
  rcases h : t.call i with _ | u | r <;> simp [Atomic.tryStep, h]

theorem Atomic.unlock_iff : t.tryStep (.unlock i) = some t' ↔
    ∃ r, t.call i = .answered r ∧
      { t.setCall i .idle with returned := t.returned ++ [(i, r)] } = t' := by
  rcases h : t.call i with _ | u | r <;> simp [Atomic.tryStep, h]

theorem Atomic.answered_stays {r : R} {a : Act S E R ι} (h : t.call i = .answered r)
    (ha : t.tryStep a = some t') (hs : a ≠ .unlockShared i) (hx : a ≠ .unlock i) :
    t'.call i = .answered r := by
  have hkeep : ∀ {j c}, t.call j ≠ .answered r ∨ j ≠ i → (t.setCall j c).call i = .answered r := by
    intro j c hj
    have hne : i ≠ j := by
      intro hij
      subst hij
      exact hj.elim (fun hj => hj h) fun hj => hj rfl
    exact (Function.update_of_ne hne ..).trans h
  cases a with
  | lockShared j c =>
    obtain ⟨hj, rfl⟩ := Atomic.lockShared_iff.mp ha
    exact hkeep (Or.inl (by simp [hj]))
  | read j =>
    obtain rfl := Option.some.inj ha
    exact h
  | unlockShared j =>
    obtain ⟨r', -, rfl⟩ := Atomic.unlockShared_iff.mp ha
    exact hkeep (Or.inr fun hji => hs (hji ▸ rfl))
  | lock j u =>
    obtain ⟨hj, rfl⟩ := Atomic.lock_iff.mp ha
    exact hkeep (Or.inl (by simp [hj]))
  | write =>
    obtain rfl := Option.some.inj ha
    exact h
  | look j e =>
    obtain ⟨u, hj, rfl⟩ := Atomic.look_iff.mp ha
    exact hkeep (Or.inl (by simp [hj]))
  | unlock j =>
    obtain ⟨r', -, rfl⟩ := Atomic.unlock_iff.mp ha
    exact hkeep (Or.inr fun hji => hx (hji ▸ rfl))

end Atomic

variable {g g' : Guarded S E R ι} {a : Act S E R ι}

/-- What a step needs and does, one case for each kind of step. -/
inductive Steps (g : Guarded S E R ι) : Act S E R ι → Guarded S E R ι → Prop
  | lockShared (i : ι) (c : Reader S R) (hx : g.exclusive = none) (hi : g.shared i = none) :
    Steps g (.lockShared i c) (g.setShared i (some c))
  | read (i : ι) (next : S → Reader S R) (hi : g.shared i = some (.read next)) :
    Steps g (.read i) (g.setShared i (some (next g.object)))
  | unlockShared (i : ι) (r : R) (hi : g.shared i = some (.done r)) :
    Steps g (.unlockShared i) { g.setShared i none with returned := g.returned ++ [(i, r)] }
  | lock (i : ι) (u : Update S E R) (hx : g.exclusive = none) (hs : ∀ j, g.shared j = none) :
    Steps g (.lock i u) (g.hold i (.preparing u g.object u.before) g.object)
  | prepare (i : ι) (u : Update S E R) (old : S) (effect : S → S) (next : S → Writer S Unit)
    (hx : g.exclusive = some (i, .preparing u old (.write effect next))) :
    Steps g .write (g.hold i (.preparing u old (next g.object)) (effect g.object))
  | finish (i : ι) (effect : S → S) (next : S → Writer S R)
    (hx : g.exclusive = some (i, .finishing (.write effect next))) :
    Steps g .write (g.hold i (.finishing (next g.object)) (effect g.object))
  | look (i : ι) (e : E) (u : Update S E R) (old : S) (v : Unit)
    (hx : g.exclusive = some (i, .preparing u old (.done v))) :
    Steps g (.look i e) (g.hold i (.finishing (u.after e)) g.object)
  | unlock (i : ι) (r : R) (hx : g.exclusive = some (i, .finishing (.done r))) :
    Steps g (.unlock i) { g with exclusive := none, returned := g.returned ++ [(i, r)] }

theorem steps_of_tryStep [Fintype ι] (h : tryStep g a = some g') : Steps g a g' := by
  cases a with
  | lockShared i c =>
    simp only [tryStep, Option.isNone_iff_eq_none] at h
    split_ifs at h with hc
    obtain rfl := Option.some.inj h
    exact .lockShared i c hc.1 hc.2
  | read i =>
    simp only [tryStep] at h
    split at h
    · next next hi =>
      obtain rfl := Option.some.inj h
      exact .read i next hi
    · cases h
  | unlockShared i =>
    simp only [tryStep] at h
    split at h
    · next r hi =>
      obtain rfl := Option.some.inj h
      exact .unlockShared i r hi
    · cases h
  | lock i u =>
    simp only [tryStep, Option.isNone_iff_eq_none] at h
    split_ifs at h with hc
    obtain rfl := Option.some.inj h
    exact .lock i u hc.1 hc.2
  | write =>
    simp only [tryStep] at h
    split at h
    · next i u old effect next hx =>
      obtain rfl := Option.some.inj h
      exact .prepare i u old effect next hx
    · next i effect next hx =>
      obtain rfl := Option.some.inj h
      exact .finish i effect next hx
    · cases h
  | look i e =>
    simp only [tryStep] at h
    split at h
    · next j u old v hx =>
      split_ifs at h with hj
      subst hj
      obtain rfl := Option.some.inj h
      exact .look j e u old v hx
    · cases h
  | unlock i =>
    simp only [tryStep] at h
    split at h
    · next j r hx =>
      split_ifs at h with hj
      subst hj
      obtain rfl := Option.some.inj h
      exact .unlock j r hx
    · cases h

/-- Shared and exclusive sections exclude each other, and what an exclusive section still has to
do leads where it leads alone. -/
structure Guarded.Sound (g : Guarded S E R ι) : Prop where
  apart : g.exclusive ≠ none → ∀ i, g.shared i = none
  prepared : ∀ i u old c, g.exclusive = some (i, .preparing u old c) →
    (c.run g.object).1 = (u.before.run old).1

omit [DecidableEq ι] in
theorem sound_start (s : S) : ({ object := s } : Guarded S E R ι).Sound := by
  constructor
  · intro h
    exact absurd rfl h
  · intro i u old c h
    cases h

omit [DecidableEq ι] in
theorem Guarded.Sound.exclusive_eq_none (h : g.Sound) {i : ι} {c : Reader S R}
    (hi : g.shared i = some c) : g.exclusive = none := by
  by_contra hx
  have hnone := h.apart hx i
  rw [hi] at hnone
  cases hnone

omit [DecidableEq ι] in
theorem sound_of_none (hx : g.exclusive = none) : g.Sound :=
  ⟨fun h => absurd hx h, fun i u old c h => by rw [hx] at h; cases h⟩

omit [DecidableEq ι] in
theorem sound_hold {i : ι} {x : Holder S E R} {s : S} (hs : ∀ j, g.shared j = none)
    (hp : ∀ u old c, x = .preparing u old c → (c.run s).1 = (u.before.run old).1) :
    (g.hold i x s).Sound := by
  refine ⟨fun _ => hs, fun j u old c h => ?_⟩
  obtain ⟨-, hx⟩ := Prod.mk.inj (Option.some.inj h)
  exact hp u old c hx

theorem Guarded.Sound.steps (h : g.Sound) (hstep : Steps g a g') : g'.Sound := by
  cases hstep with
  | lockShared i c hx hi => exact sound_of_none hx
  | read i next hi => exact sound_of_none (h.exclusive_eq_none hi)
  | unlockShared i r hi => exact sound_of_none (h.exclusive_eq_none hi)
  | lock i u hx hs =>
    apply sound_hold hs
    intro v old c hv
    obtain ⟨rfl, rfl, rfl⟩ := Holder.preparing.inj hv
    rfl
  | prepare i u old effect next hx =>
    apply sound_hold (h.apart (by simp [hx]))
    intro v old' c hv
    obtain ⟨rfl, rfl, rfl⟩ := Holder.preparing.inj hv
    exact h.prepared i u old _ hx
  | finish i effect next hx =>
    apply sound_hold (h.apart (by simp [hx]))
    intro v old c hv
    cases hv
  | look i e u old v hx =>
    apply sound_hold (h.apart (by simp [hx]))
    intro w old c hw
    cases hw
  | unlock i r hx => exact sound_of_none rfl

/-- The object as the exclusive section has found it or will leave it. -/
def Holder.committed : Holder S E R → S → S
  | .preparing _ old _, _ => old
  | .finishing c, s => (c.run s).1

def Holder.call : Holder S E R → S → Call S E R
  | .preparing u _ _, _ => .invoked u
  | .finishing c, s => .answered (c.run s).2

def Guarded.committed (g : Guarded S E R ι) : S :=
  match g.exclusive with
  | none => g.object
  | some (_, x) => x.committed g.object

def Guarded.call (g : Guarded S E R ι) (i : ι) : Call S E R :=
  match g.shared i with
  | some c => .answered (c.run g.object)
  | none =>
    match g.exclusive with
    | none => .idle
    | some (j, x) => if j = i then x.call g.object else .idle

def Guarded.abs (g : Guarded S E R ι) : Atomic S E R ι where
  object := g.committed
  call := g.call
  returned := g.returned

omit [DecidableEq ι] in
theorem committed_of_none (hx : g.exclusive = none) : g.committed = g.object := by
  simp only [Guarded.committed, hx]

omit [DecidableEq ι] in
theorem committed_of_holder {i : ι} {x : Holder S E R} (hx : g.exclusive = some (i, x)) :
    g.committed = x.committed g.object := by
  simp only [Guarded.committed, hx]

theorem call_of_shared {i : ι} {c : Reader S R} (hi : g.shared i = some c) :
    g.call i = .answered (c.run g.object) := by
  simp only [Guarded.call, hi]

theorem call_of_none {i : ι} (hi : g.shared i = none) (hx : g.exclusive = none) :
    g.call i = .idle := by
  simp only [Guarded.call, hi, hx]

theorem Guarded.Sound.call_of_holder (h : g.Sound) {i : ι} {x : Holder S E R}
    (hx : g.exclusive = some (i, x)) : g.call i = x.call g.object := by
  have hi : g.shared i = none := h.apart (by simp [hx]) i
  simp only [Guarded.call, hi, hx, if_true]

theorem abs_setShared (hx : g.exclusive = none) (i : ι) (c : Option (Reader S R)) :
    (g.setShared i c).abs =
      g.abs.setCall i (c.elim .idle fun c => .answered (c.run g.object)) := by
  have hcall : (g.setShared i c).call =
      Function.update g.call i (c.elim .idle fun c => .answered (c.run g.object)) := by
    funext j
    by_cases hji : j = i
    · subst hji
      cases c <;> simp [Guarded.call, Guarded.setShared, hx]
    · simp [Guarded.call, Guarded.setShared, hji]
  simp only [Guarded.abs, Atomic.setCall, hcall]
  rfl

theorem abs_hold {i : ι} (hs : ∀ j, g.shared j = none) (hx : ∀ j y, g.exclusive = some (j, y) → j = i)
    (x : Holder S E R) (s : S) :
    (g.hold i x s).abs = { g.abs.setCall i (x.call s) with object := x.committed s } := by
  have hcall : (g.hold i x s).call = Function.update g.call i (x.call s) := by
    funext j
    by_cases hji : j = i
    · subst hji
      simp [Guarded.call, Guarded.hold, hs]
    · rw [Function.update_of_ne hji]
      rcases he : g.exclusive with _ | ⟨k, y⟩
      · simp [Guarded.call, Guarded.hold, hs, he, Ne.symm hji]
      · obtain rfl := hx k y he
        simp [Guarded.call, Guarded.hold, hs, he, Ne.symm hji]
  simp only [Guarded.abs, Atomic.setCall, hcall]
  rfl

theorem abs_release {i : ι} {x : Holder S E R} (hs : ∀ j, g.shared j = none)
    (hx : g.exclusive = some (i, x)) (l : List (ι × R)) :
    ({ g with exclusive := none, returned := l } : Guarded S E R ι).abs =
      { g.abs.setCall i .idle with object := g.object, returned := l } := by
  have hcall : ({ g with exclusive := none, returned := l } : Guarded S E R ι).call =
      Function.update g.call i .idle := by
    funext j
    by_cases hji : j = i
    · subst hji
      simp [Guarded.call, hs]
    · rw [Function.update_of_ne hji]
      simp [Guarded.call, hs, hx, Ne.symm hji]
  simp only [Guarded.abs, Atomic.setCall, hcall]
  rfl

theorem Guarded.Sound.abs_steps (h : g.Sound) (hstep : Steps g a g') :
    g.abs.tryStep a = some g'.abs := by
  cases hstep with
  | lockShared i c hx hi =>
    have hidle : g.abs.call i = .idle := call_of_none hi hx
    have hobject : g.abs.object = g.object := committed_of_none hx
    simp only [Atomic.tryStep, hidle, abs_setShared hx, hobject, Option.elim_some]
  | read i next hi =>
    have hcall : g.abs.call i = .answered ((next g.object).run g.object) :=
      (call_of_shared hi).trans rfl
    rw [abs_setShared (h.exclusive_eq_none hi), Option.elim_some, setCall_self hcall]
    rfl
  | unlockShared i r hi =>
    have hcall : g.abs.call i = .answered r := call_of_shared hi
    have habs := abs_setShared (h.exclusive_eq_none hi) i (none : Option (Reader S R))
    simp only [Atomic.tryStep, hcall]
    rw [Option.elim_none] at habs
    rw [← habs]
    rfl
  | lock i u hx hs =>
    have hidle : g.abs.call i = .idle := call_of_none (hs i) hx
    have hobject : g.abs.object = g.object := committed_of_none hx
    simp only [Atomic.tryStep, hidle]
    rw [abs_hold hs (fun j y hy => by simp [hx] at hy)]
    simp only [Holder.committed, Holder.call, ← hobject]
    rfl
  | prepare i u old effect next hx =>
    have hs := h.apart (by simp [hx])
    have hobject : g.abs.object = old := committed_of_holder hx
    have hcall : g.abs.call i = .invoked u := h.call_of_holder hx
    rw [abs_hold hs (fun j y hy => by simp_all)]
    simp only [Atomic.tryStep, Holder.committed, Holder.call, setCall_self hcall, ← hobject]
  | finish i effect next hx =>
    have hs := h.apart (by simp [hx])
    have hobject : g.abs.object = ((next g.object).run (effect g.object)).1 :=
      committed_of_holder hx
    have hcall : g.abs.call i = .answered ((next g.object).run (effect g.object)).2 :=
      h.call_of_holder hx
    rw [abs_hold hs (fun j y hy => by simp_all)]
    simp only [Atomic.tryStep, Holder.committed, Holder.call, setCall_self hcall, ← hobject]
  | look i e u old v hx =>
    have hs := h.apart (by simp [hx])
    have hobject : g.abs.object = old := committed_of_holder hx
    have hcall : g.abs.call i = .invoked u := h.call_of_holder hx
    have hprepared : g.object = (u.before.run old).1 := h.prepared i u old _ hx
    rw [abs_hold hs (fun j y hy => by simp_all)]
    simp only [Atomic.tryStep, hcall, hobject, Update.apply, Holder.committed, Holder.call,
      ← hprepared]
  | unlock i r hx =>
    have hs := h.apart (by simp [hx])
    have hobject : g.committed = g.object := committed_of_holder hx
    have hcall : g.abs.call i = .answered r := h.call_of_holder hx
    rw [abs_release hs hx, ← hobject]
    simp only [Atomic.tryStep, hcall]
    rfl

variable [Fintype ι]

theorem Guarded.Sound.tryStep (h : g.Sound) (ha : tryStep g a = some g') :
    g'.Sound ∧ g.abs.tryStep a = some g'.abs :=
  ⟨h.steps (steps_of_tryStep ha), h.abs_steps (steps_of_tryStep ha)⟩

theorem run_atomic {s : S} {acts : List (Act S E R ι)}
    (hrun : Runs.tryRun tryStep ({ object := s } : Guarded S E R ι) acts = some g) :
    g.Sound ∧ Runs.tryRun Atomic.tryStep ({ object := s } : Atomic S E R ι) acts = some g.abs := by
  exact Runs.tryRun_simulates (fun _ _ _ hg ha => hg.tryStep ha) (sound_start s) hrun

/-- The steps that a shared section has to take, its end included, while nobody changes the
object. -/
def Reader.steps : Reader S R → S → ℕ
  | .done _, _ => 1
  | .read next, s => (next s).steps s + 1

/-- The parts of an exclusive section up to its look outside or its end. -/
def Writer.steps : Writer S R → S → ℕ
  | .done _, _ => 0
  | .write effect next, s => (next s).steps (effect s) + 1

def Holder.steps : Holder S E R → S → ℕ
  | .preparing _ _ c, s => c.steps s
  | .finishing c, s => c.steps s

/-- What the sections in progress have to do. -/
def Guarded.due (g : Guarded S E R ι) : ℕ :=
  ∑ i, (g.shared i).elim 0 (fun c => c.steps g.object) +
    g.exclusive.elim 0 fun p => p.2.steps g.object

omit [DecidableEq ι] in
theorem sum_lt_of_single {f g : ι → ℕ} {i : ι} (hi : f i < g i) (hother : ∀ j, j ≠ i → f j = g j) :
    ∑ j, f j < ∑ j, g j := by
  apply Finset.sum_lt_sum
  · intro j _
    by_cases hji : j = i
    · exact hji ▸ hi.le
    · exact (hother j hji).le
  · exact ⟨i, Finset.mem_univ i, hi⟩

theorem due_setShared_lt {i : ι} {c : Option (Reader S R)} {l : List (ι × R)}
    (hi : c.elim 0 (fun c => c.steps g.object) <
      (g.shared i).elim 0 (fun c => c.steps g.object)) :
    ({ g.setShared i c with returned := l } : Guarded S E R ι).due < g.due := by
  apply Nat.add_lt_add_right
  apply sum_lt_of_single (i := i)
  · simpa only [Guarded.setShared, Function.update_self] using hi
  · intro j hji
    simp only [Guarded.setShared, Function.update_of_ne hji]

theorem Guarded.Sound.due_lt (h : g.Sound) (hstep : Steps g a g')
    (ha : a = .write ∨ ∃ i, a = .read i ∨ a = .unlockShared i) : g'.due < g.due := by
  have hhold : ∀ (i : ι) (x : Holder S E R) (s : S), (∃ p, g.exclusive = some p ∧
      x.steps s < p.2.steps g.object) → (g.hold i x s).due < g.due := by
    intro i x s ⟨p, hp, hlt⟩
    have hs : ∀ j, g.shared j = none := h.apart (by simp [hp])
    simp only [Guarded.due, Guarded.hold, hs, hp, Option.elim_none, Option.elim_some]
    exact Nat.add_lt_add_left hlt _
  cases hstep with
  | read i next hi =>
    apply due_setShared_lt
    rw [hi]
    exact Nat.lt_succ_self _
  | unlockShared i r hi =>
    apply due_setShared_lt
    rw [hi]
    exact Nat.lt_succ_self 0
  | prepare i u old effect next hx => exact hhold _ _ _ ⟨_, hx, Nat.lt_succ_self _⟩
  | finish i effect next hx => exact hhold _ _ _ ⟨_, hx, Nat.lt_succ_self _⟩
  | lockShared i c hx hi => simp at ha
  | lock i u hx hs => simp at ha
  | look i e u old v hx => simp at ha
  | unlock i r hx => simp at ha

theorem holder_moves {i : ι} {x : Holder S E R} (hx : g.exclusive = some (i, x)) :
    (tryStep g .write).isSome ∨ (∀ e, (tryStep g (.look i e)).isSome) ∨
      (tryStep g (.unlock i)).isSome := by
  cases x with
  | preparing u old c =>
    cases c with
    | done v => exact Or.inr (Or.inl fun e => by simp [tryStep, hx])
    | write effect next => exact Or.inl (by simp [tryStep, hx])
  | finishing c =>
    cases c with
    | done r => exact Or.inr (Or.inr (by simp [tryStep, hx]))
    | write effect next => exact Or.inl (by simp [tryStep, hx])

end SemanticSearch.SharedMutex
