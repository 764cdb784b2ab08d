import Mathlib.Data.Fintype.Basic
import Mathlib.Algebra.BigOperators.Group.Finset.Basic
import Mathlib.Algebra.Order.Group.Multiset

namespace SemanticSearch.ThreadPool

/-- Where a worker is in `ThreadLoop`: in front of the lock, in `m_cond.wait` without or with
a notification, behind the lock with its task, or gone. -/
inductive Worker (T : Type)
  | awake
  | blocked
  | notified
  | running (t : T)
  | exited
  deriving DecidableEq, Repr

inductive Destructor
  | notBegun
  | joining
  | joined
  deriving DecidableEq, Repr

/-- The members of the pool and its threads. The last three fields are a record of the run:
the tasks in the order of their dispatch, the tasks taken from the queue, and those that have
returned. -/
structure Pool (T ι : Type) where
  m_work_queue : List T := []
  m_killthreads : Bool := false
  worker : ι → Worker T := fun _ => .awake
  destructor : Destructor := .notBegun
  dispatched : List T := []
  taken : List T := []
  finished : List T := []

/-- The next step: a thread outside or the task of a worker dispatches `t`, and `woken` is the
worker that `notify_one` picks; a blocked worker wakes up without a notification; a worker
takes the lock; its task returns; the pool is destroyed, and its threads are joined. -/
inductive Act (T ι : Type)
  | dispatch (t : T) (woken : Option ι)
  | taskDispatch (i : ι) (t : T) (woken : Option ι)
  | wakeUp (i : ι)
  | enter (i : ι)
  | finish (i : ι)
  | destroy
  | join

namespace Worker

variable {T : Type}

def isBlocked : Worker T → Bool
  | blocked => true
  | _ => false

def isExited : Worker T → Bool
  | exited => true
  | _ => false

/-- Not blocked without a notification, and not gone. -/
def isActive (w : Worker T) : Bool := !w.isBlocked && !w.isExited

def held : Worker T → Multiset T
  | running t => {t}
  | _ => 0

theorem held_of_not_running {w : Worker T} (h : ∀ t, w ≠ running t) : w.held = 0 := by
  cases w with
  | running t => exact absurd rfl (h t)
  | awake => rfl
  | blocked => rfl
  | notified => rfl
  | exited => rfl

end Worker

variable {T ι : Type} [DecidableEq ι]

def Pool.setWorker (p : Pool T ι) (i : ι) (w : Worker T) : Pool T ι :=
  { p with worker := Function.update p.worker i w }

@[simp] theorem Pool.setWorker_self (p : Pool T ι) (i : ι) (w : Worker T) :
    (p.setWorker i w).worker i = w := Function.update_self ..

theorem Pool.setWorker_of_ne (p : Pool T ι) {i j : ι} (h : j ≠ i) (w : Worker T) :
    (p.setWorker i w).worker j = p.worker j := Function.update_of_ne h ..

/-- `m_cond.notify_one()`: one blocked worker, if there is one. -/
def notifyOne [Fintype ι] (p : Pool T ι) : Option ι → Option (Pool T ι)
  | some i => if (p.worker i).isBlocked then some (p.setWorker i .notified) else none
  | none => if ∀ i, !(p.worker i).isBlocked then some p else none

/-- `m_cond.notify_all()`. -/
def notifyAll (p : Pool T ι) : Pool T ι :=
  { p with worker := fun i => if (p.worker i).isBlocked then .notified else p.worker i }

/-- `Dispatch`. -/
def dispatch [Fintype ι] (p : Pool T ι) (t : T) (woken : Option ι) : Option (Pool T ι) :=
  notifyOne { p with m_work_queue := p.m_work_queue ++ [t], dispatched := p.dispatched ++ [t] }
    woken

/-- The locked part of `ThreadLoop`: the worker waits, exits, or takes the first task. -/
def enter (p : Pool T ι) (i : ι) : Pool T ι :=
  match p.m_work_queue with
  | [] => p.setWorker i (if p.m_killthreads then .exited else .blocked)
  | t :: rest =>
    { p.setWorker i (.running t) with m_work_queue := rest, taken := p.taken ++ [t] }

theorem enter_of_nil {p : Pool T ι} (h : p.m_work_queue = []) (i : ι) :
    enter p i = p.setWorker i (if p.m_killthreads then .exited else .blocked) := by
  simp only [enter, h]

theorem enter_of_cons {p : Pool T ι} {t : T} {rest : List T} (h : p.m_work_queue = t :: rest)
    (i : ι) : enter p i =
      { p.setWorker i (.running t) with m_work_queue := rest, taken := p.taken ++ [t] } := by
  simp only [enter, h]

/-- One step, if it can be taken. Once the destructor has begun only tasks call `Dispatch`. -/
def tryStep [Fintype ι] (p : Pool T ι) : Act T ι → Option (Pool T ι)
  | .dispatch t woken => if p.destructor = .notBegun then dispatch p t woken else none
  | .taskDispatch i t woken =>
    match p.worker i with
    | .running _ => dispatch p t woken
    | _ => none
  | .wakeUp i => if (p.worker i).isBlocked then some (p.setWorker i .awake) else none
  | .enter i =>
    match p.worker i with
    | .awake => some (enter p i)
    | .notified => some (enter p i)
    | _ => none
  | .finish i =>
    match p.worker i with
    | .running t => some { p.setWorker i .awake with finished := p.finished ++ [t] }
    | _ => none
  | .destroy =>
    if p.destructor = .notBegun then
      some { notifyAll { p with m_killthreads := true } with destructor := .joining }
    else none
  | .join =>
    if p.destructor = .joining ∧ ∀ i, (p.worker i).isExited then
      some { p with destructor := .joined }
    else none

/-- A step that cannot be taken changes nothing. -/
def step [Fintype ι] (p : Pool T ι) (a : Act T ι) : Pool T ι := (tryStep p a).getD p

end SemanticSearch.ThreadPool
