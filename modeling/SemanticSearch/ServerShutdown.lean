import Mathlib.Algebra.Order.BigOperators.Group.Finset
import Mathlib.Data.Fintype.Card
import SemanticSearch.ServerRuns

namespace SemanticSearch.ThreadPool

variable {T ι : Type} [Fintype ι] [DecidableEq ι] {p p' : Pool T ι} {i : ι}

/-- A running task costs its return, an awake worker its way to `wait`, a blocked one its exit. -/
def Worker.due : Worker T → ℕ
  | awake => 2
  | blocked => 1
  | notified => 2
  | running _ => 3
  | exited => 0

def Pool.due (p : Pool T ι) : ℕ := 3 * p.m_work_queue.length + ∑ i, (p.worker i).due

theorem Worker.due_of_isBlocked {w : Worker T} (h : w.isBlocked) : w.due = 1 := by
  cases w with
  | blocked => rfl
  | awake => simp [isBlocked] at h
  | notified => simp [isBlocked] at h
  | running t => simp [isBlocked] at h
  | exited => simp [isBlocked] at h

theorem Pool.due_setWorker (p : Pool T ι) (i : ι) (w : Worker T) :
    (p.setWorker i w).due + (p.worker i).due = p.due + w.due := by
  have hsum := sum_setWorker Worker.due p i w
  unfold Pool.due
  change 3 * p.m_work_queue.length + _ + _ = _
  omega

theorem due_dispatch {t : T} {woken : Option ι} (h : dispatch p t woken = some p') :
    p'.due ≤ p.due + 4 := by
  have hqueue : ∀ q : Pool T ι,
      Pool.due { q with m_work_queue := q.m_work_queue ++ [t], dispatched := p.dispatched ++ [t] } =
        q.due + 3 := by
    intro q
    simp only [Pool.due, List.length_append, List.length_singleton]
    omega
  rcases dispatch_eq_some h with ⟨i, hi, rfl⟩ | ⟨-, rfl⟩
  · have hset := p.due_setWorker i .notified
    rw [Worker.due_of_isBlocked hi] at hset
    have hdue := hqueue (p.setWorker i .notified)
    change Pool.due _ = _ at hdue
    change (p.setWorker i .notified).due + 1 = p.due + 2 at hset
    exact (hdue.trans (by omega)).le
  · have hdue := hqueue p
    omega

theorem due_wakeUp (h : tryStep p (.wakeUp i) = some p') : p'.due = p.due + 1 := by
  simp only [tryStep] at h
  split_ifs at h with hi
  obtain rfl := Option.some.inj h
  have hset := p.due_setWorker i .awake
  rw [Worker.due_of_isBlocked hi] at hset
  change _ = p.due + 2 at hset
  omega

theorem due_enter (h : tryStep p (.enter i) = some p') : p'.due + 1 ≤ p.due := by
  have hdue : (p.worker i).due = 2 → (enter p i).due + 1 ≤ p.due := by
    intro hi
    rcases hq : p.m_work_queue with _ | ⟨t, rest⟩
    · rw [enter_of_nil hq]
      have hset := p.due_setWorker i (if p.m_killthreads then .exited else .blocked)
      have hle : (if p.m_killthreads then Worker.exited else Worker.blocked (T := T)).due ≤ 1 := by
        split_ifs
        · exact Nat.zero_le 1
        · exact le_refl 1
      omega
    · rw [enter_of_cons hq]
      have hset := p.due_setWorker i (.running t)
      have hwith : Pool.due { p.setWorker i (.running t) with
          m_work_queue := rest, taken := p.taken ++ [t] } + 3 = (p.setWorker i (.running t)).due := by
        have hlen : (p.setWorker i (.running t)).m_work_queue.length = rest.length + 1 :=
          congrArg List.length hq
        simp only [Pool.due, hlen]
        omega
      change _ = p.due + 3 at hset
      omega
  simp only [tryStep] at h
  split at h
  · next hi => exact Option.some.inj h ▸ hdue (by rw [hi]; rfl)
  · next hi => exact Option.some.inj h ▸ hdue (by rw [hi]; rfl)
  · cases h

theorem due_finish (h : tryStep p (.finish i) = some p') : p'.due + 1 = p.due := by
  simp only [tryStep] at h
  split at h
  · next t hi =>
    obtain rfl := Option.some.inj h
    have hset := p.due_setWorker i .awake
    rw [hi] at hset
    change _ + 3 = p.due + 2 at hset
    change (p.setWorker i .awake).due + 1 = p.due
    omega
  · cases h

theorem due_destroy (h : tryStep p .destroy = some p') : p'.due ≤ p.due + Fintype.card ι := by
  simp only [tryStep] at h
  split_ifs at h
  obtain rfl := Option.some.inj h
  have hle : ∀ i, (if (p.worker i).isBlocked then Worker.notified else p.worker i).due ≤
      (p.worker i).due + 1 := by
    intro i
    split_ifs with hi
    · rw [Worker.due_of_isBlocked hi]
      rfl
    · omega
  have hsum := Finset.sum_le_sum fun i (_ : i ∈ Finset.univ) => hle i
  rw [Finset.sum_add_distrib, ← Finset.card_eq_sum_ones, Finset.card_univ] at hsum
  change 3 * p.m_work_queue.length + _ ≤ 3 * p.m_work_queue.length + _ + _
  rw [add_assoc]
  exact Nat.add_le_add_left hsum _

theorem due_join (h : tryStep p .join = some p') : p'.due = p.due := by
  simp only [tryStep] at h
  split_ifs at h
  exact Option.some.inj h ▸ rfl

theorem exists_dispatch (hd : p.destructor = .notBegun) (t : T) :
    ∃ woken, (tryStep p (.dispatch t woken)).isSome := by
  by_cases h : ∀ i, !(p.worker i).isBlocked
  · refine ⟨none, ?_⟩
    simp only [tryStep, if_pos hd, dispatch, notifyOne, if_pos h, Option.isSome_some]
  · obtain ⟨i, hi⟩ := not_forall.mp h
    have hi : (p.worker i).isBlocked = true := by simpa using hi
    refine ⟨some i, ?_⟩
    simp only [tryStep, if_pos hd, dispatch, notifyOne, hi, if_true, Option.isSome_some]

end SemanticSearch.ThreadPool

namespace SemanticSearch.ServerLife

open ThreadPool

variable {ι η : Type} [DecidableEq ι] [DecidableEq η] [Fintype ι] {s s' : Server ι η}
  {a : Act ι η}

def Act.isOwn : Act ι η → Bool
  | publish => true
  | checkDone => true
  | accept _ => true
  | acceptFails _ => true
  | checkFailed => true
  | dispatch _ => true
  | checkListener => true
  | closeListener => true
  | destroy => true
  | join => true
  | enter _ => true
  | finish _ => true
  | _ => false

def Act.isWakeUp : Act ι η → Bool
  | wakeUp _ => true
  | _ => false

/-- How many steps at most the main thread has before it once `g_done` is set. -/
def Main.stage : Main → ℕ
  | accepting => 7
  | publishing => 6
  | accepted _ => 6
  | failed _ => 6
  | loopHead => 5
  | leaving => 4
  | closing => 3
  | returned => 2
  | joining => 1
  | gone => 0

/-- A step of the main thread pays for the task that it may dispatch and for the workers that it
may notify. -/
def Server.due (s : Server ι η) : ℕ :=
  s.main.stage * (Fintype.card ι + 5) + s.pool.due

omit [DecidableEq ι] [DecidableEq η] in
theorem due_of_stage {m m' : Main} (hm : s.main = m) (hm' : s'.main = m')
    (hstage : m'.stage < m.stage) (hp : s'.pool.due ≤ s.pool.due + (Fintype.card ι + 4)) :
    s'.due + 1 ≤ s.due := by
  have hmul := Nat.mul_le_mul_right (Fintype.card ι + 5) hstage
  rw [Nat.succ_mul] at hmul
  rw [Server.due, Server.due, hm, hm']
  omega

omit [DecidableEq ι] [DecidableEq η] in
theorem due_of_pool {n k : ℕ} (hp : s'.pool.due + n ≤ s.pool.due + k) (hm : s'.main = s.main) :
    s'.due + n ≤ s.due + k := by
  rw [Server.due, Server.due, hm]
  omega

theorem Steps.due (hstep : Steps s a s') (hdone : s.g_done = true) :
    s'.g_done = true ∧ s'.due + a.isOwn.toNat ≤ s.due + a.isWakeUp.toNat := by
  have hsame : s.pool.due ≤ s.pool.due + (Fintype.card ι + 4) := Nat.le_add_right _ _
  cases hstep with
  | publish hm => exact ⟨hdone, due_of_stage hm rfl (Nat.lt_succ_self 5) hsame⟩
  | checkDone hm => exact ⟨hdone, due_of_stage hm (if_pos hdone) (by decide) hsame⟩
  | accept fd hm hl hfd => exact ⟨hdone, due_of_stage hm rfl (Nat.lt_succ_self 6) hsame⟩
  | acceptFails again hm => exact ⟨hdone, due_of_stage hm rfl (Nat.lt_succ_self 6) hsame⟩
  | checkFailed again hm =>
    have hnot : ¬ (s.g_done = false ∧ again) := by
      rw [hdone]
      simp
    exact ⟨hdone, due_of_stage hm (if_neg hnot) (Nat.le_succ 5) hsame⟩
  | dispatch woken ctx pool hm hp =>
    simp only [ThreadPool.tryStep] at hp
    split_ifs at hp
    have hle : pool.due ≤ s.pool.due + 4 := due_dispatch hp
    have hpool : pool.due ≤ s.pool.due + (Fintype.card ι + 4) := by omega
    exact ⟨hdone, due_of_stage hm rfl (Nat.lt_succ_self 5) hpool⟩
  | checkListener hm =>
    refine ⟨hdone, due_of_stage hm rfl ?_ hsame⟩
    split_ifs
    · exact Nat.lt_succ_self 3
    · exact Nat.le_succ 3
  | closeListener hm => exact ⟨hdone, due_of_stage hm rfl (Nat.lt_succ_self 2) hsame⟩
  | destroy pool hm hp =>
    have hle := due_destroy hp
    have hpool : pool.due ≤ s.pool.due + (Fintype.card ι + 4) := by omega
    exact ⟨hdone, due_of_stage hm rfl (Nat.lt_succ_self 1) hpool⟩
  | join pool hm hp =>
    have hle := due_join hp
    have hpool : pool.due ≤ s.pool.due + (Fintype.card ι + 4) := by omega
    exact ⟨hdone, due_of_stage hm rfl (Nat.lt_succ_self 0) hpool⟩
  | wakeUp i pool hp => exact ⟨hdone, due_of_pool (n := 0) (k := 1) (due_wakeUp hp).le rfl⟩
  | enter i pool hp => exact ⟨hdone, due_of_pool (n := 1) (k := 0) (due_enter hp) rfl⟩
  | connect i fd ctx hi hs hfd => exact ⟨hdone, le_refl s.due⟩
  | disconnect i fd hs => exact ⟨hdone, le_refl s.due⟩
  | finish i ctx pool hi hs hp =>
    exact ⟨hdone, due_of_pool (n := 1) (k := 0) (due_finish hp).le rfl⟩
  | signal x hh => exact ⟨rfl, le_refl s.due⟩
  | look x fd hh hg => exact ⟨hdone, le_refl s.due⟩
  | lookNone x hh hg => exact ⟨hdone, le_refl s.due⟩
  | clear x fd hh => exact ⟨hdone, le_refl s.due⟩
  | close x fd hh => exact ⟨hdone, le_refl s.due⟩

/-- The step can be taken, and it is one of the server's own, or it closes a socket to the embed
service. -/
def CanMove (s : Server ι η) (a : Act ι η) : Prop :=
  (a.isOwn ∨ ∃ i, a = .disconnect i) ∧ (tryStep s a).isSome

theorem canMove_main (ha : a.isOwn) (h : (mainStep s a).isSome) : CanMove s a :=
  ⟨Or.inl ha, by rw [tryStep, Option.isSome_or, h, Bool.true_or]⟩

theorem canMove_worker (ha : a.isOwn ∨ ∃ i, a = .disconnect i) (h : (workerStep s a).isSome) :
    CanMove s a :=
  ⟨ha, by rw [tryStep, Option.isSome_or, Option.isSome_or, h, Bool.true_or, Bool.or_true]⟩

theorem Sound.worker_moves (h : Sound s) (hd : s.pool.destructor = .joining) {i : ι}
    (hi : (s.pool.worker i).isExited = false) : ∃ a, CanMove s a := by
  have hkilled : s.pool.m_killthreads = true := h.flow.served.killed.mpr (by rw [hd]; simp)
  have hblocked := h.flow.served.woken hkilled i
  have henter : ∀ w, s.pool.worker i = w → w = .awake ∨ w = .notified → ∃ a, CanMove s a := by
    intro w hw hcases
    refine ⟨.enter i, canMove_worker (Or.inl rfl) ?_⟩
    rcases hcases with rfl | rfl
    · simp [workerStep, Server.pooled, ThreadPool.tryStep, hw]
    · simp [workerStep, Server.pooled, ThreadPool.tryStep, hw]
  cases hw : s.pool.worker i with
  | awake => exact henter _ hw (Or.inl rfl)
  | notified => exact henter _ hw (Or.inr rfl)
  | blocked => simp [hw, Worker.isBlocked] at hblocked
  | exited => simp [hw, Worker.isExited] at hi
  | running ctx =>
    cases hs : s.socket i with
    | none =>
      refine ⟨.finish i, canMove_worker (Or.inl rfl) ?_⟩
      simp [workerStep, Server.pooled, Server.closeFd, ThreadPool.tryStep, hw, hs]
    | some fd =>
      refine ⟨.disconnect i, canMove_worker (Or.inr ⟨i, rfl⟩) ?_⟩
      simp [workerStep, hs]

theorem Sound.moves (h : Sound s) (hgone : s.main ≠ .gone) : ∃ a, CanMove s a := by
  have hdestructor : ∀ m, s.main = m → s.pool.destructor = m.destructor := by
    intro m hm
    rw [h.flow.destructor, hm]
  cases hm : s.main with
  | publishing => exact ⟨.publish, canMove_main rfl (by simp [mainStep, hm])⟩
  | loopHead => exact ⟨.checkDone, canMove_main rfl (by simp [mainStep, hm])⟩
  | accepting => exact ⟨.acceptFails true, canMove_main rfl (by simp [mainStep, hm])⟩
  | failed again => exact ⟨.checkFailed, canMove_main rfl (by simp [mainStep, hm])⟩
  | accepted ctx =>
    obtain ⟨woken, hwoken⟩ := exists_dispatch (hdestructor _ hm) ctx
    refine ⟨.dispatch woken, canMove_main rfl ?_⟩
    simp only [mainStep, hm, Server.pooled, Option.isSome_map]
    exact hwoken
  | leaving => exact ⟨.checkListener, canMove_main rfl (by simp [mainStep, hm])⟩
  | closing => exact ⟨.closeListener, canMove_main rfl (by simp [mainStep, hm])⟩
  | returned =>
    have hd : s.pool.destructor = .notBegun := hdestructor _ hm
    refine ⟨.destroy, canMove_main rfl ?_⟩
    simp [mainStep, hm, Server.pooled, ThreadPool.tryStep, hd]
  | joining =>
    have hd : s.pool.destructor = .joining := hdestructor _ hm
    by_cases hall : ∀ i, (s.pool.worker i).isExited
    · refine ⟨.join, canMove_main rfl ?_⟩
      simp [mainStep, hm, Server.pooled, ThreadPool.tryStep, hd, hall]
    · obtain ⟨i, hi⟩ := not_forall.mp hall
      exact h.worker_moves hd (by simpa using hi)
  | gone => exact absurd hm hgone

/-- Behind a SIGINT the server comes to its end, if `accept` and the tasks do: in every run from
there the main thread and the workers take at most `due` steps, and one more for each wake-up without
a notification; and as long as the members are not destroyed one of their steps can be taken, or a
socket to the embed service can be closed. -/
theorem shutdown_ends [Nonempty ι] {listen_fd : ℕ} {acts more : List (Act ι η)}
    (hrun : Runs.tryRun tryStep (start listen_fd) acts = some s) (hdone : s.g_done = true)
    (hmore : Runs.tryRun tryStep s more = some s') :
    more.countP Act.isOwn ≤ s.due + more.countP Act.isWakeUp ∧
      (s'.main ≠ .gone → ∃ a, CanMove s' a) := by
  constructor
  · have hpaid := Runs.tryRun_potential (I := fun s => s.g_done = true)
      (fun _ _ _ hdone ha => Steps.due (steps_of_tryStep ha) hdone) hdone hmore
    omega
  · intro hgone
    have hsound : Sound s' := Runs.tryRun_invariant (fun _ _ _ h ha => h.step ha) (sound_run hrun) hmore
    exact hsound.moves hgone

/-- Two workers: a SIGINT comes while one connection is served and another one waits. -/
def signalled : List (Act Bool Unit) :=
  [.publish, .checkDone, .enter true, .accept 4, .dispatch (some true), .checkDone, .accept 5,
    .dispatch none, .enter false, .signal ()]

def untilGone : List (Act Bool Unit) :=
  [.checkDone, .checkListener, .closeListener, .destroy, .look (), .enter true, .finish false,
    .enter false, .clear (), .finish true, .close (), .enter true, .join]

theorem run_signalled : (Runs.tryRun tryStep (start 3) signalled).map
    (fun s : Server Bool Unit => (s.g_done, s.due)) = some (true, 43) := by decide +kernel

theorem run_untilGone : (Runs.tryRun tryStep (start 3) (signalled ++ untilGone)).map
    (fun s : Server Bool Unit => s.main) = some .gone := by decide +kernel

theorem shutdown_ends_signalled :
    ∃ s s' : Server Bool Unit, Runs.tryRun tryStep s untilGone = some s' ∧ s'.main = .gone ∧
      untilGone.countP Act.isOwn ≤ 43 ∧ s.due = 43 := by
  obtain ⟨s', hs', hgone⟩ := Option.map_eq_some_iff.mp run_untilGone
  obtain ⟨s, hs, hmore⟩ := Runs.tryRun_append_iff.mp hs'
  have hvalue := run_signalled
  rw [hs] at hvalue
  obtain ⟨hdone, hdue⟩ := Prod.mk.inj (Option.some.inj hvalue)
  have hends := (shutdown_ends hs hdone hmore).1
  rw [hdue] at hends
  exact ⟨s, s', hmore, hgone, hends, hdue⟩

end SemanticSearch.ServerLife
