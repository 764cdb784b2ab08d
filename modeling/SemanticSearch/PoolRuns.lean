import SemanticSearch.Runs
import SemanticSearch.ThreadPool

namespace SemanticSearch.ThreadPool

variable {T ι : Type} [Fintype ι] [DecidableEq ι] {p p' : Pool T ι} {i : ι}

theorem dispatch_eq_some {t : T} {woken : Option ι} (h : dispatch p t woken = some p') :
    (∃ i, (p.worker i).isBlocked ∧ p' =
      { p.setWorker i .notified with
        m_work_queue := p.m_work_queue ++ [t], dispatched := p.dispatched ++ [t] }) ∨
    (∀ i, (p.worker i).isBlocked = false) ∧ p' =
      { p with m_work_queue := p.m_work_queue ++ [t], dispatched := p.dispatched ++ [t] } := by
  unfold dispatch at h
  cases woken with
  | none =>
    simp only [notifyOne] at h
    split_ifs at h with hnone
    exact Or.inr ⟨by simpa using hnone, (Option.some.inj h).symm⟩
  | some i =>
    simp only [notifyOne] at h
    split_ifs at h with hi
    exact Or.inl ⟨i, hi, (Option.some.inj h).symm⟩

/-- A step does nothing, or is one of the locked parts taken in its turn. -/
theorem step_cases (p : Pool T ι) (a : Act T ι) :
    step p a = p ∨
    (∃ t woken, (p.destructor = .notBegun ∨ ∃ i t', p.worker i = .running t') ∧
      dispatch p t woken = some (step p a)) ∨
    (∃ i, (p.worker i).isBlocked ∧ step p a = p.setWorker i .awake) ∨
    (∃ i, (p.worker i = .awake ∨ p.worker i = .notified) ∧ step p a = enter p i) ∨
    (∃ i t, p.worker i = .running t ∧
      step p a = { p.setWorker i .awake with finished := p.finished ++ [t] }) ∨
    (p.destructor = .notBegun ∧ step p a =
      { notifyAll { p with m_killthreads := true } with destructor := .joining }) ∨
    p.destructor = .joining ∧ (∀ i, (p.worker i).isExited) ∧
      step p a = { p with destructor := .joined } := by
  rcases hs : tryStep p a with _ | p'
  · left
    simp [step, hs]
  have hstep : step p a = p' := by simp [step, hs]
  rw [hstep]
  right
  cases a with
  | dispatch t woken =>
    simp only [tryStep] at hs
    split_ifs at hs with hd
    exact Or.inl ⟨t, woken, Or.inl hd, hs⟩
  | taskDispatch i t woken =>
    rcases hw : p.worker i with _ | _ | _ | t' | _ <;> simp only [tryStep, hw] at hs
    · simp at hs
    · simp at hs
    · simp at hs
    · exact Or.inl ⟨t, woken, Or.inr ⟨i, t', hw⟩, hs⟩
    · simp at hs
  | wakeUp i =>
    simp only [tryStep] at hs
    split_ifs at hs with hi
    exact Or.inr (Or.inl ⟨i, hi, (Option.some.inj hs).symm⟩)
  | enter i =>
    right; right; left
    rcases hw : p.worker i with _ | _ | _ | t' | _ <;> simp only [tryStep, hw] at hs
    · exact ⟨i, Or.inl hw, (Option.some.inj hs).symm⟩
    · simp at hs
    · exact ⟨i, Or.inr hw, (Option.some.inj hs).symm⟩
    · simp at hs
    · simp at hs
  | finish i =>
    right; right; right; left
    rcases hw : p.worker i with _ | _ | _ | t' | _ <;> simp only [tryStep, hw] at hs
    · simp at hs
    · simp at hs
    · simp at hs
    · exact ⟨i, t', hw, (Option.some.inj hs).symm⟩
    · simp at hs
  | destroy =>
    simp only [tryStep] at hs
    split_ifs at hs with hd
    exact Or.inr (Or.inr (Or.inr (Or.inr (Or.inl ⟨hd, (Option.some.inj hs).symm⟩))))
  | join =>
    simp only [tryStep] at hs
    split_ifs at hs with hd
    exact Or.inr (Or.inr (Or.inr (Or.inr (Or.inr ⟨hd.1, hd.2, (Option.some.inj hs).symm⟩))))

/-- The tasks that the workers have taken and not finished. -/
def heldTasks (p : Pool T ι) : Multiset T := ∑ i, (p.worker i).held

theorem sum_setWorker {M : Type*} [AddCommMonoid M] (f : Worker T → M) (p : Pool T ι) (i : ι)
    (w : Worker T) :
    ∑ j, f ((p.setWorker i w).worker j) + f (p.worker i) = ∑ j, f (p.worker j) + f w := by
  have hnew := Finset.add_sum_erase Finset.univ
    (fun j => f ((p.setWorker i w).worker j)) (Finset.mem_univ i)
  have hold := Finset.add_sum_erase Finset.univ (fun j => f (p.worker j)) (Finset.mem_univ i)
  have hrest : ∑ j ∈ Finset.univ.erase i, f ((p.setWorker i w).worker j) =
      ∑ j ∈ Finset.univ.erase i, f (p.worker j) := by
    apply Finset.sum_congr rfl
    intro j hj
    rw [p.setWorker_of_ne (Finset.ne_of_mem_erase hj)]
  rw [← hnew, ← hold, hrest, p.setWorker_self]
  ac_rfl

theorem heldTasks_setWorker (p : Pool T ι) (i : ι) (w : Worker T) :
    heldTasks (p.setWorker i w) + (p.worker i).held = heldTasks p + w.held :=
  sum_setWorker Worker.held p i w

theorem heldTasks_setWorker_of_held {w : Worker T} (hi : (p.worker i).held = 0)
    (hw : w.held = 0) : heldTasks (p.setWorker i w) = heldTasks p := by
  have h := heldTasks_setWorker p i w
  simpa [hi, hw] using h

theorem held_of_isBlocked {w : Worker T} (h : w.isBlocked) : w.held = 0 := by
  cases w with
  | blocked => rfl
  | awake => simp [Worker.isBlocked] at h
  | notified => simp [Worker.isBlocked] at h
  | running t => simp [Worker.isBlocked] at h
  | exited => simp [Worker.isBlocked] at h

/-- The queue holds what was dispatched behind the tasks already taken, and every task taken
has returned or is with one worker. -/
structure Accounted (p : Pool T ι) : Prop where
  order : p.taken ++ p.m_work_queue = p.dispatched
  held : (p.finished : Multiset T) + heldTasks p = (p.taken : Multiset T)

omit [DecidableEq ι] in
theorem accounted_start : Accounted ({} : Pool T ι) := by
  constructor
  · rfl
  · simp [heldTasks, Worker.held]

theorem Accounted.dispatch {t : T} {woken : Option ι} (h : Accounted p)
    (hd : dispatch p t woken = some p') : Accounted p' := by
  have horder : p.taken ++ (p.m_work_queue ++ [t]) = p.dispatched ++ [t] := by
    rw [← List.append_assoc, h.order]
  rcases dispatch_eq_some hd with ⟨i, hi, rfl⟩ | ⟨-, rfl⟩
  · refine ⟨horder, ?_⟩
    change (p.finished : Multiset T) + heldTasks (p.setWorker i .notified) = p.taken
    rw [heldTasks_setWorker_of_held (held_of_isBlocked hi) rfl]
    exact h.held
  · exact ⟨horder, h.held⟩

theorem Accounted.enter (h : Accounted p) (hi : (p.worker i).held = 0) :
    Accounted (enter p i) := by
  rcases hq : p.m_work_queue with _ | ⟨t, rest⟩
  · -- the queue is empty: the worker waits or exits
    rw [enter_of_nil hq]
    refine ⟨h.order, ?_⟩
    have hw : (if p.m_killthreads then Worker.exited else Worker.blocked (T := T)).held = 0 := by
      split_ifs <;> rfl
    rw [heldTasks_setWorker_of_held hi hw]
    exact h.held
  · -- the first task of the queue goes to the worker
    have horder := h.order
    rw [hq] at horder
    rw [enter_of_cons hq]
    refine ⟨by simpa [Pool.setWorker] using horder, ?_⟩
    have hset := heldTasks_setWorker p i (.running t)
    rw [hi, add_zero] at hset
    change (p.finished : Multiset T) + heldTasks (p.setWorker i (.running t)) =
      ((p.taken ++ [t] : List T) : Multiset T)
    rw [hset, ← add_assoc, h.held]
    rfl

theorem Accounted.finish {t : T} (h : Accounted p) (hi : p.worker i = .running t) :
    Accounted { p.setWorker i .awake with finished := p.finished ++ [t] } := by
  refine ⟨h.order, ?_⟩
  have hset := heldTasks_setWorker p i .awake
  rw [hi] at hset
  change ((p.finished ++ [t] : List T) : Multiset T) + heldTasks (p.setWorker i .awake) = p.taken
  rw [← h.held, ← Multiset.coe_add, add_assoc]
  congr 1
  calc ({t} : Multiset T) + heldTasks (p.setWorker i .awake)
      = heldTasks (p.setWorker i .awake) + {t} := add_comm _ _
    _ = heldTasks p + 0 := hset
    _ = heldTasks p := add_zero _

omit [DecidableEq ι] in
theorem Accounted.notifyAll (h : Accounted p) (k : Bool) (d : Destructor) :
    Accounted { notifyAll { p with m_killthreads := k } with destructor := d } := by
  refine ⟨h.order, ?_⟩
  have hheld : heldTasks { ThreadPool.notifyAll { p with m_killthreads := k } with
      destructor := d } = heldTasks p := by
    apply Finset.sum_congr rfl
    intro i _
    change (if (p.worker i).isBlocked then Worker.notified else p.worker i).held = _
    split_ifs with hi
    · rw [held_of_isBlocked hi]
      rfl
    · rfl
  rw [hheld]
  exact h.held

theorem Accounted.step (h : Accounted p) (a : Act T ι) : Accounted (step p a) := by
  rcases step_cases p a with hs | ⟨t, woken, -, hs⟩ | ⟨i, hi, hs⟩ | ⟨i, hi, hs⟩ | ⟨i, t, hi, hs⟩ |
    ⟨-, hs⟩ | ⟨-, -, hs⟩
  · rwa [hs]
  · exact h.dispatch hs
  · rw [hs]
    exact ⟨h.order, by rw [heldTasks_setWorker_of_held (held_of_isBlocked hi) rfl]; exact h.held⟩
  · rw [hs]
    apply h.enter
    cases hi with
    | inl hi => rw [hi]; rfl
    | inr hi => rw [hi]; rfl
  · rw [hs]
    exact h.finish hi
  · rw [hs]
    exact h.notifyAll true .joining
  · rw [hs]
    exact ⟨h.order, h.held⟩

/-- While tasks are queued some worker is on its way to the queue, and behind the start of the
destructor none is blocked. -/
structure Served (p : Pool T ι) : Prop where
  killed : p.m_killthreads = true ↔ p.destructor ≠ .notBegun
  exited : ∀ i, (p.worker i).isExited → p.m_killthreads = true
  active : p.m_work_queue ≠ [] → ∃ i, (p.worker i).isActive
  woken : p.m_killthreads = true → ∀ i, (p.worker i).isBlocked = false
  joined : p.destructor = .joined → ∀ i, (p.worker i).isExited

omit [Fintype ι] [DecidableEq ι] in
theorem served_start : Served ({} : Pool T ι) where
  killed := by simp
  exited _ h := by simp [Worker.isExited] at h
  active h := absurd rfl h
  woken h := by simp at h
  joined h := by simp at h

omit [Fintype ι] in
theorem forall_setWorker {P : Worker T → Prop} {w : Worker T} (hw : P w)
    (h : ∀ j, P (p.worker j)) (j : ι) : P ((p.setWorker i w).worker j) :=
  (Function.forall_update_iff p.worker fun _ => P).mpr ⟨hw, fun j _ => h j⟩ j

omit [Fintype ι] in
theorem Served.setWorker {w : Worker T} (h : Served p) (hw : w.isActive)
    (hi : (p.worker i).isExited = false) : Served (p.setWorker i w) where
  killed := h.killed
  exited j hj := by
    by_cases hji : j = i
    · subst hji
      rw [p.setWorker_self] at hj
      simp [Worker.isActive, hj] at hw
    · rw [p.setWorker_of_ne hji] at hj
      exact h.exited j hj
  active _ := ⟨i, by rwa [p.setWorker_self]⟩
  woken hk := by
    simp only [Worker.isActive, Bool.and_eq_true, Bool.not_eq_true'] at hw
    exact forall_setWorker (P := fun w => w.isBlocked = false) hw.1 (h.woken hk)
  joined hj := by
    have hexit := h.joined hj i
    simp [hi] at hexit

theorem Served.dispatch [Nonempty ι] {t : T} {woken : Option ι} (h : Served p)
    (hcall : p.destructor = .notBegun ∨ ∃ i t', p.worker i = .running t')
    (hd : dispatch p t woken = some p') : Served p' := by
  rcases dispatch_eq_some hd with ⟨i, hi, rfl⟩ | ⟨hnone, rfl⟩
  · have hexit : (p.worker i).isExited = false := by
      revert hi
      cases p.worker i <;> simp [Worker.isBlocked, Worker.isExited]
    have hs := h.setWorker (w := .notified) rfl hexit
    have hactive : ((p.setWorker i .notified).worker i).isActive := by
      rw [p.setWorker_self]
      rfl
    exact ⟨hs.killed, hs.exited, fun _ => ⟨i, hactive⟩, hs.woken, hs.joined⟩
  · refine ⟨h.killed, h.exited, fun _ => ?_, h.woken, h.joined⟩
    -- nobody is blocked, and the caller itself shows that somebody has not exited
    obtain ⟨i, hi⟩ : ∃ i, (p.worker i).isExited = false := by
      cases hcall with
      | inl hbegun =>
        obtain ⟨i⟩ := ‹Nonempty ι›
        refine ⟨i, ?_⟩
        by_contra hexit
        exact h.killed.mp (h.exited i (by simpa using hexit)) hbegun
      | inr hrun =>
        obtain ⟨i, t', hi⟩ := hrun
        exact ⟨i, by rw [hi]; rfl⟩
    exact ⟨i, by simp [Worker.isActive, hnone i, hi]⟩

omit [Fintype ι] in
theorem Served.enter (h : Served p) (hi : (p.worker i).isActive) : Served (enter p i) := by
  rcases hq : p.m_work_queue with _ | ⟨t, rest⟩
  · rw [enter_of_nil hq]
    have hexit : (p.worker i).isExited = false := by
      simp only [Worker.isActive, Bool.and_eq_true, Bool.not_eq_true'] at hi
      exact hi.2
    cases hk : p.m_killthreads with
    | false =>
      -- the predicate is false: the worker blocks
      have hjoined : p.destructor = .notBegun := by
        by_contra hd
        simp [h.killed.mpr hd] at hk
      refine ⟨h.killed, fun j hj => ?_, fun hne => absurd hq hne, fun hkill => ?_, fun hj => ?_⟩
      · have hnone : ∀ j, (p.worker j).isExited = false := by
          intro j
          by_contra hj
          simp [h.exited j (by simpa using hj)] at hk
        have := forall_setWorker (p := p) (i := i) (P := fun w => w.isExited = false)
          (w := .blocked) rfl hnone j
        simp [this] at hj
      · change p.m_killthreads = true at hkill
        simp [hk] at hkill
      · change p.destructor = .joined at hj
        simp [hjoined] at hj
    | true =>
      refine ⟨h.killed, fun _ _ => hk, fun hne => absurd hq hne, fun hkill => ?_, fun hj => ?_⟩
      · exact forall_setWorker (P := fun w => w.isBlocked = false) rfl (h.woken hk)
      · exact absurd (h.joined hj i) (by simp [hexit])
  · rw [enter_of_cons hq]
    have hexit : (p.worker i).isExited = false := by
      simp only [Worker.isActive, Bool.and_eq_true, Bool.not_eq_true'] at hi
      exact hi.2
    have hs := h.setWorker (w := .running t) rfl hexit
    have hactive : ((p.setWorker i (.running t)).worker i).isActive := by
      rw [p.setWorker_self]
      rfl
    exact ⟨hs.killed, hs.exited, fun _ => ⟨i, hactive⟩, hs.woken, hs.joined⟩

omit [Fintype ι] [DecidableEq ι] in
theorem notifyAll_isBlocked (p : Pool T ι) (i : ι) :
    ((notifyAll p).worker i).isBlocked = false := by
  simp only [notifyAll]
  split_ifs with hi
  · rfl
  · simpa using hi

omit [Fintype ι] [DecidableEq ι] in
theorem notifyAll_isExited (p : Pool T ι) (i : ι) :
    ((notifyAll p).worker i).isExited = (p.worker i).isExited := by
  simp only [notifyAll]
  rcases p.worker i with _ | _ | _ | t | _ <;> rfl

omit [Fintype ι] [DecidableEq ι] in
theorem Served.destroy [Nonempty ι] (h : Served p) (hd : p.destructor = .notBegun) :
    Served { notifyAll { p with m_killthreads := true } with destructor := .joining } := by
  have hblocked := notifyAll_isBlocked { p with m_killthreads := true }
  have hexit : ∀ i, (p.worker i).isExited = false := by
    intro i
    by_contra hi
    exact h.killed.mp (h.exited i (by simpa using hi)) hd
  refine ⟨?_, fun _ _ => rfl, fun _ => ?_, fun _ => hblocked, fun hj => by simp at hj⟩
  · simp [notifyAll]
  · obtain ⟨i⟩ := ‹Nonempty ι›
    have hi : ((notifyAll { p with m_killthreads := true }).worker i).isExited = false := by
      rw [notifyAll_isExited]
      exact hexit i
    exact ⟨i, by simp [Worker.isActive, hblocked i, hi]⟩

omit [Fintype ι] [DecidableEq ι] in
theorem Served.join (h : Served p) (hd : p.destructor = .joining)
    (hall : ∀ i, (p.worker i).isExited) : Served { p with destructor := .joined } where
  killed := by
    have hk : p.m_killthreads = true := h.killed.mpr (by simp [hd])
    simp [hk]
  exited := h.exited
  active := h.active
  woken := h.woken
  joined _ := hall

theorem Served.step [Nonempty ι] (h : Served p) (a : Act T ι) : Served (step p a) := by
  rcases step_cases p a with hs | ⟨t, woken, hcall, hs⟩ | ⟨i, hi, hs⟩ | ⟨i, hi, hs⟩ |
    ⟨i, t, hi, hs⟩ | ⟨hd, hs⟩ | ⟨hd, hall, hs⟩
  · rwa [hs]
  · exact h.dispatch hcall hs
  · rw [hs]
    apply h.setWorker rfl
    revert hi
    cases p.worker i <;> simp [Worker.isBlocked, Worker.isExited]
  · rw [hs]
    apply h.enter
    cases hi with
    | inl hi => rw [hi]; rfl
    | inr hi => rw [hi]; rfl
  · rw [hs]
    have hset := h.setWorker (i := i) (w := .awake) rfl (by rw [hi]; rfl)
    exact ⟨hset.killed, hset.exited, hset.active, hset.woken, hset.joined⟩
  · rw [hs]
    exact h.destroy hd
  · rw [hs]
    exact h.join hd hall

theorem accounted_run (acts : List (Act T ι)) :
    Accounted (Runs.run step ({} : Pool T ι) acts) :=
  Runs.invariant_run (I := Accounted) (fun _ a h => h.step a) accounted_start acts

theorem served_run [Nonempty ι] (acts : List (Act T ι)) :
    Served (Runs.run step ({} : Pool T ι) acts) :=
  Runs.invariant_run (I := Served) (fun _ a h => h.step a) served_start acts

omit [DecidableEq ι] in
theorem heldTasks_of_isExited (h : ∀ i, (p.worker i).isExited) : heldTasks p = 0 := by
  apply Finset.sum_eq_zero
  intro i _
  apply Worker.held_of_not_running
  intro t ht
  have hi := h i
  simp [ht, Worker.isExited] at hi

/-- Tasks are taken in the order of their dispatch and each is run once; when the destructor
has joined the threads none is left. -/
theorem drained_at_join [Nonempty ι] (acts : List (Act T ι)) :
    let p := Runs.run step ({} : Pool T ι) acts
    p.taken ++ p.m_work_queue = p.dispatched ∧
    (p.finished : Multiset T) + heldTasks p = (p.taken : Multiset T) ∧
    (p.destructor = .joined → p.m_work_queue = [] ∧ p.finished.Perm p.dispatched) := by
  intro p
  have hacc : Accounted p := accounted_run acts
  have hserved : Served p := served_run acts
  refine ⟨hacc.order, hacc.held, fun hj => ?_⟩
  have hall := hserved.joined hj
  have hempty : p.m_work_queue = [] := by
    by_contra hne
    obtain ⟨i, hi⟩ := hserved.active hne
    simp [Worker.isActive, hall i] at hi
  refine ⟨hempty, ?_⟩
  have horder := hacc.order
  rw [hempty, List.append_nil] at horder
  have hheld := hacc.held
  rw [heldTasks_of_isExited hall, add_zero, horder] at hheld
  exact Multiset.coe_eq_coe.mp hheld

/-- Two workers and a task that dispatches another while the pool drains. -/
def drainingRun : List (Act ℕ (Fin 2)) :=
  [.enter 0, .dispatch 1 (some 0), .enter 0, .destroy, .taskDispatch 0 2 none, .enter 1,
    .finish 0, .enter 0, .finish 1, .enter 1, .join]

theorem drained_at_join_twoWorkers :
    let p := Runs.run step ({} : Pool ℕ (Fin 2)) drainingRun
    p.destructor = .joined ∧ p.finished.Perm [1, 2] := by
  intro p
  have hj : p.destructor = .joined := by decide
  have hdispatched : p.dispatched = [1, 2] := by decide
  exact ⟨hj, hdispatched ▸ ((drained_at_join drainingRun).2.2 hj).2⟩

/-- In every state of a run: tasks in the queue have a worker that is awake, notified or
running, and once the kill flag is set no worker is blocked without a notification. -/
theorem no_lost_wakeup [Nonempty ι] (acts : List (Act T ι)) :
    let p := Runs.run step ({} : Pool T ι) acts
    (p.m_work_queue ≠ [] → ∃ i, (p.worker i).isActive) ∧
    (p.m_killthreads = true → ∀ i, (p.worker i).isBlocked = false) := by
  intro p
  have hserved : Served p := served_run acts
  exact ⟨hserved.active, hserved.woken⟩

theorem no_lost_wakeup_twoWorkers :
    let p := Runs.run step ({} : Pool ℕ (Fin 2))
      [.enter 0, .enter 1, .dispatch 1 (some 0), .dispatch 2 (some 1), .enter 1]
    p.m_work_queue = [2] ∧ ∃ i, (p.worker i).isActive := by
  intro p
  have hqueue : p.m_work_queue = [2] := by decide
  exact ⟨hqueue, (no_lost_wakeup _).1 (by rw [hqueue]; simp)⟩

end SemanticSearch.ThreadPool
