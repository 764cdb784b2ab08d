import SemanticSearch.ServerRuns

namespace SemanticSearch.ServerLife

open ThreadPool

variable {ι η : Type} [DecidableEq ι] [DecidableEq η] [Fintype ι] {s s' : Server ι η}
  {a : Act ι η}

inductive Agent (η : Type)
  | main
  | worker
  | handler (h : η)
  deriving DecidableEq

def Act.agent : Act ι η → Agent η
  | .wakeUp _ => .worker
  | .enter _ => .worker
  | .connect _ _ => .worker
  | .disconnect _ => .worker
  | .finish _ => .worker
  | .signal h => .handler h
  | .look h => .handler h
  | .clear h => .handler h
  | .close h => .handler h
  | _ => .main

/-- Behind the last check of `g_listen_fd` in `Run`. -/
def Main.Decided (m : Main) : Prop := m = .closing ∨ m = .returned ∨ m = .joining ∨ m = .gone

/-- The handler is not between its look at `g_listen_fd` and its `close`. -/
def Handler.Free (x : Handler) : Prop := x = .idle ∨ x = .marked

instance (m : Main) : Decidable m.Decided :=
  inferInstanceAs (Decidable (_ ∨ _ ∨ _ ∨ _))

instance (x : Handler) : Decidable x.Free := inferInstanceAs (Decidable (_ ∨ _))

/-- From its look at `g_listen_fd` on, a call of the handler keeps the main thread and other calls
waiting, and none finds the listening socket there behind the last check in `Run`. -/
def Undisturbed (s : Server ι η) (a : Act ι η) : Prop :=
  (∀ h, ¬ (s.handler h).Free → a.agent = .worker ∨ a.agent = .handler h) ∧
    ∀ h, a = .look h → s.main.Decided → s.g_listen_fd = none

/-- The listening socket is still to be closed. -/
def Server.ToClose (s : Server ι η) : Prop :=
  s.main = .publishing ∨ s.main = .closing ∨ (s.g_listen_fd ≠ none ∧ ¬ s.main.Decided) ∨
    ∃ h fd, s.handler h = .cleared fd

/-- With undisturbed handlers one party at a time is about to close the listening socket. -/
structure Orderly (s : Server ι η) : Prop where
  alone : ∀ h h', ¬ (s.handler h).Free → ¬ (s.handler h').Free → h = h'
  publishing : s.main = .publishing → s.g_listen_fd = none
  looked : ∀ h fd, s.handler h = .looked fd → s.g_listen_fd ≠ none ∧ ¬ s.main.Decided
  cleared : ∀ h fd, s.handler h = .cleared fd →
    s.g_listen_fd = none ∧ s.main ≠ .publishing ∧ ¬ s.main.Decided
  toClose : s.ToClose → s.listenerCloses = []
  closed : ¬ s.ToClose → s.listenerCloses.length = 1

omit [DecidableEq ι] [DecidableEq η] [Fintype ι] in
theorem orderly_start (listen_fd : ℕ) : Orderly (start listen_fd : Server ι η) where
  alone h h' hh := absurd (Or.inl rfl) hh
  publishing _ := rfl
  looked h fd hh := by cases hh
  cleared h fd hh := by cases hh
  toClose _ := rfl
  closed hn := absurd (Or.inl rfl) hn

omit [DecidableEq ι] [DecidableEq η] [Fintype ι] in
theorem Orderly.move (h : Orderly s) {s' : Server ι η} (hm : s'.main = s.main)
    (hg : s'.g_listen_fd = s.g_listen_fd) (hh : s'.handler = s.handler)
    (hc : s'.listenerCloses = s.listenerCloses) : Orderly s' := by
  have hiff : s'.ToClose ↔ s.ToClose := by
    simp only [Server.ToClose, hm, hg, hh]
  constructor
  · rw [hh]
    exact h.alone
  · rw [hm, hg]
    exact h.publishing
  · rw [hh, hg, hm]
    exact h.looked
  · rw [hh, hg, hm]
    exact h.cleared
  · rw [hiff, hc]
    exact h.toClose
  · rw [hiff, hc]
    exact h.closed

omit [DecidableEq ι] [DecidableEq η] [Fintype ι] in
theorem Handler.Free.not_cleared {x : Handler} (h : x.Free) (fd : ℕ) : x ≠ .cleared fd := by
  rcases h with rfl | rfl <;> simp

omit [DecidableEq ι] [DecidableEq η] [Fintype ι] in
theorem orderly_main (hfree : ∀ x, (s.handler x).Free) (hpub : s.main ≠ .publishing)
    (hopen : s.main = .closing ∨ s.g_listen_fd ≠ none ∧ ¬ s.main.Decided → s.listenerCloses = [])
    (hclosed : ¬ (s.main = .closing ∨ s.g_listen_fd ≠ none ∧ ¬ s.main.Decided) →
      s.listenerCloses.length = 1) : Orderly s := by
  have hiff : s.ToClose ↔ s.main = .closing ∨ s.g_listen_fd ≠ none ∧ ¬ s.main.Decided := by
    simp [Server.ToClose, hpub, fun x fd => (hfree x).not_cleared fd]
  refine ⟨fun x y hx => absurd (hfree x) hx, fun hp => absurd hp hpub, fun x fd hx => ?_,
    fun x fd hx => absurd hx ((hfree x).not_cleared fd), fun hc => hopen (hiff.mp hc),
    fun hc => hclosed (mt hiff.mpr hc)⟩
  rcases hfree x with hx' | hx' <;> simp [hx'] at hx

omit [DecidableEq ι] [DecidableEq η] [Fintype ι] in
theorem Undisturbed.all_free (hu : Undisturbed s a) (ha : a.agent = .main) (x : η) :
    (s.handler x).Free := by
  by_contra hx
  have hagent := hu.1 x hx
  rw [ha] at hagent
  simp at hagent

omit [DecidableEq ι] [DecidableEq η] [Fintype ι] in
theorem Undisturbed.others_free (hu : Undisturbed s a) {x : η} (ha : a.agent = .handler x) (y : η)
    (hy : y ≠ x) : (s.handler y).Free := by
  by_contra hne
  have hagent := hu.1 y hne
  rw [ha] at hagent
  simp at hagent
  exact hy hagent.symm

omit [DecidableEq ι] [Fintype ι] in
theorem eq_of_not_free {x y : η} {z : Handler} (hothers : ∀ y, y ≠ x → (s.handler y).Free)
    (hy : ¬ (Function.update s.handler x z y).Free) : y = x := by
  by_contra hyx
  rw [Function.update_of_ne hyx] at hy
  exact hy (hothers y hyx)

omit [DecidableEq ι] [Fintype ι] in
theorem Orderly.setHandler (h : Orderly s) {x : η} (hothers : ∀ y, y ≠ x → (s.handler y).Free)
    {z : Handler} (hold : ∀ fd, s.handler x ≠ .cleared fd) (hcleared : ∀ fd, z ≠ .cleared fd)
    (hlooked : ∀ fd, z = .looked fd → s.g_listen_fd ≠ none ∧ ¬ s.main.Decided) :
    Orderly (s.setHandler x z) := by
  have hnone : ∀ y fd, s.handler y ≠ .cleared fd := by
    intro y fd hy
    by_cases hyx : y = x
    · exact hold fd (hyx ▸ hy)
    · exact (hothers y hyx).not_cleared fd hy
  have hnew : ∀ y, ¬ ((s.setHandler x z).handler y).Free → y = x := fun y =>
    eq_of_not_free hothers
  have hself : (s.setHandler x z).handler x = z := Function.update_self ..
  have hnone' : ∀ y fd, (s.setHandler x z).handler y ≠ .cleared fd := by
    intro y fd hy
    obtain rfl := hnew y (by rw [hy]; simp [Handler.Free])
    exact hcleared fd (hself ▸ hy)
  have hiff : (s.setHandler x z).ToClose ↔ s.ToClose := by
    simp only [Server.ToClose, hnone, hnone']
    rfl
  refine ⟨fun y y' hy hy' => (hnew y hy).trans (hnew y' hy').symm, h.publishing, fun y fd hy => ?_,
    fun y fd hy => absurd hy (hnone' y fd), fun hc => h.toClose (hiff.mp hc),
    fun hc => h.closed (mt hiff.mpr hc)⟩
  obtain rfl := hnew y (by rw [hy]; simp [Handler.Free])
  exact hlooked fd (hself ▸ hy)

omit [DecidableEq ι] [DecidableEq η] [Fintype ι] in
theorem Orderly.toClose_iff (h : Orderly s) (hfree : ∀ x, (s.handler x).Free)
    (hpub : s.main ≠ .publishing) : (s.main = .closing ∨ s.g_listen_fd ≠ none ∧ ¬ s.main.Decided →
      s.listenerCloses = []) ∧ (¬ (s.main = .closing ∨ s.g_listen_fd ≠ none ∧ ¬ s.main.Decided) →
        s.listenerCloses.length = 1) := by
  have hiff : s.ToClose ↔ s.main = .closing ∨ s.g_listen_fd ≠ none ∧ ¬ s.main.Decided := by
    simp [Server.ToClose, hpub, fun x fd => (hfree x).not_cleared fd]
  exact ⟨fun hc => h.toClose (hiff.mpr hc), fun hc => h.closed (mt hiff.mp hc)⟩

omit [DecidableEq ι] [DecidableEq η] [Fintype ι] in
theorem Orderly.stay (h : Orderly s) (hfree : ∀ x, (s.handler x).Free) {s' : Server ι η}
    (hm : ¬ s.main.Decided ∧ s.main ≠ .publishing) (hm' : ¬ s'.main.Decided ∧ s'.main ≠ .publishing)
    (hg : s'.g_listen_fd = s.g_listen_fd) (hh : s'.handler = s.handler)
    (hc : s'.listenerCloses = s.listenerCloses) : Orderly s' := by
  have hclosing : ∀ {m : Main}, ¬ m.Decided → m ≠ .closing := fun hd hc => hd (Or.inl hc)
  obtain ⟨hopen, hclosed⟩ := h.toClose_iff hfree hm.2
  apply orderly_main (fun x => hh ▸ hfree x) hm'.2
  · rw [hg, hc]
    intro hor
    exact hopen (Or.inr ⟨(hor.resolve_left (hclosing hm'.1)).1, hm.1⟩)
  · rw [hg, hc]
    intro hor
    apply hclosed
    intro hor'
    exact hor (Or.inr ⟨(hor'.resolve_left (hclosing hm.1)).1, hm'.1⟩)

/-- `Run` has returned. -/
def Main.Past (m : Main) : Prop := m = .returned ∨ m = .joining ∨ m = .gone

omit [DecidableEq ι] [DecidableEq η] [Fintype ι] in
theorem Main.Past.not_toClose {m : Main} (h : m.Past) (s : Server ι η) :
    m ≠ .publishing ∧ ¬ (m = .closing ∨ s.g_listen_fd ≠ none ∧ ¬ m.Decided) := by
  have hd : m.Decided := Or.inr h
  rcases h with rfl | rfl | rfl <;> simp [hd]

omit [DecidableEq ι] [DecidableEq η] [Fintype ι] in
theorem Orderly.behind (h : Orderly s) (hfree : ∀ x, (s.handler x).Free) {s' : Server ι η}
    (hm : s.main.Past) (hm' : s'.main.Past) (hh : s'.handler = s.handler)
    (hc : s'.listenerCloses = s.listenerCloses) : Orderly s' := by
  obtain ⟨hpub, hnot⟩ := hm.not_toClose s
  obtain ⟨hpub', hnot'⟩ := hm'.not_toClose s'
  apply orderly_main (fun x => hh ▸ hfree x) hpub'
  · exact fun hor => absurd hor hnot'
  · intro _
    rw [hc]
    exact (h.toClose_iff hfree hpub).2 hnot

omit [DecidableEq ι] [Fintype ι] in
theorem Orderly.clear (h : Orderly s) {x : η} {fd : ℕ}
    (hothers : ∀ y, y ≠ x → (s.handler y).Free) (hh : s.handler x = .looked fd) :
    Orderly { s.setHandler x (.cleared fd) with g_listen_fd := none } := by
  obtain ⟨hg, hd⟩ := h.looked x fd hh
  have hpub : s.main ≠ .publishing := fun hp => hg (h.publishing hp)
  have hnew : ∀ y, ¬ (Function.update s.handler x (.cleared fd) y).Free → y = x := fun y =>
    eq_of_not_free hothers
  refine ⟨fun y y' hy hy' => (hnew y hy).trans (hnew y' hy').symm, fun hp => rfl,
    fun y fd' hy => ?_, fun y fd' hy => ⟨rfl, hpub, hd⟩, fun _ => ?_, fun hn => ?_⟩
  · change Function.update s.handler x _ y = _ at hy
    obtain rfl := hnew y (by rw [hy]; simp [Handler.Free])
    rw [Function.update_self] at hy
    cases hy
  · exact h.toClose (Or.inr (Or.inr (Or.inl ⟨hg, hd⟩)))
  · exact absurd (Or.inr (Or.inr (Or.inr ⟨x, fd, Function.update_self ..⟩))) hn

omit [DecidableEq ι] [Fintype ι] in
theorem Orderly.close (h : Orderly s) {x : η} {fd : ℕ}
    (hothers : ∀ y, y ≠ x → (s.handler y).Free) (hh : s.handler x = .cleared fd) :
    Orderly ((s.setHandler x .idle).closeListening fd) := by
  obtain ⟨hg, hpub, hd⟩ := h.cleared x fd hh
  have hnone := h.toClose (Or.inr (Or.inr (Or.inr ⟨x, fd, hh⟩)))
  have hfree : ∀ y, (Function.update s.handler x .idle y).Free := by
    intro y
    by_contra hy
    obtain rfl := eq_of_not_free hothers hy
    exact hy (Or.inl (Function.update_self ..))
  refine orderly_main hfree hpub ?_ ?_
  · intro hor
    exact (hor.elim (fun hc => hd (Or.inl hc)) fun hc => hc.1 hg).elim
  · intro _
    change (s.listenerCloses ++ [_]).length = 1
    rw [hnone]
    rfl

/-- One step of an undisturbed run. -/
theorem Orderly.steps (h : Orderly s) (hu : Undisturbed s a) (hstep : Steps s a s') :
    Orderly s' := by
  cases hstep with
  | publish hm =>
    refine orderly_main (fun x => hu.all_free rfl x) ?_ ?_ ?_
    · simp
    · exact fun _ => h.toClose (Or.inl hm)
    · intro hor
      exact absurd (Or.inr ⟨by simp, by simp [Main.Decided]⟩) hor
  | checkDone hm =>
    refine h.stay (hu.all_free rfl) ?_ ?_ rfl rfl rfl
    · simp [hm, Main.Decided]
    · dsimp only
      split_ifs <;> simp [Main.Decided]
  | accept fd hm hl hfd =>
    refine h.stay (hu.all_free rfl) ?_ ?_ rfl rfl rfl
    · simp [hm, Main.Decided]
    · simp [Main.Decided]
  | acceptFails again hm =>
    refine h.stay (hu.all_free rfl) ?_ ?_ rfl rfl rfl
    · simp [hm, Main.Decided]
    · simp [Main.Decided]
  | checkFailed again hm =>
    refine h.stay (hu.all_free rfl) ?_ ?_ rfl rfl rfl
    · simp [hm, Main.Decided]
    · dsimp only
      split_ifs <;> simp [Main.Decided]
  | dispatch woken ctx pool hm hp =>
    refine h.stay (hu.all_free rfl) ?_ ?_ rfl rfl rfl
    · simp [hm, Main.Decided]
    · simp [Main.Decided]
  | checkListener hm =>
    obtain ⟨hopen, hclosed⟩ := h.toClose_iff (hu.all_free rfl) (by simp [hm])
    rcases hg : s.g_listen_fd with _ | fd
    · -- a handler has closed the socket
      refine orderly_main (fun x => hu.all_free rfl x) ?_ ?_ ?_
      · simp
      · simp [Main.Decided]
      · exact fun _ => hclosed (by simp [hm, hg])
    · refine orderly_main (fun x => hu.all_free rfl x) ?_ ?_ ?_
      · simp
      · exact fun _ => hopen (Or.inr ⟨by simp [hg], by simp [hm, Main.Decided]⟩)
      · simp
  | closeListener hm =>
    have hnone := h.toClose (Or.inr (Or.inl hm))
    refine orderly_main (fun x => hu.all_free rfl x) ?_ ?_ ?_
    · simp
    · simp [Main.Decided]
    · intro _
      change (s.listenerCloses ++ [_]).length = 1
      rw [hnone]
      rfl
  | destroy pool hm hp =>
    exact h.behind (hu.all_free rfl) (by simp [hm, Main.Past]) (by simp [Main.Past]) rfl rfl
  | join pool hm hp =>
    exact h.behind (hu.all_free rfl) (by simp [hm, Main.Past]) (by simp [Main.Past]) rfl rfl
  | wakeUp i pool hp => exact h.move rfl rfl rfl rfl
  | enter i pool hp => exact h.move rfl rfl rfl rfl
  | connect i fd ctx hi hs hfd => exact h.move rfl rfl rfl rfl
  | disconnect i fd hs => exact h.move rfl rfl rfl rfl
  | finish i ctx pool hi hs hp => exact h.move rfl rfl rfl rfl
  | signal x hh =>
    have hset := h.setHandler (z := .marked) (hu.others_free rfl) (by simp [hh]) (by simp) (by simp)
    exact hset.move rfl rfl rfl rfl
  | look x fd hh hg =>
    apply h.setHandler (hu.others_free rfl) (by simp [hh]) (by simp)
    intro _ _
    refine ⟨by simp [hg], fun hd => ?_⟩
    have hnone := hu.2 x rfl hd
    rw [hg] at hnone
    cases hnone
  | lookNone x hh hg =>
    exact h.setHandler (hu.others_free rfl) (by simp [hh]) (by simp) (by simp)
  | clear x fd hh => exact h.clear (hu.others_free rfl) hh
  | close x fd hh => exact h.close (hu.others_free rfl) hh

instance [Fintype η] (s : Server ι η) (a : Act ι η) : Decidable (Undisturbed s a) :=
  inferInstanceAs (Decidable (_ ∧ _))

/-- In a run with undisturbed handlers the listening socket is closed exactly once by the time
`Run` returns, and never again. -/
theorem listener_closed_once {listen_fd : ℕ} {acts : List (Act ι η)}
    (hrun : Runs.tryRun tryStep (start listen_fd) acts = some s)
    (hok : Runs.TryAllOk tryStep Undisturbed (start listen_fd) acts) :
    s.listenerCloses.length ≤ 1 ∧
      (s.main = .returned ∨ s.main = .joining ∨ s.main = .gone → s.listenerCloses.length = 1) := by
  have h : Orderly s := hok.invariant (fun s a s' h ha hstep => h.steps ha (steps_of_tryStep hstep))
    (orderly_start listen_fd) hrun
  constructor
  · by_cases hc : s.ToClose
    · rw [h.toClose hc]
      exact Nat.zero_le 1
    · exact (h.closed hc).le
  · intro hm
    apply h.closed
    intro hc
    have hdecided : s.main.Decided := Or.inr hm
    rcases hc with hpub | hclosing | ⟨-, hnot⟩ | ⟨x, fd, hx⟩
    · rcases hm with hm | hm | hm <;> simp [hpub] at hm
    · rcases hm with hm | hm | hm <;> simp [hclosing] at hm
    · exact hnot hdecided
    · exact (h.cleared x fd hx).2.2 hdecided

theorem listener_closed_once_oneConnection :
    ∃ s : Server Unit Unit, s.main = .gone ∧ s.listenerCloses.length = 1 := by
  obtain ⟨s, hs, hvalue⟩ := Option.map_eq_some_iff.mp run_oneConnection
  have hm := (Prod.mk.inj hvalue).1
  have hok : Runs.TryAllOk tryStep Undisturbed (start 3 : Server Unit Unit) oneConnection := by
    decide +kernel
  exact ⟨s, hm, (listener_closed_once hs hok).2 (Or.inr (Or.inr hm))⟩

/-- A handler that is between its look and its close while `Run` closes the socket itself: the
number has gone to a socket of `VectorClient` by then. -/
example : (Runs.tryRun tryStep (start 3) [.publish, .checkDone, .enter (), .accept 4,
    .dispatch (some ()), .enter (), .signal (), .look (), .checkDone, .checkListener,
    .closeListener, .connect () 3, .clear (), .close ()]).map
      (fun s : Server Unit Unit => s.listenerCloses) = some [some .listener, some .service] := by
  decide +kernel

end SemanticSearch.ServerLife
