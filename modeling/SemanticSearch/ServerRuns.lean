import SemanticSearch.ServerLife

namespace SemanticSearch.ServerLife

open ThreadPool

variable {ι η : Type} [DecidableEq ι] [DecidableEq η] [Fintype ι] {s s' : Server ι η}
  {a : Act ι η}

section Pool

variable {p p' : Pool Ctx ι} {b : ThreadPool.Act Ctx ι}

theorem step_of_tryStep (h : ThreadPool.tryStep p b = some p') : ThreadPool.step p b = p' := by
  simp only [ThreadPool.step, h, Option.getD_some]

/-- The record of a pool and its destructor are those of another one. -/
structure SameRecord (p p' : Pool Ctx ι) : Prop where
  dispatched : p'.dispatched = p.dispatched
  finished : p'.finished = p.finished
  destructor : p'.destructor = p.destructor

theorem sameRecord_wakeUp {i : ι} (h : ThreadPool.tryStep p (.wakeUp i) = some p') :
    SameRecord p p' := by
  simp only [ThreadPool.tryStep] at h
  split_ifs at h
  obtain rfl := Option.some.inj h
  exact ⟨rfl, rfl, rfl⟩

theorem sameRecord_enter {i : ι} (h : ThreadPool.tryStep p (.enter i) = some p') :
    SameRecord p p' := by
  have henter : SameRecord p (ThreadPool.enter p i) := by
    rcases hq : p.m_work_queue with _ | ⟨t, rest⟩
    · rw [enter_of_nil hq]
      exact ⟨rfl, rfl, rfl⟩
    · rw [enter_of_cons hq]
      exact ⟨rfl, rfl, rfl⟩
  simp only [ThreadPool.tryStep] at h
  split at h
  · exact Option.some.inj h ▸ henter
  · exact Option.some.inj h ▸ henter
  · cases h

theorem record_dispatch {t : Ctx} {woken : Option ι}
    (h : ThreadPool.tryStep p (.dispatch t woken) = some p') :
    p.destructor = .notBegun ∧ p'.dispatched = p.dispatched ++ [t] ∧ p'.finished = p.finished ∧
      p'.destructor = p.destructor := by
  simp only [ThreadPool.tryStep] at h
  split_ifs at h with hd
  rcases dispatch_eq_some h with ⟨i, -, rfl⟩ | ⟨-, rfl⟩
  · exact ⟨hd, rfl, rfl, rfl⟩
  · exact ⟨hd, rfl, rfl, rfl⟩

theorem record_finish {i : ι} {t : Ctx} (hi : p.worker i = .running t)
    (h : ThreadPool.tryStep p (.finish i) = some p') :
    p'.dispatched = p.dispatched ∧ p'.finished = p.finished ++ [t] ∧
      p'.destructor = p.destructor := by
  simp only [ThreadPool.tryStep, hi] at h
  obtain rfl := Option.some.inj h
  exact ⟨rfl, rfl, rfl⟩

theorem record_destroy (h : ThreadPool.tryStep p .destroy = some p') :
    p'.dispatched = p.dispatched ∧ p'.finished = p.finished ∧ p'.destructor = .joining := by
  simp only [ThreadPool.tryStep] at h
  split_ifs at h
  obtain rfl := Option.some.inj h
  exact ⟨rfl, rfl, rfl⟩

theorem record_join (h : ThreadPool.tryStep p .join = some p') :
    p'.dispatched = p.dispatched ∧ p'.finished = p.finished ∧ p'.destructor = .joined := by
  simp only [ThreadPool.tryStep] at h
  split_ifs at h
  obtain rfl := Option.some.inj h
  exact ⟨rfl, rfl, rfl⟩

omit [DecidableEq ι] in
theorem dispatched_of_running {i : ι} {t : Ctx} (h : Accounted p) (hi : p.worker i = .running t)
    (hnodup : p.dispatched.Nodup) : t ∈ p.dispatched ∧ t ∉ p.finished := by
  have hheld : t ∈ heldTasks p := by
    rw [heldTasks, Multiset.mem_sum]
    exact ⟨i, Finset.mem_univ i, by rw [hi]; exact Multiset.mem_singleton_self t⟩
  have htaken : (p.finished : Multiset Ctx) + heldTasks p = p.taken := h.held
  have hsub : p.taken.Nodup := by
    rw [← h.order] at hnodup
    exact hnodup.of_append_left
  constructor
  · rw [← h.order]
    apply List.mem_append_left
    have hmem : t ∈ (p.finished : Multiset Ctx) + heldTasks p := Multiset.mem_add.mpr (Or.inr hheld)
    rw [htaken] at hmem
    exact hmem
  · intro hfinished
    have hall : ((p.finished : Multiset Ctx) + heldTasks p).Nodup := by
      rw [htaken]
      exact hsub
    exact Multiset.disjoint_left.mp (Multiset.disjoint_of_nodup_add hall) hfinished hheld

end Pool

def Main.pending : Main → List Ctx
  | .accepted ctx => [ctx]
  | _ => []

/-- The destructor of the pool has come as far as the main thread. -/
def Main.destructor : Main → Destructor
  | .joining => .joining
  | .gone => .joined
  | _ => .notBegun

/-- The connection is accepted and not closed. -/
def Server.Alive (s : Server ι η) (ctx : Ctx) : Prop := ctx ∈ s.accepted ∧ ctx ∉ s.pool.finished

/-- The connections pass from `accept` through the pool to their end, and each of them has been
closed at its own descriptor. -/
structure Flow (s : Server ι η) : Prop where
  accounted : Accounted s.pool
  served : Served s.pool
  numbered : s.accepted.map Ctx.conn = List.range s.accepted.length
  dispatched : s.accepted = s.pool.dispatched ++ s.main.pending
  destructor : s.pool.destructor = s.main.destructor
  ended : s.ended = s.pool.finished.map fun ctx => (ctx.client_fd, some (.client ctx.conn))

/-- Descriptors of connections in use stand for them and are not the number of the listening
socket, and so it is with the sockets of `VectorClient` away from that number. -/
structure Owned (s : Server ι η) : Prop where
  client : ∀ ctx, s.Alive ctx → s.fds ctx.client_fd = some (.client ctx.conn)
  apart : ∀ ctx, s.Alive ctx → ctx.client_fd ≠ s.listen_fd
  service : ∀ i fd, s.socket i = some fd → fd ≠ s.listen_fd →
    s.fds fd = some .service ∧ ∀ j, s.socket j = some fd → j = i
  handler : ∀ h fd, s.handler h = .looked fd ∨ s.handler h = .cleared fd → fd = s.listen_fd
  published : ∀ fd, s.g_listen_fd = some fd → fd = s.listen_fd
  listening : ∀ conn, s.fds s.listen_fd ≠ some (.client conn)
  closes : ∀ f ∈ s.listenerCloses, ∀ conn, f ≠ some (.client conn)

omit [DecidableEq ι] [DecidableEq η] in
theorem Flow.nodup (h : Flow s) : s.accepted.Nodup := by
  apply List.Nodup.of_map Ctx.conn
  rw [h.numbered]
  exact List.nodup_range

omit [DecidableEq ι] [DecidableEq η] in
theorem Flow.conn_inj (h : Flow s) {ctx ctx' : Ctx} (hc : ctx ∈ s.accepted)
    (hc' : ctx' ∈ s.accepted) (heq : ctx.conn = ctx'.conn) : ctx = ctx' := by
  have hnodup : (s.accepted.map Ctx.conn).Nodup := by
    rw [h.numbered]
    exact List.nodup_range
  exact List.inj_on_of_nodup_map hnodup hc hc' heq

omit [DecidableEq ι] [DecidableEq η] in
theorem Flow.alive_of_running (h : Flow s) {i : ι} {ctx : Ctx}
    (hi : s.pool.worker i = .running ctx) : s.Alive ctx := by
  have hsub : s.pool.dispatched.Nodup := by
    have hnodup := h.nodup
    rw [h.dispatched] at hnodup
    exact hnodup.of_append_left
  obtain ⟨hmem, hnot⟩ := dispatched_of_running h.accounted hi hsub
  refine ⟨?_, hnot⟩
  rw [h.dispatched]
  exact List.mem_append_left _ hmem

omit [DecidableEq η] in
theorem Flow.quiet [Nonempty ι] (h : Flow s) {pool : Pool Ctx ι} {b : ThreadPool.Act Ctx ι}
    (hp : ThreadPool.tryStep s.pool b = some pool) (hr : SameRecord s.pool pool) :
    Flow { s with pool } where
  accounted := step_of_tryStep hp ▸ h.accounted.step b
  served := step_of_tryStep hp ▸ h.served.step b
  numbered := h.numbered
  dispatched := by
    change s.accepted = pool.dispatched ++ s.main.pending
    rw [hr.dispatched]
    exact h.dispatched
  destructor := hr.destructor.trans h.destructor
  ended := by
    change s.ended = pool.finished.map _
    rw [hr.finished]
    exact h.ended

omit [DecidableEq ι] [DecidableEq η] in
theorem Flow.move (h : Flow s) {s' : Server ι η} (hp : s'.main.pending = s.main.pending)
    (hd : s'.main.destructor = s.main.destructor) (hpool : s'.pool = s.pool)
    (hacc : s'.accepted = s.accepted) (hended : s'.ended = s.ended) : Flow s' := by
  constructor
  · exact hpool ▸ h.accounted
  · exact hpool ▸ h.served
  · exact hacc ▸ h.numbered
  · rw [hacc, hpool, hp]
    exact h.dispatched
  · rw [hpool, hd]
    exact h.destructor
  · rw [hended, hpool]
    exact h.ended

theorem Flow.steps [Nonempty ι] (h : Flow s) (ho : Owned s) (hstep : Steps s a s') : Flow s' := by
  cases hstep with
  | publish hm => exact h.move (by rw [hm]; rfl) (by rw [hm]; rfl) rfl rfl rfl
  | checkDone hm =>
    exact h.move (by rw [hm]; dsimp only; split_ifs <;> rfl)
      (by rw [hm]; dsimp only; split_ifs <;> rfl) rfl rfl rfl
  | accept fd hm hl hfd =>
    refine ⟨h.accounted, h.served, ?_, ?_, ?_, h.ended⟩
    · change (s.accepted ++ [_]).map Ctx.conn = List.range (s.accepted ++ [_]).length
      rw [List.map_append, h.numbered, List.length_append, List.length_singleton, List.range_succ]
      rfl
    · have hd : s.accepted = s.pool.dispatched ++ [] := by
        rw [h.dispatched, hm]
        rfl
      rw [List.append_nil] at hd
      change s.accepted ++ [_] = s.pool.dispatched ++ [_]
      rw [hd]
    · exact h.destructor.trans (by rw [hm]; rfl)
  | acceptFails again hm =>
    exact h.move (by rw [hm]; rfl) (by rw [hm]; rfl) rfl rfl rfl
  | checkFailed again hm =>
    exact h.move (by rw [hm]; dsimp only; split_ifs <;> rfl)
      (by rw [hm]; dsimp only; split_ifs <;> rfl) rfl rfl rfl
  | dispatch woken ctx pool hm hp =>
    obtain ⟨hd, hdispatched, hfinished, hdestructor⟩ := record_dispatch hp
    refine ⟨step_of_tryStep hp ▸ h.accounted.step _, step_of_tryStep hp ▸ h.served.step _,
      h.numbered, ?_, hdestructor.trans hd, ?_⟩
    · have hd := h.dispatched
      rw [hm] at hd
      change s.accepted = pool.dispatched ++ []
      rw [hdispatched, List.append_nil]
      exact hd
    · change s.ended = pool.finished.map _
      rw [hfinished]
      exact h.ended
  | checkListener hm =>
    exact h.move (by rw [hm]; dsimp only; split_ifs <;> rfl)
      (by rw [hm]; dsimp only; split_ifs <;> rfl) rfl rfl rfl
  | closeListener hm =>
    exact h.move (by rw [hm]; rfl) (by rw [hm]; rfl) rfl rfl rfl
  | destroy pool hm hp =>
    obtain ⟨hdispatched, hfinished, hdestructor⟩ := record_destroy hp
    have hd := h.dispatched
    rw [hm] at hd
    refine ⟨step_of_tryStep hp ▸ h.accounted.step _, step_of_tryStep hp ▸ h.served.step _,
      h.numbered, hd.trans (by rw [hdispatched]; rfl), hdestructor, ?_⟩
    change s.ended = pool.finished.map _
    rw [hfinished]
    exact h.ended
  | join pool hm hp =>
    obtain ⟨hdispatched, hfinished, hdestructor⟩ := record_join hp
    have hd := h.dispatched
    rw [hm] at hd
    refine ⟨step_of_tryStep hp ▸ h.accounted.step _, step_of_tryStep hp ▸ h.served.step _,
      h.numbered, hd.trans (by rw [hdispatched]; rfl), hdestructor, ?_⟩
    change s.ended = pool.finished.map _
    rw [hfinished]
    exact h.ended
  | wakeUp i pool hp => exact h.quiet hp (sameRecord_wakeUp hp)
  | enter i pool hp => exact h.quiet hp (sameRecord_enter hp)
  | connect i fd ctx hi hs hfd => exact h.move rfl rfl rfl rfl rfl
  | disconnect i fd hs => exact h.move rfl rfl rfl rfl rfl
  | finish i ctx pool hi hs hp =>
    obtain ⟨hdispatched, hfinished, hdestructor⟩ := record_finish hi hp
    have hclient := ho.client ctx (h.alive_of_running hi)
    refine ⟨step_of_tryStep hp ▸ h.accounted.step _, step_of_tryStep hp ▸ h.served.step _,
      h.numbered, h.dispatched.trans (by rw [hdispatched]; rfl), hdestructor.trans h.destructor, ?_⟩
    change s.ended ++ [_] = pool.finished.map _
    rw [hfinished, List.map_append, ← h.ended, hclient]
    rfl
  | signal x hh => exact h.move rfl rfl rfl rfl rfl
  | look x fd hh hg => exact h.move rfl rfl rfl rfl rfl
  | lookNone x hh hg => exact h.move rfl rfl rfl rfl rfl
  | clear x fd hh => exact h.move rfl rfl rfl rfl rfl
  | close x fd hh => exact h.move rfl rfl rfl rfl rfl

omit [Fintype ι] [DecidableEq ι] [DecidableEq η] in
/-- A step that leaves descriptors, connections and handlers alone. -/
theorem Owned.move (h : Owned s) {s' : Server ι η} (hfds : s'.fds = s.fds)
    (hlisten : s'.listen_fd = s.listen_fd) (hacc : s'.accepted = s.accepted)
    (hfinished : s'.pool.finished = s.pool.finished) (hsocket : s'.socket = s.socket)
    (hhandler : s'.handler = s.handler) (hglobal : s'.g_listen_fd = s.g_listen_fd)
    (hcloses : s'.listenerCloses = s.listenerCloses) : Owned s' := by
  constructor
  · rw [hfds]
    intro ctx ⟨hmem, hnot⟩
    exact h.client ctx ⟨hacc ▸ hmem, hfinished ▸ hnot⟩
  · rw [hlisten]
    intro ctx ⟨hmem, hnot⟩
    exact h.apart ctx ⟨hacc ▸ hmem, hfinished ▸ hnot⟩
  · rw [hsocket, hlisten, hfds]
    exact h.service
  · rw [hhandler, hlisten]
    exact h.handler
  · rw [hglobal, hlisten]
    exact h.published
  · rw [hfds, hlisten]
    exact h.listening
  · rw [hcloses]
    exact h.closes

omit [Fintype ι] [DecidableEq ι] [DecidableEq η] in
theorem Owned.accept (h : Owned s) {fd : ℕ} (hl : s.fds s.listen_fd = some .listener)
    (hfd : s.fds fd = none) (m : Main) (n : ℕ) :
    Owned { s.openFd fd (.client s.accepted.length) with
      main := m, accepted := s.accepted ++ [⟨s.accepted.length, fd⟩], late := n } := by
  have hne : s.listen_fd ≠ fd := by
    intro heq
    rw [heq, hfd] at hl
    cases hl
  -- a connection is the new one, or it has a descriptor that was in use before
  have hcases : ∀ ctx : Ctx, ctx ∈ s.accepted ++ [⟨s.accepted.length, fd⟩] →
      ctx ∉ s.pool.finished → ctx = ⟨s.accepted.length, fd⟩ ∨ s.Alive ctx ∧ ctx.client_fd ≠ fd := by
    intro ctx hmem hnot
    rcases List.mem_append.mp hmem with hmem | hmem
    · right
      refine ⟨⟨hmem, hnot⟩, fun heq => ?_⟩
      have hclient := h.client ctx ⟨hmem, hnot⟩
      rw [heq, hfd] at hclient
      cases hclient
    · exact Or.inl (List.mem_singleton.mp hmem)
  refine ⟨fun ctx hctx => ?_, fun ctx hctx => ?_, fun i x hx hxl => ?_, h.handler, h.published,
    fun conn => ?_, h.closes⟩
  · rcases hcases ctx hctx.1 hctx.2 with rfl | ⟨halive, hne'⟩
    · exact Function.update_self ..
    · exact (Function.update_of_ne hne' ..).trans (h.client ctx halive)
  · rcases hcases ctx hctx.1 hctx.2 with rfl | ⟨halive, -⟩
    · exact hne.symm
    · exact h.apart ctx halive
  · obtain ⟨hservice, huniq⟩ := h.service i x hx hxl
    have hxfd : x ≠ fd := by
      intro heq
      rw [heq, hfd] at hservice
      cases hservice
    exact ⟨(Function.update_of_ne hxfd ..).trans hservice, huniq⟩
  · change Function.update s.fds fd _ s.listen_fd ≠ _
    rw [Function.update_of_ne hne]
    exact h.listening conn

omit [Fintype ι] [DecidableEq η] in
theorem Owned.connect (h : Owned s) {i : ι} {fd : ℕ} (hs : s.socket i = none)
    (hfd : s.fds fd = none) :
    Owned { s.openFd fd .service with socket := Function.update s.socket i (some fd) } := by
  have hused : ∀ {x f}, s.fds x = some f → x ≠ fd := by
    intro x f hx heq
    rw [heq, hfd] at hx
    cases hx
  refine ⟨fun ctx hctx => ?_, h.apart, fun j x hx hxl => ?_, h.handler, h.published,
    fun conn => ?_, h.closes⟩
  · have hclient := h.client ctx hctx
    exact (Function.update_of_ne (hused hclient) ..).trans hclient
  · change Function.update s.socket i (some fd) j = some x at hx
    change Function.update s.fds fd _ x = _ ∧ ∀ k, Function.update s.socket i (some fd) k = _ → _
    by_cases hji : j = i
    · -- the new socket: no other one has its number
      subst hji
      rw [Function.update_self] at hx
      obtain rfl := Option.some.inj hx
      refine ⟨Function.update_self .., fun k hk => ?_⟩
      by_contra hkj
      rw [Function.update_of_ne hkj] at hk
      exact hused (h.service k fd hk hxl).1 rfl
    · rw [Function.update_of_ne hji] at hx
      obtain ⟨hservice, huniq⟩ := h.service j x hx hxl
      refine ⟨(Function.update_of_ne (hused hservice) ..).trans hservice, fun k hk => ?_⟩
      by_cases hki : k = i
      · subst hki
        rw [Function.update_self] at hk
        exact absurd (Option.some.inj hk).symm (hused hservice)
      · rw [Function.update_of_ne hki] at hk
        exact huniq k hk
  · change Function.update s.fds fd _ s.listen_fd ≠ _
    by_cases hl : s.listen_fd = fd
    · rw [hl, Function.update_self]
      simp
    · rw [Function.update_of_ne hl]
      exact h.listening conn

omit [Fintype ι] [DecidableEq ι] [DecidableEq η] in
theorem Owned.closeFd (h : Owned s) {fd : ℕ} (hclient : ∀ ctx, s.Alive ctx → ctx.client_fd ≠ fd)
    (hservice : ∀ i x, s.socket i = some x → x ≠ s.listen_fd → x ≠ fd) : Owned (s.closeFd fd) := by
  refine ⟨fun ctx hctx => ?_, h.apart, fun i x hx hxl => ?_, h.handler, h.published,
    fun conn => ?_, h.closes⟩
  · exact (Function.update_of_ne (hclient ctx hctx) ..).trans (h.client ctx hctx)
  · obtain ⟨hs, huniq⟩ := h.service i x hx hxl
    exact ⟨(Function.update_of_ne (hservice i x hx hxl) ..).trans hs, huniq⟩
  · change Function.update s.fds fd none s.listen_fd ≠ _
    by_cases hl : s.listen_fd = fd
    · rw [hl, Function.update_self]
      simp
    · rw [Function.update_of_ne hl]
      exact h.listening conn

omit [Fintype ι] [DecidableEq η] in
theorem Owned.dropSocket (h : Owned s) (i : ι) :
    Owned { s with socket := Function.update s.socket i none } := by
  have hold : ∀ {j x}, Function.update s.socket i none j = some x → s.socket j = some x := by
    intro j x hx
    by_cases hji : j = i
    · subst hji
      rw [Function.update_self] at hx
      cases hx
    · rwa [Function.update_of_ne hji] at hx
  refine ⟨h.client, h.apart, fun j x hx hxl => ?_, h.handler, h.published, h.listening, h.closes⟩
  obtain ⟨hservice, huniq⟩ := h.service j x (hold hx) hxl
  exact ⟨hservice, fun k hk => huniq k (hold hk)⟩

omit [Fintype ι] [DecidableEq η] in
theorem Owned.disconnect (h : Owned s) {i : ι} {fd : ℕ} (hs : s.socket i = some fd) :
    Owned { s.closeFd fd with socket := Function.update s.socket i none } := by
  apply Owned.closeFd (h.dropSocket i)
  · intro ctx hctx heq
    by_cases hl : fd = s.listen_fd
    · exact h.apart ctx hctx (heq.trans hl)
    · have hclient := h.client ctx hctx
      rw [heq, (h.service i fd hs hl).1] at hclient
      cases hclient
  · intro j x hx hxl heq
    subst heq
    change Function.update s.socket i none j = some x at hx
    by_cases hji : j = i
    · subst hji
      rw [Function.update_self] at hx
      cases hx
    · rw [Function.update_of_ne hji] at hx
      exact hji ((h.service i x hs hxl).2 j hx)

omit [Fintype ι] [DecidableEq ι] [DecidableEq η] in
theorem Owned.closeListening (h : Owned s) : Owned (s.closeListening s.listen_fd) := by
  have hclosed := h.closeFd h.apart fun i x _ hxl => hxl
  refine ⟨hclosed.client, hclosed.apart, hclosed.service, hclosed.handler, hclosed.published,
    hclosed.listening, fun f hf => ?_⟩
  rcases List.mem_append.mp hf with hf | hf
  · exact h.closes f hf
  · rw [List.mem_singleton.mp hf]
    exact h.listening

omit [DecidableEq ι] [DecidableEq η] in
theorem Owned.finish (h : Owned s) (hf : Flow s) {i : ι} {ctx : Ctx} {pool : Pool Ctx ι}
    (hi : s.pool.worker i = .running ctx) (hfinished : pool.finished = s.pool.finished ++ [ctx]) :
    Owned { s.closeFd ctx.client_fd with
      ended := s.ended ++ [(ctx.client_fd, s.fds ctx.client_fd)], pool } := by
  have halive := hf.alive_of_running hi
  have hclient := h.client ctx halive
  -- whoever is still alive was so before and is another connection
  have hrest : ∀ ctx' : Ctx, ctx' ∈ s.accepted → ctx' ∉ pool.finished →
      s.Alive ctx' ∧ ctx'.client_fd ≠ ctx.client_fd := by
    intro ctx' hmem hnot
    rw [hfinished, List.mem_append, not_or, List.mem_singleton] at hnot
    refine ⟨⟨hmem, hnot.1⟩, fun heq => hnot.2 ?_⟩
    have hclient' := h.client ctx' ⟨hmem, hnot.1⟩
    rw [heq, hclient] at hclient'
    exact hf.conn_inj hmem halive.1 (File.client.inj (Option.some.inj hclient')).symm
  have hfewer : Owned { s with pool } := by
    refine ⟨fun ctx' hctx' => ?_, fun ctx' hctx' => ?_, h.service, h.handler, h.published,
      h.listening, h.closes⟩
    · exact h.client ctx' (hrest ctx' hctx'.1 hctx'.2).1
    · exact h.apart ctx' (hrest ctx' hctx'.1 hctx'.2).1
  have hother : ∀ j x, s.socket j = some x → x ≠ s.listen_fd → x ≠ ctx.client_fd := by
    intro j x hx hxl heq
    have hservice := (h.service j x hx hxl).1
    rw [heq, hclient] at hservice
    cases hservice
  have hclosed := hfewer.closeFd (fun ctx' hctx' => (hrest ctx' hctx'.1 hctx'.2).2) hother
  exact hclosed.move rfl rfl rfl rfl rfl rfl rfl rfl

omit [Fintype ι] [DecidableEq ι] in
theorem Owned.setHandler (h : Owned s) (x : η) {y : Handler}
    (hy : ∀ fd, y = .looked fd ∨ y = .cleared fd → fd = s.listen_fd) :
    Owned (s.setHandler x y) := by
  refine ⟨h.client, h.apart, h.service, fun z fd hz => ?_, h.published, h.listening, h.closes⟩
  change Function.update s.handler x y z = _ ∨ Function.update s.handler x y z = _ at hz
  by_cases hzx : z = x
  · subst hzx
    rw [Function.update_self] at hz
    exact hy fd hz
  · rw [Function.update_of_ne hzx] at hz
    exact h.handler z fd hz

theorem Owned.steps (h : Owned s) (hf : Flow s) (hstep : Steps s a s') : Owned s' := by
  cases hstep with
  | publish hm =>
    exact ⟨h.client, h.apart, h.service, h.handler, fun fd hfd => (Option.some.inj hfd).symm,
      h.listening, h.closes⟩
  | checkDone hm => exact h.move rfl rfl rfl rfl rfl rfl rfl rfl
  | accept fd hm hl hfd => exact h.accept hl hfd _ _
  | acceptFails again hm => exact h.move rfl rfl rfl rfl rfl rfl rfl rfl
  | checkFailed again hm => exact h.move rfl rfl rfl rfl rfl rfl rfl rfl
  | dispatch woken ctx pool hm hp =>
    exact h.move rfl rfl rfl (record_dispatch hp).2.2.1 rfl rfl rfl rfl
  | checkListener hm => exact h.move rfl rfl rfl rfl rfl rfl rfl rfl
  | closeListener hm => exact h.closeListening.move rfl rfl rfl rfl rfl rfl rfl rfl
  | destroy pool hm hp => exact h.move rfl rfl rfl (record_destroy hp).2.1 rfl rfl rfl rfl
  | join pool hm hp => exact h.move rfl rfl rfl (record_join hp).2.1 rfl rfl rfl rfl
  | wakeUp i pool hp => exact h.move rfl rfl rfl (sameRecord_wakeUp hp).finished rfl rfl rfl rfl
  | enter i pool hp => exact h.move rfl rfl rfl (sameRecord_enter hp).finished rfl rfl rfl rfl
  | connect i fd ctx hi hs hfd => exact h.connect hs hfd
  | disconnect i fd hs => exact h.disconnect hs
  | finish i ctx pool hi hs hp => exact h.finish hf hi (record_finish hi hp).2.1
  | signal x hh =>
    exact (h.setHandler (y := .marked) x (by simp)).move rfl rfl rfl rfl rfl rfl rfl rfl
  | look x fd hh hg =>
    apply h.setHandler x
    intro fd' hfd'
    obtain rfl : fd = fd' := by simpa using hfd'
    exact h.published fd hg
  | lookNone x hh hg => exact h.setHandler x (by simp)
  | clear x fd hh =>
    have hfd : fd = s.listen_fd := h.handler x fd (Or.inl hh)
    have hset := h.setHandler x (y := .cleared fd) (by simp [hfd])
    exact ⟨hset.client, hset.apart, hset.service, hset.handler, fun fd hfd => (by cases hfd),
      hset.listening, hset.closes⟩
  | close x fd hh =>
    obtain rfl : fd = s.listen_fd := h.handler x fd (Or.inr hh)
    exact (h.setHandler x (y := .idle) (by simp)).closeListening

/-- Once `g_done` is set, the main thread takes at most the one connection for which it already
is in `accept`. -/
structure Stopping (s : Server ι η) : Prop where
  before : s.g_done = false → s.late = 0
  waiting : s.main = .accepting → s.late = 0
  le : s.late ≤ 1

omit [Fintype ι] [DecidableEq ι] [DecidableEq η] in
theorem Stopping.move (h : Stopping s) {s' : Server ι η} (hm : s'.main = s.main ∨ s'.main ≠ .accepting)
    (hd : s'.g_done = false → s.g_done = false) (hl : s'.late = s.late) : Stopping s' := by
  constructor
  · intro hdone
    rw [hl]
    exact h.before (hd hdone)
  · intro haccepting
    rw [hl]
    cases hm with
    | inl hm => exact h.waiting (hm ▸ haccepting)
    | inr hm => exact absurd haccepting hm
  · rw [hl]
    exact h.le

theorem Stopping.steps (h : Stopping s) (hstep : Steps s a s') : Stopping s' := by
  cases hstep with
  | publish hm => exact h.move (Or.inr (by simp)) id rfl
  | checkDone hm =>
    rcases hd : s.g_done with _ | _
    · -- the loop goes on only if the flag is not set
      exact ⟨fun _ => h.before hd, fun _ => h.before hd, h.le⟩
    · exact h.move (Or.inr (by simp)) (fun hdone => by cases hdone) rfl
  | accept fd hm hl hfd =>
    have hnone := h.waiting hm
    refine ⟨fun hd => ?_, fun haccepting => (by cases haccepting), ?_⟩
    · change s.g_done = false at hd
      simp only [hnone, hd]
      rfl
    · simp only [hnone, zero_add]
      split_ifs <;> omega
  | acceptFails again hm => exact h.move (Or.inr (by simp)) id rfl
  | checkFailed again hm => exact h.move (Or.inr (by dsimp only; split_ifs <;> simp)) id rfl
  | dispatch woken ctx pool hm hp => exact h.move (Or.inr (by simp)) id rfl
  | checkListener hm => exact h.move (Or.inr (by dsimp only; split_ifs <;> simp)) id rfl
  | closeListener hm => exact h.move (Or.inr (by simp)) id rfl
  | destroy pool hm hp => exact h.move (Or.inr (by simp)) id rfl
  | join pool hm hp => exact h.move (Or.inr (by simp)) id rfl
  | wakeUp i pool hp => exact h.move (Or.inl rfl) id rfl
  | enter i pool hp => exact h.move (Or.inl rfl) id rfl
  | connect i fd ctx hi hs hfd => exact h.move (Or.inl rfl) id rfl
  | disconnect i fd hs => exact h.move (Or.inl rfl) id rfl
  | finish i ctx pool hi hs hp => exact h.move (Or.inl rfl) id rfl
  | signal x hh => exact h.move (Or.inl rfl) (fun hdone => by cases hdone) rfl
  | look x fd hh hg => exact h.move (Or.inl rfl) id rfl
  | lookNone x hh hg => exact h.move (Or.inl rfl) id rfl
  | clear x fd hh => exact h.move (Or.inl rfl) id rfl
  | close x fd hh => exact h.move (Or.inl rfl) id rfl

def start (listen_fd : ℕ) : Server ι η := { listen_fd }

structure Sound (s : Server ι η) : Prop where
  flow : Flow s
  owned : Owned s
  stopping : Stopping s

omit [DecidableEq ι] [DecidableEq η] in
theorem sound_start (listen_fd : ℕ) : Sound (start listen_fd : Server ι η) where
  flow := ⟨accounted_start, served_start, rfl, rfl, rfl, rfl⟩
  owned := by
    refine ⟨fun ctx hctx => ?_, fun ctx hctx => ?_, fun i fd hi => ?_, fun h fd hh => ?_,
      fun fd hfd => ?_, fun conn => ?_, fun f hf => ?_⟩
    · exact absurd hctx.1 List.not_mem_nil
    · exact absurd hctx.1 List.not_mem_nil
    · cases hi
    · cases hh with
      | inl hh => cases hh
      | inr hh => cases hh
    · cases hfd
    · simp [start]
    · exact absurd hf List.not_mem_nil
  stopping := ⟨fun _ => rfl, fun _ => rfl, Nat.zero_le 1⟩

theorem Sound.step [Nonempty ι] (h : Sound s) (ha : tryStep s a = some s') : Sound s' := by
  have hstep := steps_of_tryStep ha
  exact ⟨h.flow.steps h.owned hstep, h.owned.steps h.flow hstep, h.stopping.steps hstep⟩

theorem sound_run [Nonempty ι] {listen_fd : ℕ} {acts : List (Act ι η)}
    (hrun : Runs.tryRun tryStep (start listen_fd) acts = some s) : Sound s :=
  Runs.tryRun_invariant (fun _ _ _ h ha => h.step ha) (sound_start listen_fd) hrun

omit [DecidableEq η] [DecidableEq ι] in
theorem Flow.nodup_finished (h : Flow s) : (s.pool.finished.map Ctx.conn).Nodup := by
  have hle : (s.pool.finished : Multiset Ctx) ≤ s.pool.taken := by
    rw [← h.accounted.held]
    exact Multiset.le_add_right _ _
  have hsub : s.pool.finished.Subperm s.accepted := by
    rw [h.dispatched, ← h.accounted.order, List.append_assoc]
    exact (Multiset.coe_le.mp hle).trans (List.sublist_append_left ..).subperm
  have hnodup : s.pool.finished.Nodup :=
    Multiset.coe_nodup.mp (Multiset.nodup_of_le (Multiset.coe_le.mpr hsub) h.nodup)
  apply hnodup.map_on
  intro ctx hctx ctx' hctx' heq
  exact h.conn_inj (hsub.subset hctx) (hsub.subset hctx') heq

omit [DecidableEq η] [DecidableEq ι] in
theorem Flow.finished_of_gone (h : Flow s) (hm : s.main = .gone) :
    s.pool.finished.Perm s.accepted := by
  have hall := h.served.joined (h.destructor.trans (by rw [hm]; rfl))
  have hempty : s.pool.m_work_queue = [] := by
    by_contra hne
    obtain ⟨i, hi⟩ := h.served.active hne
    simp [Worker.isActive, hall i] at hi
  have hheld := h.accounted.held
  have horder := h.accounted.order
  rw [hempty, List.append_nil] at horder
  rw [heldTasks_of_isExited hall, add_zero, horder] at hheld
  have hdispatched := h.dispatched
  rw [hm, Main.pending, List.append_nil] at hdispatched
  · rw [hdispatched]
    exact Multiset.coe_eq_coe.mp hheld
  · intro ctx hctx
    cases hctx

omit [DecidableEq η] [DecidableEq ι] in
theorem Flow.main_ne_gone (h : Flow s) {i : ι} {ctx : Ctx} (hi : s.pool.worker i = .running ctx) :
    s.main ≠ .gone := by
  intro hm
  have hexited := h.served.joined (h.destructor.trans (by rw [hm]; rfl)) i
  rw [hi] at hexited
  cases hexited

/-- In every interleaving of the main thread, the workers and the calls of the signal handler:
connections are taken up in the order of `accept`; the task of a connection runs while the members
of the server exist and its descriptor is its own; at its end it closes that one, and no connection
is closed twice; when `~HttpServer` is past the pool all are closed; at most one is accepted with
`g_done` set; and the closing of the listening socket, which may come twice, never meets one. -/
theorem connections_closed_once [Nonempty ι] {listen_fd : ℕ} {acts : List (Act ι η)}
    (hrun : Runs.tryRun tryStep (start listen_fd) acts = some s) :
    s.pool.taken <+: s.accepted ∧
    (∀ i ctx, s.pool.worker i = .running ctx →
      s.main ≠ .gone ∧ s.fds ctx.client_fd = some (.client ctx.conn)) ∧
    s.ended = s.pool.finished.map (fun ctx => (ctx.client_fd, some (.client ctx.conn))) ∧
    (s.pool.finished.map Ctx.conn).Nodup ∧
    (s.main = .gone → s.pool.finished.Perm s.accepted) ∧
    s.late ≤ 1 ∧
    ∀ f ∈ s.listenerCloses, ∀ conn, f ≠ some (.client conn) := by
  obtain ⟨hflow, howned, hstopping⟩ := sound_run hrun
  refine ⟨?_, fun i ctx hi => ⟨hflow.main_ne_gone hi, ?_⟩, hflow.ended, hflow.nodup_finished,
    hflow.finished_of_gone, hstopping.le, howned.closes⟩
  · rw [hflow.dispatched, ← hflow.accounted.order, List.append_assoc]
    exact List.prefix_append ..
  · exact howned.client ctx (hflow.alive_of_running hi)

/-- One connection, whose task also talks to the embed service, and then a SIGINT. -/
def oneConnection : List (Act Unit Unit) :=
  [.publish, .checkDone, .enter (), .accept 4, .dispatch (some ()), .checkDone, .enter (),
    .connect () 5, .signal (), .look (), .disconnect (), .clear (), .close (), .acceptFails false,
    .checkFailed, .checkListener, .destroy, .finish (), .enter (), .join]

theorem run_oneConnection :
    (Runs.tryRun tryStep (start 3) oneConnection).map
      (fun s : Server Unit Unit => (s.main, s.accepted)) = some (.gone, [⟨0, 4⟩]) := by decide +kernel

theorem connections_closed_once_oneConnection :
    ∃ s : Server Unit Unit, s.accepted = [⟨0, 4⟩] ∧ s.pool.finished.Perm s.accepted := by
  obtain ⟨s, hs, hvalue⟩ := Option.map_eq_some_iff.mp run_oneConnection
  obtain ⟨hm, hacc⟩ := Prod.mk.inj hvalue
  exact ⟨s, hacc, (connections_closed_once hs).2.2.2.2.1 hm⟩

end SemanticSearch.ServerLife
