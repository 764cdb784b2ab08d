import SemanticSearch.PoolRuns

namespace SemanticSearch.ServerLife

open ThreadPool

/-- What a descriptor stands for: the listening socket, a connection, or a socket of
`VectorClient`. -/
inductive File
  | listener
  | client (conn : ℕ)
  | service
  deriving DecidableEq, Repr

/-- `ClientCtx`, with the number of the connection. -/
structure Ctx where
  conn : ℕ
  client_fd : ℕ
  deriving DecidableEq, Repr

/-- Where the main thread is: in front of `g_listen_fd = listen_fd`, at the head of the loop, in
`accept`, behind an `accept` that has failed (`again` for EINTR, EAGAIN and EWOULDBLOCK) or that
has not, in front of the last check of `g_listen_fd`, in front of `close`, back in `main`, in
`~ThreadPool`, and behind the destruction of the other members. -/
inductive Main
  | publishing
  | loopHead
  | accepting
  | failed (again : Bool)
  | accepted (ctx : Ctx)
  | leaving
  | closing
  | returned
  | joining
  | gone
  deriving DecidableEq, Repr

/-- Where a call of `SigintHandler` is: not made, behind `g_done = 1`, with `fd`, and behind
`g_listen_fd = -1`. -/
inductive Handler
  | idle
  | marked
  | looked (fd : ℕ)
  | cleared (fd : ℕ)
  deriving DecidableEq, Repr

/-- The process. `socket` is the descriptor that the task of a worker has from `Connect`. The last
four fields are a record of the run: the connections in the order of `accept` and how many of them
came with `g_done` set, and what `close` has met when the tasks closed their connections and when
the listening socket was to be closed. -/
structure Server (ι η : Type) where
  listen_fd : ℕ
  g_done : Bool := false
  g_listen_fd : Option ℕ := none
  main : Main := .publishing
  handler : η → Handler := fun _ => .idle
  pool : Pool Ctx ι := {}
  socket : ι → Option ℕ := fun _ => none
  fds : ℕ → Option File := fun fd => if fd = listen_fd then some .listener else none
  accepted : List Ctx := []
  late : ℕ := 0
  ended : List (ℕ × Option File) := []
  listenerCloses : List (Option File) := []

inductive Act (ι η : Type)
  | publish
  | checkDone
  | accept (fd : ℕ)
  | acceptFails (again : Bool)
  | checkFailed
  | dispatch (woken : Option ι)
  | checkListener
  | closeListener
  | destroy
  | join
  | wakeUp (i : ι)
  | enter (i : ι)
  | connect (i : ι) (fd : ℕ)
  | disconnect (i : ι)
  | finish (i : ι)
  | signal (h : η)
  | look (h : η)
  | clear (h : η)
  | close (h : η)
  deriving DecidableEq

variable {ι η : Type} [DecidableEq ι] [DecidableEq η]

def Server.closeFd (s : Server ι η) (fd : ℕ) : Server ι η :=
  { s with fds := Function.update s.fds fd none }

def Server.openFd (s : Server ι η) (fd : ℕ) (file : File) : Server ι η :=
  { s with fds := Function.update s.fds fd (some file) }

/-- `close(listen_fd)`, in `Run` or in the handler. -/
def Server.closeListening (s : Server ι η) (fd : ℕ) : Server ι η :=
  { s.closeFd fd with listenerCloses := s.listenerCloses ++ [s.fds fd] }

def Server.setHandler (s : Server ι η) (h : η) (x : Handler) : Server ι η :=
  { s with handler := Function.update s.handler h x }

variable [Fintype ι]

def Server.pooled (s : Server ι η) (a : ThreadPool.Act Ctx ι) : Option (Server ι η) :=
  (ThreadPool.tryStep s.pool a).map fun pool => { s with pool }

/-- A step of the main thread. `accept` succeeds on the listening socket only, with a descriptor
that is not in use. -/
def mainStep (s : Server ι η) : Act ι η → Option (Server ι η)
  | .publish =>
    if s.main = .publishing then some { s with g_listen_fd := some s.listen_fd, main := .loopHead }
    else none
  | .checkDone =>
    if s.main = .loopHead then some { s with main := if s.g_done then .leaving else .accepting }
    else none
  | .accept fd =>
    if s.main = .accepting ∧ s.fds s.listen_fd = some .listener ∧ s.fds fd = none then
      let ctx : Ctx := ⟨s.accepted.length, fd⟩
      some { s.openFd fd (.client ctx.conn) with
        main := .accepted ctx, accepted := s.accepted ++ [ctx],
        late := s.late + if s.g_done then 1 else 0 }
    else none
  | .acceptFails again =>
    if s.main = .accepting then some { s with main := .failed again } else none
  | .checkFailed =>
    match s.main with
    | .failed again =>
      some { s with main := if s.g_done = false ∧ again then .loopHead else .leaving }
    | _ => none
  | .dispatch woken =>
    match s.main with
    | .accepted ctx => { s with main := .loopHead }.pooled (.dispatch ctx woken)
    | _ => none
  | .checkListener =>
    if s.main = .leaving then
      some { s with main := if s.g_listen_fd.isSome then .closing else .returned }
    else none
  | .closeListener =>
    if s.main = .closing then some { s.closeListening s.listen_fd with main := .returned } else none
  | .destroy => if s.main = .returned then { s with main := .joining }.pooled .destroy else none
  | .join => if s.main = .joining then { s with main := .gone }.pooled .join else none
  | _ => none

/-- A step of a worker. The last part of `HandleClient` is one step: the descriptor of the
connection is closed and the task returns. -/
def workerStep (s : Server ι η) : Act ι η → Option (Server ι η)
  | .wakeUp i => s.pooled (.wakeUp i)
  | .enter i => s.pooled (.enter i)
  | .connect i fd =>
    match s.pool.worker i, s.socket i with
    | .running _, none =>
      if s.fds fd = none then
        some { s.openFd fd .service with socket := Function.update s.socket i (some fd) }
      else none
    | _, _ => none
  | .disconnect i =>
    match s.socket i with
    | some fd => some { s.closeFd fd with socket := Function.update s.socket i none }
    | none => none
  | .finish i =>
    match s.pool.worker i, s.socket i with
    | .running ctx, none =>
      { s.closeFd ctx.client_fd with
        ended := s.ended ++ [(ctx.client_fd, s.fds ctx.client_fd)] }.pooled (.finish i)
    | _, _ => none
  | _ => none

/-- A step of `SigintHandler`. -/
def handlerStep (s : Server ι η) : Act ι η → Option (Server ι η)
  | .signal h =>
    if s.handler h = .idle then some { s.setHandler h .marked with g_done := true } else none
  | .look h =>
    match s.handler h, s.g_listen_fd with
    | .marked, some fd => some (s.setHandler h (.looked fd))
    | .marked, none => some (s.setHandler h .idle)
    | _, _ => none
  | .clear h =>
    match s.handler h with
    | .looked fd => some { s.setHandler h (.cleared fd) with g_listen_fd := none }
    | _ => none
  | .close h =>
    match s.handler h with
    | .cleared fd => some ((s.setHandler h .idle).closeListening fd)
    | _ => none
  | _ => none

def tryStep (s : Server ι η) (a : Act ι η) : Option (Server ι η) :=
  (mainStep s a).or ((workerStep s a).or (handlerStep s a))

variable {s s' : Server ι η} {a : Act ι η}

/-- What a step needs and does, one case for each kind of step. -/
inductive Steps (s : Server ι η) : Act ι η → Server ι η → Prop
  | publish (hm : s.main = .publishing) :
    Steps s .publish { s with g_listen_fd := some s.listen_fd, main := .loopHead }
  | checkDone (hm : s.main = .loopHead) :
    Steps s .checkDone { s with main := if s.g_done then .leaving else .accepting }
  | accept (fd : ℕ) (hm : s.main = .accepting) (hl : s.fds s.listen_fd = some .listener)
    (hfd : s.fds fd = none) :
    Steps s (.accept fd) { s.openFd fd (.client s.accepted.length) with
      main := .accepted ⟨s.accepted.length, fd⟩, accepted := s.accepted ++ [⟨s.accepted.length, fd⟩],
      late := s.late + if s.g_done then 1 else 0 }
  | acceptFails (again : Bool) (hm : s.main = .accepting) :
    Steps s (.acceptFails again) { s with main := .failed again }
  | checkFailed (again : Bool) (hm : s.main = .failed again) :
    Steps s .checkFailed { s with
      main := if s.g_done = false ∧ again then .loopHead else .leaving }
  | dispatch (woken : Option ι) (ctx : Ctx) (pool : Pool Ctx ι) (hm : s.main = .accepted ctx)
    (hp : ThreadPool.tryStep s.pool (.dispatch ctx woken) = some pool) :
    Steps s (.dispatch woken) { s with main := .loopHead, pool }
  | checkListener (hm : s.main = .leaving) :
    Steps s .checkListener { s with
      main := if s.g_listen_fd.isSome then .closing else .returned }
  | closeListener (hm : s.main = .closing) :
    Steps s .closeListener { s.closeListening s.listen_fd with main := .returned }
  | destroy (pool : Pool Ctx ι) (hm : s.main = .returned)
    (hp : ThreadPool.tryStep s.pool .destroy = some pool) :
    Steps s .destroy { s with main := .joining, pool }
  | join (pool : Pool Ctx ι) (hm : s.main = .joining)
    (hp : ThreadPool.tryStep s.pool .join = some pool) :
    Steps s .join { s with main := .gone, pool }
  | wakeUp (i : ι) (pool : Pool Ctx ι) (hp : ThreadPool.tryStep s.pool (.wakeUp i) = some pool) :
    Steps s (.wakeUp i) { s with pool }
  | enter (i : ι) (pool : Pool Ctx ι) (hp : ThreadPool.tryStep s.pool (.enter i) = some pool) :
    Steps s (.enter i) { s with pool }
  | connect (i : ι) (fd : ℕ) (ctx : Ctx) (hi : s.pool.worker i = .running ctx)
    (hs : s.socket i = none) (hfd : s.fds fd = none) :
    Steps s (.connect i fd)
      { s.openFd fd .service with socket := Function.update s.socket i (some fd) }
  | disconnect (i : ι) (fd : ℕ) (hs : s.socket i = some fd) :
    Steps s (.disconnect i) { s.closeFd fd with socket := Function.update s.socket i none }
  | finish (i : ι) (ctx : Ctx) (pool : Pool Ctx ι) (hi : s.pool.worker i = .running ctx)
    (hs : s.socket i = none) (hp : ThreadPool.tryStep s.pool (.finish i) = some pool) :
    Steps s (.finish i) { s.closeFd ctx.client_fd with
      ended := s.ended ++ [(ctx.client_fd, s.fds ctx.client_fd)], pool }
  | signal (h : η) (hh : s.handler h = .idle) :
    Steps s (.signal h) { s.setHandler h .marked with g_done := true }
  | look (h : η) (fd : ℕ) (hh : s.handler h = .marked) (hg : s.g_listen_fd = some fd) :
    Steps s (.look h) (s.setHandler h (.looked fd))
  | lookNone (h : η) (hh : s.handler h = .marked) (hg : s.g_listen_fd = none) :
    Steps s (.look h) (s.setHandler h .idle)
  | clear (h : η) (fd : ℕ) (hh : s.handler h = .looked fd) :
    Steps s (.clear h) { s.setHandler h (.cleared fd) with g_listen_fd := none }
  | close (h : η) (fd : ℕ) (hh : s.handler h = .cleared fd) :
    Steps s (.close h) ((s.setHandler h .idle).closeListening fd)

theorem steps_of_mainStep (h : mainStep s a = some s') : Steps s a s' := by
  cases a with
  | publish =>
    obtain ⟨hm, h⟩ := Option.ite_none_right_eq_some.mp h
    obtain rfl := Option.some.inj h
    exact .publish hm
  | checkDone =>
    obtain ⟨hm, h⟩ := Option.ite_none_right_eq_some.mp h
    obtain rfl := Option.some.inj h
    exact .checkDone hm
  | accept fd =>
    obtain ⟨hm, h⟩ := Option.ite_none_right_eq_some.mp h
    obtain rfl := Option.some.inj h
    exact .accept fd hm.1 hm.2.1 hm.2.2
  | acceptFails again =>
    obtain ⟨hm, h⟩ := Option.ite_none_right_eq_some.mp h
    obtain rfl := Option.some.inj h
    exact .acceptFails again hm
  | checkFailed =>
    simp only [mainStep] at h
    split at h
    · next again hm =>
      obtain rfl := Option.some.inj h
      exact .checkFailed again hm
    · cases h
  | dispatch woken =>
    simp only [mainStep] at h
    split at h
    · next ctx hm =>
      obtain ⟨pool, hp, rfl⟩ := Option.map_eq_some_iff.mp h
      exact .dispatch woken ctx pool hm hp
    · cases h
  | checkListener =>
    obtain ⟨hm, h⟩ := Option.ite_none_right_eq_some.mp h
    obtain rfl := Option.some.inj h
    exact .checkListener hm
  | closeListener =>
    obtain ⟨hm, h⟩ := Option.ite_none_right_eq_some.mp h
    obtain rfl := Option.some.inj h
    exact .closeListener hm
  | destroy =>
    obtain ⟨hm, h⟩ := Option.ite_none_right_eq_some.mp h
    obtain ⟨pool, hp, rfl⟩ := Option.map_eq_some_iff.mp h
    exact .destroy pool hm hp
  | join =>
    obtain ⟨hm, h⟩ := Option.ite_none_right_eq_some.mp h
    obtain ⟨pool, hp, rfl⟩ := Option.map_eq_some_iff.mp h
    exact .join pool hm hp
  | _ => cases h

theorem steps_of_workerStep (h : workerStep s a = some s') : Steps s a s' := by
  cases a with
  | wakeUp i =>
    obtain ⟨pool, hp, rfl⟩ := Option.map_eq_some_iff.mp h
    exact .wakeUp i pool hp
  | enter i =>
    obtain ⟨pool, hp, rfl⟩ := Option.map_eq_some_iff.mp h
    exact .enter i pool hp
  | connect i fd =>
    simp only [workerStep] at h
    split at h
    · next ctx hi hs =>
      split_ifs at h with hfd
      obtain rfl := Option.some.inj h
      exact .connect i fd ctx hi hs hfd
    · cases h
  | disconnect i =>
    simp only [workerStep] at h
    split at h
    · next fd hs =>
      obtain rfl := Option.some.inj h
      exact .disconnect i fd hs
    · cases h
  | finish i =>
    simp only [workerStep] at h
    split at h
    · next ctx hi hs =>
      obtain ⟨pool, hp, rfl⟩ := Option.map_eq_some_iff.mp h
      exact .finish i ctx pool hi hs hp
    · cases h
  | _ => cases h

theorem steps_of_handlerStep (h : handlerStep s a = some s') : Steps s a s' := by
  cases a with
  | signal x =>
    simp only [handlerStep] at h
    split_ifs at h with hh
    obtain rfl := Option.some.inj h
    exact .signal x hh
  | look x =>
    simp only [handlerStep] at h
    split at h
    · next fd hh hg =>
      obtain rfl := Option.some.inj h
      exact .look x fd hh hg
    · next hh hg =>
      obtain rfl := Option.some.inj h
      exact .lookNone x hh hg
    · cases h
  | clear x =>
    simp only [handlerStep] at h
    split at h
    · next fd hh =>
      obtain rfl := Option.some.inj h
      exact .clear x fd hh
    · cases h
  | close x =>
    simp only [handlerStep] at h
    split at h
    · next fd hh =>
      obtain rfl := Option.some.inj h
      exact .close x fd hh
    · cases h
  | _ => cases h

theorem steps_of_tryStep (h : tryStep s a = some s') : Steps s a s' := by
  rcases Option.or_eq_some_iff.mp h with h | ⟨-, h⟩
  · exact steps_of_mainStep h
  rcases Option.or_eq_some_iff.mp h with h | ⟨-, h⟩
  · exact steps_of_workerStep h
  · exact steps_of_handlerStep h

end SemanticSearch.ServerLife
