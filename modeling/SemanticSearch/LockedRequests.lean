import Mathlib.Data.Fintype.Sum
import SemanticSearch.IndexRace
import SemanticSearch.IndexSections

namespace SemanticSearch

open InvertedIndex SharedMutex

variable {V ι κ : Type}

/-- The requests of a program, the searches `κ`, and what the language leaves open in each. -/
structure LockedProgram (V ι κ : Type) extends Program V ι where
  int : IntType
  orders : κ → SearchOrders
  walk : ι → WordOrder

/-- `results` is a record of the finished searches, their terms and their lists. -/
structure LockedSys (V ι κ : Type) where
  fs : FileSystem
  vec : V
  phase : ι → Phase
  mtx : Guarded InvertedIndex (Option Bytes) IndexAnswer (ι ⊕ κ)
  terms : κ → List Bytes := fun _ => []
  results : List (κ × List Bytes × List (Bytes × ℤ)) := []

/-- The embed service works in the background; a request takes a step outside of the lock; it
takes the lock, opens and reads the file, releases the lock; a search does so with the shared lock;
a section looks at an entry or changes one. -/
inductive LockedAct (ι κ : Type)
  | background
  | request (i : ι)
  | lockIndex (i : ι)
  | readFile (i : ι)
  | unlockIndex (i : ι)
  | lockSearch (k : κ) (terms : List Bytes)
  | readIndex (k : κ)
  | unlockSearch (k : κ)
  | writeIndex
  deriving DecidableEq

namespace LockedProgram

/-- `AddFile` or `RemoveFile`. -/
def update (P : LockedProgram V ι κ) (i : ι) : Update InvertedIndex (Option Bytes) IndexAnswer :=
  if (P.job i).method = text "DELETE" then removeSection (P.walk i) (relOf (P.job i))
  else addSection (P.walk i) (relOf (P.job i))

variable [Fintype ι] [DecidableEq ι] [Fintype κ] [DecidableEq κ]

def tryStep (P : LockedProgram V ι κ) (s : LockedSys V ι κ) :
    LockedAct ι κ → Option (LockedSys V ι κ)
  | .background => some { s with vec := P.background s.fs s.vec }
  | .request i =>
    match s.phase i with
    | .changed _ => none
    | p =>
      let (p', w) := clientStep P.ctx (P.job i) ⟨s.fs, s.mtx.object, s.vec⟩ p
      some { s with fs := w.fs, vec := w.vec, phase := Function.update s.phase i p' }
  | .lockIndex i =>
    match s.phase i with
    | .changed _ => (SharedMutex.tryStep s.mtx (.lock (.inl i) (P.update i))).map fun mtx =>
      { s with mtx }
    | _ => none
  | .readFile i =>
    (SharedMutex.tryStep s.mtx (.look (.inl i) (s.fs.view.read (relOf (P.job i))))).map fun mtx =>
      { s with mtx }
  | .unlockIndex i =>
    match s.phase i with
    | .changed resp => (SharedMutex.tryStep s.mtx (.unlock (.inl i))).map fun mtx =>
      { s with mtx, phase := Function.update s.phase i (.indexed resp) }
    | _ => none
  | .lockSearch k terms =>
    (SharedMutex.tryStep s.mtx (.lockShared (.inr k)
      (searchSection P.int (P.orders k) terms))).map fun mtx =>
        { s with mtx, terms := Function.update s.terms k terms }
  | .readIndex k => (SharedMutex.tryStep s.mtx (.read (.inr k))).map fun mtx => { s with mtx }
  | .unlockSearch k =>
    match s.mtx.shared (.inr k) with
    | some (.done (.ranked l)) =>
      (SharedMutex.tryStep s.mtx (.unlockShared (.inr k))).map fun mtx =>
        { s with mtx, results := s.results ++ [(k, s.terms k, l)] }
    | _ => none
  | .writeIndex => (SharedMutex.tryStep s.mtx .write).map fun mtx => { s with mtx }

end LockedProgram

/-- A request is past its update of the index as soon as it has opened the file. -/
def shownPhase : Phase → Call InvertedIndex (Option Bytes) IndexAnswer → Phase
  | .changed resp, .answered _ => .indexed resp
  | p, _ => p

/-- The steps of the requests that a step around the lock stands for. -/
def LockedAct.project : LockedAct ι κ → List (Option ι)
  | .background => [none]
  | .request i => [some i]
  | .readFile i => [some i]
  | _ => []

variable [DecidableEq ι] [DecidableEq κ]

def LockedSys.abs (s : LockedSys V ι κ) : Sys V ι where
  world := ⟨s.fs, s.mtx.committed, s.vec⟩
  phase i := shownPhase (s.phase i) (s.mtx.call (.inl i))

/-- Only requests that have changed their file are in a section, each in its own. -/
structure LockedSys.Sound (P : LockedProgram V ι κ) (s : LockedSys V ι κ) : Prop where
  mtx : s.mtx.Sound
  changed : ∀ i, s.mtx.call (.inl i) ≠ .idle → ∃ resp, s.phase i = .changed resp
  invoked : ∀ i u, s.mtx.call (.inl i) = .invoked u → u = P.update i

def LockedSys.start (s : Sys V ι) : LockedSys V ι κ where
  fs := s.world.fs
  vec := s.world.vec
  phase := s.phase
  mtx := { object := s.world.index }

section Step

variable {P : LockedProgram V ι κ} {s : LockedSys V ι κ} {i : ι} {resp : Bytes}

theorem shownPhase_of_not_answered {p : Phase}
    {c : Call InvertedIndex (Option Bytes) IndexAnswer} (h : ∀ r, c ≠ .answered r) :
    shownPhase p c = p := by
  cases c with
  | idle => cases p <;> rfl
  | invoked u => cases p <;> rfl
  | answered r => exact absurd rfl (h r)

theorem shownPhase_of_not_changed {p : Phase}
    {c : Call InvertedIndex (Option Bytes) IndexAnswer} (h : ∀ resp, p ≠ .changed resp) :
    shownPhase p c = p := by
  cases p with
  | changed resp => exact absurd rfl (h resp)
  | waiting => rfl
  | checked exist => rfl
  | indexed resp => rfl
  | done resp => rfl

theorem LockedSys.sound_start (s : Sys V ι) :
    (LockedSys.start s : LockedSys V ι κ).Sound P where
  mtx := SharedMutex.sound_start _
  changed i h := absurd rfl h
  invoked i u h := by cases h

theorem LockedSys.abs_start (s : Sys V ι) : (LockedSys.start s : LockedSys V ι κ).abs = s := by
  have hphase : (LockedSys.start s : LockedSys V ι κ).abs.phase = s.phase := by
    funext i
    apply shownPhase_of_not_answered
    intro r h
    cases h
  exact congrArg (Sys.mk s.world) hphase

theorem LockedSys.Sound.phase_eq (h : s.Sound P) (hi : ∀ resp, s.phase i ≠ .changed resp) :
    s.mtx.call (.inl i) = .idle ∧ s.abs.phase i = s.phase i := by
  have hidle : s.mtx.call (.inl i) = .idle := by
    by_contra hc
    obtain ⟨resp, hresp⟩ := h.changed i hc
    exact hi resp hresp
  exact ⟨hidle, shownPhase_of_not_changed hi⟩

omit [DecidableEq ι] [DecidableEq κ] in
theorem LockedProgram.apply_update (P : LockedProgram V ι κ) (i : ι) (fs : FileSystem)
    (index : InvertedIndex) :
    (P.update i).apply (fs.view.read (relOf (P.job i))) index =
      (updateIndex (P.job i) fs index, .updated) := by
  unfold LockedProgram.update updateIndex
  split_ifs
  · exact apply_removeSection _ _ _ index
  · exact apply_addSection _ _ fs.view index

omit [DecidableEq ι] [DecidableEq κ] in
theorem clientStep_off_index (ctx : ClientCtx V) (r : Request) (fs : FileSystem) (v : V) {p : Phase}
    (hp : ∀ resp, p ≠ .changed resp) (index index' : InvertedIndex) :
    clientStep ctx r ⟨fs, index', v⟩ p = ((clientStep ctx r ⟨fs, index, v⟩ p).1,
      { (clientStep ctx r ⟨fs, index, v⟩ p).2 with index := index' }) := by
  cases p with
  | waiting => rfl
  | checked exist => rfl
  | changed resp => exact absurd rfl (hp resp)
  | indexed resp => rfl
  | done resp => rfl

/-- A step of a section that is not seen from outside. -/
theorem LockedSys.Sound.hidden (h : s.Sound P)
    {mtx : Guarded InvertedIndex (Option Bytes) IndexAnswer (ι ⊕ κ)} (hmtx : mtx.Sound)
    (hobject : mtx.committed = s.mtx.committed)
    (hcall : ∀ i, mtx.call (.inl i) = s.mtx.call (.inl i)) (terms : κ → List Bytes)
    (results : List (κ × List Bytes × List (Bytes × ℤ))) :
    ({ s with mtx, terms, results } : LockedSys V ι κ).Sound P ∧
      ({ s with mtx, terms, results } : LockedSys V ι κ).abs = s.abs := by
  refine ⟨⟨hmtx, fun i => ?_, fun i => ?_⟩, ?_⟩
  · rw [hcall i]
    exact h.changed i
  · rw [hcall i]
    exact h.invoked i
  · simp only [LockedSys.abs, hobject, hcall]

theorem LockedSys.Sound.request (h : s.Sound P) (hi : ∀ resp, s.phase i ≠ .changed resp) {p : Phase}
    {w : World V} (hstep : clientStep P.ctx (P.job i) ⟨s.fs, s.mtx.object, s.vec⟩ (s.phase i) =
      (p, w)) :
    ({ s with fs := w.fs, vec := w.vec, phase := Function.update s.phase i p } :
        LockedSys V ι κ).Sound P ∧
      ({ s with fs := w.fs, vec := w.vec, phase := Function.update s.phase i p } :
        LockedSys V ι κ).abs = P.step s.abs (some i) := by
  obtain ⟨hidle, hshown⟩ := h.phase_eq hi
  refine ⟨⟨h.mtx, fun j hj => ?_, h.invoked⟩, ?_⟩
  · have hji : j ≠ i := by
      intro hji
      exact hj (hji ▸ hidle)
    obtain ⟨resp, hresp⟩ := h.changed j hj
    exact ⟨resp, by simpa [hji] using hresp⟩
  · have hclient := clientStep_off_index P.ctx (P.job i) s.fs s.vec hi s.mtx.object s.mtx.committed
    rw [hstep] at hclient
    have hphase : (fun j => shownPhase (Function.update s.phase i p j) (s.mtx.call (.inl j))) =
        Function.update s.abs.phase i p := by
      funext j
      by_cases hji : j = i
      · subst hji
        rw [Function.update_self, Function.update_self, hidle]
        exact shownPhase_of_not_answered fun r hr => by cases hr
      · rw [Function.update_of_ne hji, Function.update_of_ne hji]
        rfl
    simp only [Program.step, hshown]
    rw [show s.abs.world = ⟨s.fs, s.mtx.committed, s.vec⟩ from rfl, hclient]
    exact congrArg (Sys.mk _) hphase

theorem calls_of_setCall {g g' : Guarded InvertedIndex (Option Bytes) IndexAnswer (ι ⊕ κ)}
    {x : ι ⊕ κ} {c : Call InvertedIndex (Option Bytes) IndexAnswer}
    (h : g'.call = Function.update g.call x c) (i : ι) :
    g'.call (.inl i) = if .inl i = x then c else g.call (.inl i) := by
  rw [h]
  exact Function.update_apply ..

variable [Fintype ι] [Fintype κ]
  {mtx : Guarded InvertedIndex (Option Bytes) IndexAnswer (ι ⊕ κ)}

theorem LockedSys.Sound.lockIndex (h : s.Sound P) (hi : s.phase i = .changed resp)
    (hstep : SharedMutex.tryStep s.mtx (.lock (.inl i) (P.update i)) = some mtx) :
    ({ s with mtx } : LockedSys V ι κ).Sound P ∧ ({ s with mtx } : LockedSys V ι κ).abs = s.abs := by
  obtain ⟨hmtx, habs⟩ := h.mtx.tryStep hstep
  obtain ⟨hidle, habs⟩ := Atomic.lock_iff.mp habs
  have hobject : mtx.committed = s.mtx.committed := (congrArg Atomic.object habs).symm
  have hcall := calls_of_setCall (congrArg Atomic.call habs).symm
  refine ⟨⟨hmtx, fun j hj => ?_, fun j u hu => ?_⟩, ?_⟩
  · by_cases hji : j = i
    · exact ⟨resp, hji ▸ hi⟩
    · rw [hcall j, if_neg (by simpa using hji)] at hj
      exact h.changed j hj
  · rw [hcall j] at hu
    split_ifs at hu with hji
    · obtain rfl := Sum.inl.inj hji
      exact (Call.invoked.inj hu).symm
    · exact h.invoked j u hu
  · have hphase : (fun j => shownPhase (s.phase j) (mtx.call (.inl j))) = s.abs.phase := by
      funext j
      rw [hcall j]
      by_cases hji : j = i
      · subst hji
        rw [if_pos rfl, shownPhase_of_not_answered fun r hr => by cases hr]
        exact (shownPhase_of_not_answered fun r hr => by
          rw [show s.mtx.call (.inl j) = .idle from hidle] at hr
          cases hr).symm
      · rw [if_neg (by simpa using hji)]
        rfl
    simp only [LockedSys.abs, hobject] at hphase ⊢
    rw [hphase]

theorem LockedSys.Sound.readFile (h : s.Sound P)
    (hstep : SharedMutex.tryStep s.mtx (.look (.inl i) (s.fs.view.read (relOf (P.job i)))) =
      some mtx) :
    ({ s with mtx } : LockedSys V ι κ).Sound P ∧
      ({ s with mtx } : LockedSys V ι κ).abs = P.step s.abs (some i) := by
  obtain ⟨hmtx, habs⟩ := h.mtx.tryStep hstep
  obtain ⟨u, hu, habs⟩ := Atomic.look_iff.mp habs
  have hcalled : s.mtx.call (.inl i) = .invoked u := hu
  obtain ⟨resp, hresp⟩ := h.changed i (by simp [hcalled])
  obtain rfl := h.invoked i u hcalled
  rw [P.apply_update] at habs
  have hobject : mtx.committed = updateIndex (P.job i) s.fs s.mtx.committed :=
    (congrArg Atomic.object habs).symm
  have hcall := calls_of_setCall (congrArg Atomic.call habs).symm
  refine ⟨⟨hmtx, fun j hj => ?_, fun j u hu => ?_⟩, ?_⟩
  · by_cases hji : j = i
    · exact ⟨resp, hji ▸ hresp⟩
    · rw [hcall j, if_neg (by simpa using hji)] at hj
      exact h.changed j hj
  · rw [hcall j] at hu
    split_ifs at hu with hji
    exact h.invoked j u hu
  · have hshown : s.abs.phase i = .changed resp := by
      change shownPhase (s.phase i) (s.mtx.call (.inl i)) = _
      rw [hcalled, hresp]
      rfl
    have hphase : (fun j => shownPhase (s.phase j) (mtx.call (.inl j))) =
        Function.update s.abs.phase i (.indexed resp) := by
      funext j
      rw [hcall j]
      by_cases hji : j = i
      · subst hji
        rw [if_pos rfl, Function.update_self, hresp]
        rfl
      · rw [if_neg (by simpa using hji), Function.update_of_ne hji]
        rfl
    simp only [Program.step, hshown, clientStep]
    rw [← hphase, show s.abs.world = ⟨s.fs, s.mtx.committed, s.vec⟩ from rfl, ← hobject]
    rfl

theorem LockedSys.Sound.unlockIndex (h : s.Sound P) (hi : s.phase i = .changed resp)
    (hstep : SharedMutex.tryStep s.mtx (.unlock (.inl i)) = some mtx) :
    ({ s with mtx, phase := Function.update s.phase i (.indexed resp) } :
        LockedSys V ι κ).Sound P ∧
      ({ s with mtx, phase := Function.update s.phase i (.indexed resp) } :
        LockedSys V ι κ).abs = s.abs := by
  obtain ⟨hmtx, habs⟩ := h.mtx.tryStep hstep
  obtain ⟨r, hr, habs⟩ := Atomic.unlock_iff.mp habs
  have hcalled : s.mtx.call (.inl i) = .answered r := hr
  have hobject : mtx.committed = s.mtx.committed := (congrArg Atomic.object habs).symm
  have hcall := calls_of_setCall (congrArg Atomic.call habs).symm
  refine ⟨⟨hmtx, fun j hj => ?_, fun j u hu => ?_⟩, ?_⟩
  · rw [hcall j] at hj
    split_ifs at hj with hji
    · exact absurd rfl hj
    · obtain ⟨resp', hresp'⟩ := h.changed j hj
      have hne : j ≠ i := by simpa using hji
      exact ⟨resp', by simpa [hne] using hresp'⟩
  · rw [hcall j] at hu
    split_ifs at hu with hji
    exact h.invoked j u hu
  · have hphase : (fun j => shownPhase (Function.update s.phase i (.indexed resp) j)
        (mtx.call (.inl j))) = s.abs.phase := by
      funext j
      rw [hcall j]
      by_cases hji : j = i
      · subst hji
        rw [if_pos rfl, Function.update_self, shownPhase_of_not_changed fun r hr => by cases hr]
        simp only [LockedSys.abs, hcalled, hi]
        rfl
      · rw [if_neg (by simpa using hji), Function.update_of_ne hji]
        rfl
    simp only [LockedSys.abs, hobject] at hphase ⊢
    rw [hphase]

theorem LockedSys.Sound.step {s' : LockedSys V ι κ} {a : LockedAct ι κ} (h : s.Sound P)
    (ha : P.tryStep s a = some s') :
    s'.Sound P ∧ s'.abs = Runs.run P.step s.abs a.project := by
  cases a with
  | background =>
    obtain rfl := Option.some.inj ha
    exact ⟨⟨h.mtx, h.changed, h.invoked⟩, rfl⟩
  | request i =>
    simp only [LockedProgram.tryStep] at ha
    split at ha
    · cases ha
    · next p hp =>
      obtain rfl := Option.some.inj ha
      exact h.request hp rfl
  | lockIndex i =>
    simp only [LockedProgram.tryStep] at ha
    split at ha
    · next resp hi =>
      obtain ⟨mtx, hmtx, rfl⟩ := Option.map_eq_some_iff.mp ha
      exact h.lockIndex hi hmtx
    · cases ha
  | readFile i =>
    obtain ⟨mtx, hmtx, rfl⟩ := Option.map_eq_some_iff.mp ha
    exact h.readFile hmtx
  | unlockIndex i =>
    simp only [LockedProgram.tryStep] at ha
    split at ha
    · next resp hi =>
      obtain ⟨mtx, hmtx, rfl⟩ := Option.map_eq_some_iff.mp ha
      exact h.unlockIndex hi hmtx
    · cases ha
  | lockSearch k terms =>
    obtain ⟨mtx, hmtx, rfl⟩ := Option.map_eq_some_iff.mp ha
    obtain ⟨hsound, habs⟩ := h.mtx.tryStep hmtx
    obtain ⟨-, habs⟩ := Atomic.lockShared_iff.mp habs
    apply h.hidden hsound (congrArg Atomic.object habs).symm _ _ s.results
    intro i
    rw [calls_of_setCall (congrArg Atomic.call habs).symm i, if_neg Sum.inl_ne_inr]
  | readIndex k =>
    obtain ⟨mtx, hmtx, rfl⟩ := Option.map_eq_some_iff.mp ha
    obtain ⟨hsound, habs⟩ := h.mtx.tryStep hmtx
    have habs : s.mtx.abs = mtx.abs := Option.some.inj habs
    exact h.hidden hsound (congrArg Atomic.object habs).symm
      (fun i => (congrFun (congrArg Atomic.call habs) (.inl i)).symm) s.terms s.results
  | unlockSearch k =>
    simp only [LockedProgram.tryStep] at ha
    split at ha
    · next l hl =>
      obtain ⟨mtx, hmtx, rfl⟩ := Option.map_eq_some_iff.mp ha
      obtain ⟨hsound, habs⟩ := h.mtx.tryStep hmtx
      obtain ⟨r, -, habs⟩ := Atomic.unlockShared_iff.mp habs
      apply h.hidden hsound (congrArg Atomic.object habs).symm _ s.terms
      intro i
      rw [calls_of_setCall (congrArg Atomic.call habs).symm i, if_neg Sum.inl_ne_inr]
    · cases ha
  | writeIndex =>
    obtain ⟨mtx, hmtx, rfl⟩ := Option.map_eq_some_iff.mp ha
    obtain ⟨hsound, habs⟩ := h.mtx.tryStep hmtx
    have habs : s.mtx.abs = mtx.abs := Option.some.inj habs
    exact h.hidden hsound (congrArg Atomic.object habs).symm
      (fun i => (congrFun (congrArg Atomic.call habs) (.inl i)).symm) s.terms s.results

theorem LockedSys.Sound.run (h : s.Sound P) {acts : List (LockedAct ι κ)} {s' : LockedSys V ι κ}
    (hrun : Runs.tryRun P.tryStep s acts = some s') :
    s'.Sound P ∧ s'.abs = Runs.run P.step s.abs (acts.flatMap LockedAct.project) :=
  Runs.tryRun_refines (fun _ _ _ hs ha => hs.step ha) h hrun

/-- Every run around the lock is a run of the requests in which an update of the index is one
step, taken when its thread opens the file. -/
theorem locked_refines {s₀ : Sys V ι} {acts : List (LockedAct ι κ)}
    (hrun : Runs.tryRun P.tryStep (LockedSys.start s₀) acts = some s) :
    s.Sound P ∧ s.abs = Runs.run P.step s₀ (acts.flatMap LockedAct.project) := by
  rw [← LockedSys.abs_start (κ := κ) s₀]
  exact (LockedSys.sound_start s₀).run hrun

/-- The search `k` is between its lock and its unlock, and `l` is what it will answer. -/
def LockedSys.Asked (s : LockedSys V ι κ) (k : κ) (terms : List Bytes) (l : List (Bytes × ℤ)) :
    Prop :=
  s.mtx.call (.inr k) = .answered (.ranked l) ∧ s.terms k = terms

variable {s' : LockedSys V ι κ} {k : κ} {terms : List Bytes} {l : List (Bytes × ℤ)}

theorem LockedSys.Sound.asked (h : s.Sound P) (ha : P.tryStep s (.lockSearch k terms) = some s') :
    s'.Asked k terms (searchAndRank P.int (P.orders k) s.mtx.committed terms) ∧
      s'.results = s.results := by
  obtain ⟨mtx, hmtx, rfl⟩ := Option.map_eq_some_iff.mp ha
  obtain ⟨-, habs⟩ := h.mtx.tryStep hmtx
  obtain ⟨-, habs⟩ := Atomic.lockShared_iff.mp habs
  rw [run_searchSection] at habs
  have hcall : mtx.call = Function.update s.mtx.call (.inr k) _ :=
    (congrArg Atomic.call habs).symm
  refine ⟨⟨?_, Function.update_self ..⟩, rfl⟩
  rw [hcall, Function.update_self]
  rfl

theorem LockedSys.Asked.step (hk : s.Asked k terms l) (h : s.Sound P) {a : LockedAct ι κ}
    (ha : P.tryStep s a = some s') (hne : a ≠ .unlockSearch k) : s'.Asked k terms l := by
  have hstays : ∀ {b mtx}, SharedMutex.tryStep s.mtx b = some mtx → b ≠ .unlockShared (.inr k) →
      b ≠ .unlock (.inr k) → mtx.call (.inr k) = .answered (.ranked l) := by
    intro b mtx hb hs hx
    exact Atomic.answered_stays (t := s.mtx.abs) hk.1 (h.mtx.tryStep hb).2 hs hx
  cases a with
  | background =>
    obtain rfl := Option.some.inj ha
    exact hk
  | request i =>
    simp only [LockedProgram.tryStep] at ha
    split at ha
    · cases ha
    · obtain rfl := Option.some.inj ha
      exact hk
  | lockIndex i =>
    simp only [LockedProgram.tryStep] at ha
    split at ha
    · obtain ⟨mtx, hmtx, rfl⟩ := Option.map_eq_some_iff.mp ha
      exact ⟨hstays hmtx (by simp) (by simp), hk.2⟩
    · cases ha
  | readFile i =>
    obtain ⟨mtx, hmtx, rfl⟩ := Option.map_eq_some_iff.mp ha
    exact ⟨hstays hmtx (by simp) (by simp), hk.2⟩
  | unlockIndex i =>
    simp only [LockedProgram.tryStep] at ha
    split at ha
    · obtain ⟨mtx, hmtx, rfl⟩ := Option.map_eq_some_iff.mp ha
      exact ⟨hstays hmtx (by simp) (by simp), hk.2⟩
    · cases ha
  | lockSearch k' terms' =>
    obtain ⟨mtx, hmtx, rfl⟩ := Option.map_eq_some_iff.mp ha
    -- a thread that is in a section cannot begin another one
    have hkk : k ≠ k' := by
      intro hkk
      subst hkk
      have hidle := (Atomic.lockShared_iff.mp (h.mtx.tryStep hmtx).2).1
      rw [show s.mtx.abs.call (.inr k) = _ from hk.1] at hidle
      cases hidle
    refine ⟨hstays hmtx (by simp) (by simp), ?_⟩
    exact (Function.update_of_ne hkk ..).trans hk.2
  | readIndex k' =>
    obtain ⟨mtx, hmtx, rfl⟩ := Option.map_eq_some_iff.mp ha
    exact ⟨hstays hmtx (by simp) (by simp), hk.2⟩
  | unlockSearch k' =>
    have hkk : k' ≠ k := fun hkk => hne (hkk ▸ rfl)
    simp only [LockedProgram.tryStep] at ha
    split at ha
    · obtain ⟨mtx, hmtx, rfl⟩ := Option.map_eq_some_iff.mp ha
      exact ⟨hstays hmtx (by simpa using hkk) (by simp), hk.2⟩
    · cases ha
  | writeIndex =>
    obtain ⟨mtx, hmtx, rfl⟩ := Option.map_eq_some_iff.mp ha
    exact ⟨hstays hmtx (by simp) (by simp), hk.2⟩

theorem LockedSys.Asked.run (hk : s.Asked k terms l) (h : s.Sound P) {acts : List (LockedAct ι κ)}
    (hrun : Runs.tryRun P.tryStep s acts = some s') (hne : .unlockSearch k ∉ acts) :
    s'.Sound P ∧ s'.Asked k terms l := by
  induction acts generalizing s with
  | nil =>
    obtain rfl := Option.some.inj hrun
    exact ⟨h, hk⟩
  | cons a acts ih =>
    obtain ⟨t, ha, hrest⟩ := Runs.tryRun_cons_iff.mp hrun
    have hhead : a ≠ .unlockSearch k := fun hhead => hne (hhead ▸ List.mem_cons_self)
    exact ih (hk.step h ha hhead) (h.step ha).1 hrest fun htail =>
      hne (List.mem_cons_of_mem a htail)

theorem LockedSys.Asked.unlock (hk : s.Asked k terms l)
    (ha : P.tryStep s (.unlockSearch k) = some s') :
    s'.results = s.results ++ [(k, terms, l)] := by
  simp only [LockedProgram.tryStep] at ha
  split at ha
  · next l' hl =>
    obtain ⟨mtx, -, rfl⟩ := Option.map_eq_some_iff.mp ha
    have hcall := (call_of_shared hl).symm.trans hk.1
    obtain rfl : l' = l := IndexAnswer.ranked.inj (Call.answered.inj hcall)
    rw [hk.2]
  · cases ha

/-- A search that has just got the lock will answer for the index as it is now. -/
theorem LockedSys.Sound.answers (h : s.Sound P) {mid : List (LockedAct ι κ)}
    (hrun : Runs.tryRun P.tryStep s (.lockSearch k terms :: (mid ++ [.unlockSearch k])) = some s')
    (hmid : .unlockSearch k ∉ mid) :
    s'.results.getLast? =
      some (k, terms, searchAndRank P.int (P.orders k) s.abs.world.index terms) := by
  obtain ⟨s₁, hlock, hrun⟩ := Runs.tryRun_cons_iff.mp hrun
  obtain ⟨s₂, hmid', hunlock⟩ := Runs.tryRun_concat_iff.mp hrun
  obtain ⟨hasked, -⟩ := h.asked hlock
  obtain ⟨-, hasked'⟩ := hasked.run (h.step hlock).1 hmid' hmid
  rw [hasked'.unlock hunlock, List.getLast?_concat]
  rfl

/-- A search among running requests and other searches answers what `SearchAndRank` gives on the
index as it is, in the run with undivided updates, when the search takes the lock. -/
theorem search_answers {s₀ : Sys V ι} {pre mid : List (LockedAct ι κ)}
    (hrun : Runs.tryRun P.tryStep (LockedSys.start s₀)
      (pre ++ .lockSearch k terms :: (mid ++ [.unlockSearch k])) = some s)
    (hmid : .unlockSearch k ∉ mid) :
    s.results.getLast? = some (k, terms, searchAndRank P.int (P.orders k)
      (Runs.run P.step s₀ (pre.flatMap LockedAct.project)).world.index terms) := by
  obtain ⟨s₁, hpre, hsearch⟩ := Runs.tryRun_append_iff.mp hrun
  obtain ⟨hsound, habs⟩ := (LockedSys.sound_start s₀).run hpre
  rw [LockedSys.abs_start] at habs
  rw [hsound.answers hsearch hmid, habs]

end Step

def putDeleteSearch : LockedProgram Unit Bool Unit where
  toProgram := putAndDelete
  int := .int32
  orders _ := .stable
  walk _ := .keys

def putSection : List (LockedAct Bool Unit) :=
  [.request false, .request false, .lockIndex false, .writeIndex, .writeIndex, .writeIndex,
    .readFile false, .writeIndex, .writeIndex, .writeIndex, .unlockIndex false]

/-- The DELETE checks and removes the file while the search is in its section. -/
def deleteMeanwhile : List (LockedAct Bool Unit) :=
  [.request true, .readIndex (), .request true, .readIndex ()]

theorem run_putSection : (Runs.tryRun putDeleteSearch.tryStep (LockedSys.start freshStart)
    (putSection ++ .lockSearch () [text "hat"] ::
      (deleteMeanwhile ++ [.unlockSearch ()]))).isSome := by decide +kernel

theorem locked_refines_beside_delete : ∃ s : LockedSys Unit Bool Unit,
    s.abs = Runs.run putDeleteSearch.step freshStart
      ((putSection ++ LockedAct.lockSearch () [text "hat"] ::
        (deleteMeanwhile ++ [LockedAct.unlockSearch ()])).flatMap LockedAct.project) := by
  obtain ⟨s, hs⟩ := Option.isSome_iff_exists.mp run_putSection
  exact ⟨s, (locked_refines hs).2⟩

theorem search_answers_beside_delete : ∃ s : LockedSys Unit Bool Unit,
    s.results.getLast? = some ((), [text "hat"], searchAndRank .int32 .stable
      (Runs.run putDeleteSearch.step freshStart
        (putSection.flatMap LockedAct.project)).world.index [text "hat"]) := by
  obtain ⟨s, hs⟩ := Option.isSome_iff_exists.mp run_putSection
  exact ⟨s, search_answers hs (by decide)⟩

end SemanticSearch
