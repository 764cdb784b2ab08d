import Mathlib.Data.Prod.Lex
import SemanticSearch.LockedRequests

namespace SemanticSearch

open InvertedIndex SharedMutex

variable {V ι κ : Type} [DecidableEq ι] [DecidableEq κ] [Fintype ι] [Fintype κ]
  {P : LockedProgram V ι κ} {s s' : LockedSys V ι κ} {a : LockedAct ι κ}

/-- Requests take the lock alone, and searches share it and will answer with a list. -/
structure LockedSys.Placed (s : LockedSys V ι κ) : Prop where
  exclusive : ∀ j x, s.mtx.exclusive = some (j, x) → ∃ i, j = .inl i
  shared : ∀ j c, s.mtx.shared j = some c →
    ∃ k, j = .inr k ∧ ∃ l, c.run s.mtx.object = .ranked l

omit [DecidableEq ι] [DecidableEq κ] [Fintype ι] [Fintype κ] in
theorem LockedSys.placed_start (s : Sys V ι) : (LockedSys.start s : LockedSys V ι κ).Placed where
  exclusive j x h := by cases h
  shared j c h := by cases h

omit [DecidableEq ι] [DecidableEq κ] [Fintype ι] [Fintype κ] in
theorem placed_hold {mtx : Guarded InvertedIndex (Option Bytes) IndexAnswer (ι ⊕ κ)} {i : ι}
    {x : Holder InvertedIndex (Option Bytes) IndexAnswer} {index : InvertedIndex}
    (hs : ∀ j, s.mtx.shared j = none) (hmtx : mtx = s.mtx.hold (.inl i) x index) :
    ({ s with mtx } : LockedSys V ι κ).Placed := by
  subst hmtx
  constructor
  · intro j y h
    obtain ⟨rfl, -⟩ := Prod.mk.inj (Option.some.inj h)
    exact ⟨i, rfl⟩
  · intro j c h
    have hnone : s.mtx.shared j = none := hs j
    change s.mtx.shared j = some c at h
    rw [hnone] at h
    cases h

omit [Fintype ι] [Fintype κ] in
theorem LockedSys.Placed.setShared (h : s.Placed) {k : κ}
    {c : Option (Reader InvertedIndex IndexAnswer)} {l : List ((ι ⊕ κ) × IndexAnswer)}
    (hc : ∀ c', c = some c' → ∃ l, c'.run s.mtx.object = .ranked l) :
    ({ s with mtx := { s.mtx.setShared (.inr k) c with returned := l } } :
      LockedSys V ι κ).Placed := by
  refine ⟨h.exclusive, fun j c' hj => ?_⟩
  change Function.update s.mtx.shared (.inr k) c j = some c' at hj
  by_cases hjk : j = .inr k
  · subst hjk
    rw [Function.update_self] at hj
    exact ⟨k, rfl, hc c' hj⟩
  · rw [Function.update_of_ne hjk] at hj
    exact h.shared j c' hj

theorem LockedSys.Placed.step (h : s.Placed) (hsound : s.Sound P) (ha : P.tryStep s a = some s') :
    s'.Placed := by
  cases a with
  | background =>
    obtain rfl := Option.some.inj ha
    exact ⟨h.exclusive, h.shared⟩
  | request i =>
    simp only [LockedProgram.tryStep] at ha
    split at ha
    · cases ha
    · obtain rfl := Option.some.inj ha
      exact ⟨h.exclusive, h.shared⟩
  | lockIndex i =>
    simp only [LockedProgram.tryStep] at ha
    split at ha
    · obtain ⟨mtx, hmtx, rfl⟩ := Option.map_eq_some_iff.mp ha
      cases steps_of_tryStep hmtx with
      | lock _ u hx hs => exact placed_hold hs rfl
    · cases ha
  | readFile i =>
    obtain ⟨mtx, hmtx, rfl⟩ := Option.map_eq_some_iff.mp ha
    cases steps_of_tryStep hmtx with
    | look _ e u old v hx => exact placed_hold (hsound.mtx.apart (by simp [hx])) rfl
  | unlockIndex i =>
    simp only [LockedProgram.tryStep] at ha
    split at ha
    · obtain ⟨mtx, hmtx, rfl⟩ := Option.map_eq_some_iff.mp ha
      cases steps_of_tryStep hmtx with
      | unlock _ r hx => exact ⟨fun j x hj => (by cases hj), h.shared⟩
    · cases ha
  | lockSearch k terms =>
    obtain ⟨mtx, hmtx, rfl⟩ := Option.map_eq_some_iff.mp ha
    cases steps_of_tryStep hmtx with
    | lockShared _ c hx hi =>
      have hranked : ∀ c', some (searchSection P.int (P.orders k) terms) = some c' →
          ∃ l, c'.run s.mtx.object = .ranked l := by
        intro c' hc'
        rw [← Option.some.inj hc', run_searchSection]
        exact ⟨_, rfl⟩
      have hc := h.setShared (k := k) (l := s.mtx.returned) hranked
      exact ⟨hc.exclusive, hc.shared⟩
  | readIndex k =>
    obtain ⟨mtx, hmtx, rfl⟩ := Option.map_eq_some_iff.mp ha
    cases steps_of_tryStep hmtx with
    | read _ next hi =>
      obtain ⟨-, -, l, hl⟩ := h.shared _ _ hi
      exact h.setShared fun c' hc' => ⟨l, by rw [← Option.some.inj hc']; exact hl⟩
  | unlockSearch k =>
    simp only [LockedProgram.tryStep] at ha
    split at ha
    · obtain ⟨mtx, hmtx, rfl⟩ := Option.map_eq_some_iff.mp ha
      cases steps_of_tryStep hmtx with
      | unlockShared _ r hi =>
        have hc := h.setShared (k := k) (c := none) (l := s.mtx.returned ++ [(.inr k, r)])
          fun c' hc' => (by cases hc')
        exact ⟨hc.exclusive, hc.shared⟩
    · cases ha
  | writeIndex =>
    obtain ⟨mtx, hmtx, rfl⟩ := Option.map_eq_some_iff.mp ha
    cases steps_of_tryStep hmtx with
    | prepare j u old effect next hx =>
      obtain ⟨i, rfl⟩ := h.exclusive _ _ hx
      exact placed_hold (hsound.mtx.apart (by simp [hx])) rfl
    | finish j effect next hx =>
      obtain ⟨i, rfl⟩ := h.exclusive _ _ hx
      exact placed_hold (hsound.mtx.apart (by simp [hx])) rfl

/-- The step of a request or of a search that has the lock; a request that is done takes none. -/
def LockedSys.Advances (s : LockedSys V ι κ) : LockedAct ι κ → Prop
  | .background => False
  | .lockSearch _ _ => False
  | .request i => ∀ resp, s.phase i ≠ .done resp
  | _ => True

def stageOf : Phase → Call InvertedIndex (Option Bytes) IndexAnswer → ℕ
  | .waiting, _ => 6
  | .checked _, _ => 5
  | .changed _, .idle => 4
  | .changed _, .invoked _ => 3
  | .changed _, .answered _ => 2
  | .indexed _, _ => 1
  | .done _, _ => 0

/-- The steps of the requests outside of their sections, and those in the sections in progress. -/
def LockedSys.left (s : LockedSys V ι κ) : ℕ × ℕ :=
  (∑ i, stageOf (s.phase i) (s.mtx.call (.inl i)), s.mtx.due)

theorem left_of_stage {i : ι}
    (hi : stageOf (s'.phase i) (s'.mtx.call (.inl i)) < stageOf (s.phase i) (s.mtx.call (.inl i)))
    (hother : ∀ j, j ≠ i → s'.phase j = s.phase j ∧ s'.mtx.call (.inl j) = s.mtx.call (.inl j)) :
    Prod.Lex (· < ·) (· < ·) s'.left s.left := by
  apply Prod.Lex.left
  apply sum_lt_of_single hi
  intro j hji
  rw [(hother j hji).1, (hother j hji).2]

theorem left_of_due (hphase : s'.phase = s.phase)
    (hcall : ∀ i, s'.mtx.call (.inl i) = s.mtx.call (.inl i)) (hdue : s'.mtx.due < s.mtx.due) :
    Prod.Lex (· < ·) (· < ·) s'.left s.left := by
  have hstages : s'.left.1 = s.left.1 := by
    simp only [LockedSys.left, hphase, hcall]
  have heq : s'.left = (s.left.1, s'.mtx.due) := Prod.ext hstages rfl
  rw [heq]
  exact Prod.Lex.right _ hdue

omit [DecidableEq ι] [DecidableEq κ] [Fintype ι] [Fintype κ] in
theorem stageOf_clientStep (ctx : ClientCtx V) (r : Request) (w : World V) {p : Phase}
    (hchanged : ∀ resp, p ≠ .changed resp) (hdone : ∀ resp, p ≠ .done resp)
    (c : Call InvertedIndex (Option Bytes) IndexAnswer) (hc : c = .idle) :
    stageOf (clientStep ctx r w p).1 c < stageOf p c := by
  subst hc
  cases p with
  | waiting =>
    change stageOf (checkFile ctx r w.fs) .idle < 6
    unfold checkFile
    split_ifs
    · split
      · exact Nat.zero_lt_succ 5
      · exact Nat.lt_succ_self 5
    · split
      · exact Nat.zero_lt_succ 5
      · exact Nat.lt_succ_self 5
    · exact Nat.zero_lt_succ 5
  | checked exist =>
    change stageOf (if _ then Phase.changed _ else Phase.done _) .idle < 5
    split_ifs
    · exact Nat.lt_succ_self 4
    · exact Nat.zero_lt_succ 4
  | changed resp => exact absurd rfl (hchanged resp)
  | indexed resp => exact Nat.zero_lt_one
  | done resp => exact absurd rfl (hdone resp)

theorem LockedSys.Sound.left_lt (h : s.Sound P) (hadv : s.Advances a)
    (ha : P.tryStep s a = some s') : Prod.Lex (· < ·) (· < ·) s'.left s.left := by
  cases a with
  | background => exact absurd hadv id
  | lockSearch k terms => exact absurd hadv id
  | request i =>
    simp only [LockedProgram.tryStep] at ha
    split at ha
    · cases ha
    · next p hp =>
      obtain rfl := Option.some.inj ha
      obtain ⟨hidle, -⟩ := h.phase_eq hp
      apply left_of_stage (i := i)
      · change stageOf (Function.update s.phase i _ i) _ < _
        rw [Function.update_self]
        exact stageOf_clientStep P.ctx (P.job i) _ hp hadv _ hidle
      · intro j hji
        exact ⟨Function.update_of_ne hji .., rfl⟩
  | lockIndex i =>
    simp only [LockedProgram.tryStep] at ha
    split at ha
    · next resp hi =>
      obtain ⟨mtx, hmtx, rfl⟩ := Option.map_eq_some_iff.mp ha
      obtain ⟨hidle, habs⟩ := Atomic.lock_iff.mp (h.mtx.tryStep hmtx).2
      have hcall := calls_of_setCall (congrArg Atomic.call habs).symm
      apply left_of_stage (i := i)
      · rw [hcall i, if_pos rfl, hi, show s.mtx.call (.inl i) = .idle from hidle]
        exact Nat.lt_succ_self 3
      · intro j hji
        exact ⟨rfl, by rw [hcall j, if_neg (by simpa using hji)]⟩
    · cases ha
  | readFile i =>
    obtain ⟨mtx, hmtx, rfl⟩ := Option.map_eq_some_iff.mp ha
    obtain ⟨u, hu, habs⟩ := Atomic.look_iff.mp (h.mtx.tryStep hmtx).2
    have hcalled : s.mtx.call (.inl i) = .invoked u := hu
    have hcall := calls_of_setCall (congrArg Atomic.call habs).symm
    obtain ⟨resp, hresp⟩ := h.changed i (by simp [hcalled])
    apply left_of_stage (i := i)
    · rw [hcall i, if_pos rfl, hresp, hcalled]
      exact Nat.lt_succ_self 2
    · intro j hji
      exact ⟨rfl, by rw [hcall j, if_neg (by simpa using hji)]⟩
  | unlockIndex i =>
    simp only [LockedProgram.tryStep] at ha
    split at ha
    · next resp hi =>
      obtain ⟨mtx, hmtx, rfl⟩ := Option.map_eq_some_iff.mp ha
      obtain ⟨r, hr, habs⟩ := Atomic.unlock_iff.mp (h.mtx.tryStep hmtx).2
      have hcall := calls_of_setCall (congrArg Atomic.call habs).symm
      apply left_of_stage (i := i)
      · change stageOf (Function.update s.phase i _ i) _ < _
        rw [Function.update_self, hi, show s.mtx.call (.inl i) = .answered r from hr]
        exact Nat.lt_succ_self 1
      · intro j hji
        exact ⟨Function.update_of_ne hji .., by rw [hcall j, if_neg (by simpa using hji)]⟩
    · cases ha
  | readIndex k =>
    obtain ⟨mtx, hmtx, rfl⟩ := Option.map_eq_some_iff.mp ha
    have habs : s.mtx.abs = mtx.abs := Option.some.inj (h.mtx.tryStep hmtx).2
    apply left_of_due
    · rfl
    · intro i
      exact (congrFun (congrArg Atomic.call habs) (.inl i)).symm
    · exact h.mtx.due_lt (steps_of_tryStep hmtx) (Or.inr ⟨_, Or.inl rfl⟩)
  | unlockSearch k =>
    simp only [LockedProgram.tryStep] at ha
    split at ha
    · obtain ⟨mtx, hmtx, rfl⟩ := Option.map_eq_some_iff.mp ha
      obtain ⟨r, -, habs⟩ := Atomic.unlockShared_iff.mp (h.mtx.tryStep hmtx).2
      apply left_of_due
      · rfl
      · intro i
        rw [calls_of_setCall (congrArg Atomic.call habs).symm i, if_neg Sum.inl_ne_inr]
      · exact h.mtx.due_lt (steps_of_tryStep hmtx) (Or.inr ⟨_, Or.inr rfl⟩)
    · cases ha
  | writeIndex =>
    obtain ⟨mtx, hmtx, rfl⟩ := Option.map_eq_some_iff.mp ha
    have habs : s.mtx.abs = mtx.abs := Option.some.inj (h.mtx.tryStep hmtx).2
    apply left_of_due
    · rfl
    · intro i
      exact (congrFun (congrArg Atomic.call habs) (.inl i)).symm
    · exact h.mtx.due_lt (steps_of_tryStep hmtx) (Or.inl rfl)

/-- All requests are answered and nobody has the lock. -/
def LockedSys.Finished (s : LockedSys V ι κ) : Prop :=
  (∀ i, ∃ resp, s.phase i = .done resp) ∧ s.mtx.exclusive = none ∧ ∀ j, s.mtx.shared j = none

theorem LockedSys.Placed.holder_advances (h : s.Placed) (hsound : s.Sound P) {j : ι ⊕ κ}
    {x : Holder InvertedIndex (Option Bytes) IndexAnswer}
    (hx : s.mtx.exclusive = some (j, x)) : ∃ a, s.Advances a ∧ (P.tryStep s a).isSome := by
  obtain ⟨i, rfl⟩ := h.exclusive j x hx
  have hcall : s.mtx.call (.inl i) ≠ .idle := by
    rw [hsound.mtx.call_of_holder hx]
    cases x <;> simp [Holder.call]
  obtain ⟨resp, hresp⟩ := hsound.changed i hcall
  rcases holder_moves hx with hwrite | hlook | hunlock
  · exact ⟨.writeIndex, trivial, by simpa [LockedProgram.tryStep] using hwrite⟩
  · exact ⟨.readFile i, trivial, by simpa [LockedProgram.tryStep] using hlook _⟩
  · exact ⟨.unlockIndex i, trivial, by simpa [LockedProgram.tryStep, hresp] using hunlock⟩

theorem LockedSys.Placed.search_advances (h : s.Placed) {j : ι ⊕ κ}
    {c : Reader InvertedIndex IndexAnswer} (hj : s.mtx.shared j = some c) :
    ∃ a, s.Advances a ∧ (P.tryStep s a).isSome := by
  obtain ⟨k, rfl, l, hl⟩ := h.shared j c hj
  cases c with
  | done r =>
    obtain rfl : r = .ranked l := hl
    exact ⟨.unlockSearch k, trivial, by simp [LockedProgram.tryStep, SharedMutex.tryStep, hj]⟩
  | read next =>
    exact ⟨.readIndex k, trivial, by simp [LockedProgram.tryStep, SharedMutex.tryStep, hj]⟩

theorem LockedSys.Placed.advances (h : s.Placed) (hsound : s.Sound P) :
    s.Finished ∨ ∃ a, s.Advances a ∧ (P.tryStep s a).isSome := by
  rcases hx : s.mtx.exclusive with _ | ⟨j, x⟩
  · by_cases hs : ∀ j, s.mtx.shared j = none
    · by_cases hdone : ∀ i, ∃ resp, s.phase i = .done resp
      · exact Or.inl ⟨hdone, hx, hs⟩
      · right
        obtain ⟨i, hi⟩ := not_forall.mp hdone
        have hi : ∀ resp, s.phase i ≠ .done resp := not_exists.mp hi
        cases hp : s.phase i with
        | changed resp =>
          exact ⟨.lockIndex i, trivial, by
            simp [LockedProgram.tryStep, SharedMutex.tryStep, hp, hx, hs]⟩
        | waiting => exact ⟨.request i, hi, by simp [LockedProgram.tryStep, hp]⟩
        | checked exist => exact ⟨.request i, hi, by simp [LockedProgram.tryStep, hp]⟩
        | indexed resp => exact ⟨.request i, hi, by simp [LockedProgram.tryStep, hp]⟩
        | done resp => exact absurd hp (hi resp)
    · right
      obtain ⟨j, hj⟩ := not_forall.mp hs
      obtain ⟨c, hc⟩ := Option.ne_none_iff_exists'.mp hj
      exact h.search_advances hc
  · exact Or.inr (h.holder_advances hsound hx)

/-- The embed service works as often as it likes, and then a request or a search takes a step. -/
def LockedProgram.Goes (P : LockedProgram V ι κ) (s' s : LockedSys V ι κ) : Prop :=
  ∃ n a, s.Advances a ∧
    Runs.tryRun P.tryStep s (List.replicate n .background ++ [a]) = some s'

theorem run_background {n : ℕ}
    (h : Runs.tryRun P.tryStep s (List.replicate n .background) = some s') :
    ∃ vec, s' = { s with vec } := by
  induction n generalizing s with
  | zero => exact ⟨s.vec, (Option.some.inj h).symm⟩
  | succ n ih =>
    obtain ⟨t, ht, hrest⟩ := Runs.tryRun_cons_iff.mp h
    obtain rfl := Option.some.inj ht
    obtain ⟨vec, rfl⟩ := ih hrest
    exact ⟨vec, rfl⟩

/-- In every state of a run around the lock: all requests are answered and nobody has the lock, or a
request or a search that has the lock can take a step; and if no further search begins, there is no
way to go on for ever, however often the embed service changes its state in between. -/
theorem locked_ends {s₀ : Sys V ι} {acts : List (LockedAct ι κ)}
    (hrun : Runs.tryRun P.tryStep (LockedSys.start s₀) acts = some s) :
    (s.Finished ∨ ∃ s', P.Goes s' s) ∧ Acc P.Goes s := by
  have hinv : s.Sound P ∧ s.Placed :=
    Runs.tryRun_invariant (I := fun s => s.Sound P ∧ s.Placed)
      (fun _ _ _ h ha => ⟨(h.1.step ha).1, h.2.step h.1 ha⟩)
      ⟨LockedSys.sound_start s₀, LockedSys.placed_start s₀⟩ hrun
  constructor
  · rcases hinv.2.advances hinv.1 with hfinished | ⟨a, hadv, ha⟩
    · exact Or.inl hfinished
    · obtain ⟨s', hs'⟩ := Option.isSome_iff_exists.mp ha
      exact Or.inr ⟨s', 0, a, hadv, Runs.tryRun_cons_iff.mpr ⟨s', hs', rfl⟩⟩
  · apply Runs.acc_of_measure (WellFounded.prod_lex Nat.lt_wfRel.wf Nat.lt_wfRel.wf)
      (I := LockedSys.Sound P) (μ := LockedSys.left) _ hinv.1
    intro s s' hsound ⟨n, a, hadv, hgoes⟩
    obtain ⟨t, hbackground, ha⟩ := Runs.tryRun_concat_iff.mp hgoes
    obtain ⟨vec, rfl⟩ := run_background hbackground
    have hsound' : ({ s with vec } : LockedSys V ι κ).Sound P :=
      ⟨hsound.mtx, hsound.changed, hsound.invoked⟩
    have hadv' : ({ s with vec } : LockedSys V ι κ).Advances a := by
      cases a <;> exact hadv
    exact ⟨(hsound'.step ha).1, hsound'.left_lt hadv' ha⟩

theorem run_searchBehindPut : (Runs.tryRun putDeleteSearch.tryStep (LockedSys.start freshStart)
    (putSection ++ [.lockSearch () [text "hat"]])).map (fun s => s.phase true) =
      some .waiting := by decide +kernel

theorem locked_ends_beside_delete : ∃ s : LockedSys Unit Bool Unit,
    s.phase true = .waiting ∧ (∃ s', putDeleteSearch.Goes s' s) ∧ Acc putDeleteSearch.Goes s := by
  obtain ⟨s, hs, hphase⟩ := Option.map_eq_some_iff.mp run_searchBehindPut
  obtain ⟨hfinished | hgoes, hacc⟩ := locked_ends hs
  · obtain ⟨resp, hresp⟩ := hfinished.1 true
    rw [hphase] at hresp
    cases hresp
  · exact ⟨s, hphase, hgoes, hacc⟩

end SemanticSearch
