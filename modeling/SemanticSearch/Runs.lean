import Mathlib.Data.List.Infix

namespace SemanticSearch.Runs

variable {S A : Type*}

/-- The state after the actions `acts`, taken in order from `s`. -/
def run (step : S → A → S) (s : S) (acts : List A) : S := acts.foldl step s

/-- `P` holds in every state that the run reaches. -/
def Throughout (step : S → A → S) (P : S → Prop) (s : S) (acts : List A) : Prop :=
  ∀ pre, pre <+: acts → P (run step s pre)

/-- Every action of the run meets `ok` in the state it is taken in. -/
def AllOk (step : S → A → S) (ok : S → A → Prop) (s : S) (acts : List A) : Prop :=
  ∀ pre a, pre ++ [a] <+: acts → ok (run step s pre) a

variable {step : S → A → S} {ok : S → A → Prop} {I J P : S → Prop} {s : S} {a : A} {acts : List A}

@[simp] theorem run_nil : run step s [] = s := rfl

@[simp] theorem run_cons : run step s (a :: acts) = run step (step s a) acts := rfl

theorem run_concat : run step s (acts ++ [a]) = step (run step s acts) a :=
  List.foldl_concat ..

theorem throughout_nil : Throughout step P s [] ↔ P s := by
  constructor
  · intro h
    exact h [] (List.prefix_refl [])
  · intro h pre hpre
    rw [List.prefix_nil.mp hpre]
    exact h

theorem throughout_cons :
    Throughout step P s (a :: acts) ↔ P s ∧ Throughout step P (step s a) acts := by
  constructor
  · intro h
    refine ⟨h [] List.nil_prefix, fun pre hpre => ?_⟩
    exact h (a :: pre) (List.cons_prefix_cons.mpr ⟨rfl, hpre⟩)
  · intro h pre hpre
    cases pre with
    | nil => exact h.1
    | cons b pre =>
      obtain ⟨hb, htail⟩ := List.cons_prefix_cons.mp hpre
      rw [hb, run_cons]
      exact h.2 pre htail

theorem allOk_nil : AllOk step ok s [] := by
  intro pre a hpre
  simp at hpre

theorem allOk_cons :
    AllOk step ok s (a :: acts) ↔ ok s a ∧ AllOk step ok (step s a) acts := by
  constructor
  · intro h
    refine ⟨h [] a (List.cons_prefix_cons.mpr ⟨rfl, List.nil_prefix⟩), fun pre b hpre => ?_⟩
    exact h (a :: pre) b (List.cons_prefix_cons.mpr ⟨rfl, hpre⟩)
  · intro h pre b hpre
    cases pre with
    | nil =>
      obtain ⟨hb, -⟩ := List.cons_prefix_cons.mp hpre
      rw [hb]
      exact h.1
    | cons c pre =>
      obtain ⟨hc, htail⟩ := List.cons_prefix_cons.mp hpre
      rw [hc, run_cons]
      exact h.2 pre b htail

theorem invariant_run (hstep : ∀ s a, I s → I (step s a)) (h : I s) (acts : List A) :
    I (run step s acts) := by
  induction acts generalizing s with
  | nil => exact h
  | cons a acts ih => exact ih (hstep s a h)

theorem Throughout.imp {Q : S → Prop} (h : Throughout step P s acts) (hPQ : ∀ s, P s → Q s) :
    Throughout step Q s acts := fun pre hpre => hPQ _ (h pre hpre)

theorem AllOk.imp {ok' : S → A → Prop} (h : AllOk step ok s acts)
    (himp : ∀ s a, ok s a → ok' s a) : AllOk step ok' s acts :=
  fun pre a hpre => himp _ a (h pre a hpre)

theorem AllOk.of_prefix {pre : List A} (h : AllOk step ok s acts) (hpre : pre <+: acts) :
    AllOk step ok s pre := fun pre' a ha => h pre' a (ha.trans hpre)

theorem AllOk.simulates {T : Type*} {step' : T → A → T} {abs : S → T}
    (hstep : ∀ s a, I s → ok s a → I (step s a) ∧ abs (step s a) = step' (abs s) a) (h : I s)
    (hok : AllOk step ok s acts) :
    I (run step s acts) ∧ abs (run step s acts) = run step' (abs s) acts := by
  induction acts generalizing s with
  | nil => exact ⟨h, rfl⟩
  | cons a acts ih =>
    obtain ⟨ha, hacts⟩ := allOk_cons.mp hok
    obtain ⟨h', habs⟩ := hstep s a h ha
    rw [run_cons, run_cons, ← habs]
    exact ih h' hacts

theorem AllOk.throughout (hstep : ∀ s a, I s → ok s a → I (step s a)) (h : I s)
    (hok : AllOk step ok s acts) : Throughout step I s acts := by
  induction acts generalizing s with
  | nil => exact throughout_nil.mpr h
  | cons a acts ih =>
    obtain ⟨ha, hacts⟩ := allOk_cons.mp hok
    exact throughout_cons.mpr ⟨h, ih (hstep s a h ha) hacts⟩

theorem throughout_iff_allOk
    (hstep : ∀ s a, J s → I s → J (step s a) ∧ (I (step s a) ↔ ok s a)) (hj : J s) (hi : I s)
    (acts : List A) : Throughout step I s acts ↔ AllOk step ok s acts := by
  constructor
  · intro h
    induction acts generalizing s with
    | nil => exact allOk_nil
    | cons a acts ih =>
      obtain ⟨-, htail⟩ := throughout_cons.mp h
      obtain ⟨hj', hok⟩ := hstep s a hj hi
      have hi' : I (step s a) := htail [] List.nil_prefix
      exact allOk_cons.mpr ⟨hok.mp hi', ih hj' hi' htail⟩
  · intro h
    have hboth : Throughout step (fun s => J s ∧ I s) s acts := by
      apply h.throughout (I := fun s => J s ∧ I s) _ ⟨hj, hi⟩
      intro s a hs ha
      obtain ⟨hj', hok⟩ := hstep s a hs.1 hs.2
      exact ⟨hj', hok.mpr ha⟩
    exact hboth.imp fun _ hs => hs.2

/-- The state after `acts`, if each of them can be taken when its turn comes. -/
def tryRun (tryStep : S → A → Option S) (s : S) (acts : List A) : Option S :=
  acts.foldlM tryStep s

variable {tryStep : S → A → Option S} {s' : S} {pre : List A}

@[simp] theorem tryRun_nil : tryRun tryStep s [] = some s := rfl

theorem tryRun_cons_iff :
    tryRun tryStep s (a :: acts) = some s' ↔
      ∃ t, tryStep s a = some t ∧ tryRun tryStep t acts = some s' := by
  simp only [tryRun, List.foldlM_cons, Option.bind_eq_bind, Option.bind_eq_some_iff]

theorem tryRun_append_iff :
    tryRun tryStep s (pre ++ acts) = some s' ↔
      ∃ t, tryRun tryStep s pre = some t ∧ tryRun tryStep t acts = some s' := by
  simp only [tryRun, List.foldlM_append, Option.bind_eq_bind, Option.bind_eq_some_iff]

theorem tryRun_concat_iff :
    tryRun tryStep s (acts ++ [a]) = some s' ↔
      ∃ t, tryRun tryStep s acts = some t ∧ tryStep t a = some s' := by
  rw [tryRun_append_iff]
  simp only [tryRun, List.foldlM_cons, List.foldlM_nil, bind_pure]

theorem tryRun_invariant (hstep : ∀ s a s', I s → tryStep s a = some s' → I s') (h : I s)
    (hrun : tryRun tryStep s acts = some s') : I s' := by
  induction acts generalizing s with
  | nil => exact Option.some.inj hrun ▸ h
  | cons a acts ih =>
    obtain ⟨t, ht, hrest⟩ := tryRun_cons_iff.mp hrun
    exact ih (hstep s a t h ht) hrest

theorem tryRun_potential {μ : S → ℕ} {spends earns : A → Bool}
    (hstep : ∀ s a s', I s → tryStep s a = some s' →
      I s' ∧ μ s' + (spends a).toNat ≤ μ s + (earns a).toNat) (h : I s)
    (hrun : tryRun tryStep s acts = some s') :
    μ s' + acts.countP spends ≤ μ s + acts.countP earns := by
  induction acts generalizing s with
  | nil => exact Option.some.inj hrun ▸ le_refl _
  | cons a acts ih =>
    obtain ⟨t, ht, hrest⟩ := tryRun_cons_iff.mp hrun
    obtain ⟨ht', hle⟩ := hstep s a t h ht
    have hrun' := ih ht' hrest
    rw [List.countP_cons, List.countP_cons]
    have hspends : (if spends a then 1 else 0) = (spends a).toNat := by cases spends a <;> rfl
    have hearns : (if earns a then 1 else 0) = (earns a).toNat := by cases earns a <;> rfl
    rw [hspends, hearns]
    omega

/-- Each action of the run meets `ok` in the state it is taken in. -/
def TryAllOk (tryStep : S → A → Option S) (ok : S → A → Prop) : S → List A → Prop
  | _, [] => True
  | s, a :: acts =>
    ok s a ∧
      match tryStep s a with
      | some t => TryAllOk tryStep ok t acts
      | none => True

instance TryAllOk.decidable (tryStep : S → A → Option S) (ok : S → A → Prop)
    [∀ s a, Decidable (ok s a)] : (s : S) → (acts : List A) →
      Decidable (TryAllOk tryStep ok s acts)
  | _, [] => inferInstanceAs (Decidable True)
  | s, a :: acts =>
    match h : tryStep s a with
    | some t =>
      have := TryAllOk.decidable tryStep ok t acts
      decidable_of_iff (ok s a ∧ TryAllOk tryStep ok t acts) (by simp only [TryAllOk, h])
    | none => decidable_of_iff (ok s a ∧ True) (by simp only [TryAllOk, h])

theorem TryAllOk.invariant (hstep : ∀ s a s', I s → ok s a → tryStep s a = some s' → I s')
    (h : I s) (hok : TryAllOk tryStep ok s acts) (hrun : tryRun tryStep s acts = some s') :
    I s' := by
  induction acts generalizing s with
  | nil => exact Option.some.inj hrun ▸ h
  | cons a acts ih =>
    obtain ⟨t, ht, hrest⟩ := tryRun_cons_iff.mp hrun
    obtain ⟨ha, hacts⟩ := hok
    rw [ht] at hacts
    exact ih (hstep s a t h ha ht) hacts hrest

theorem tryRun_simulates {T : Type*} {tryStep' : T → A → Option T} {abs : S → T}
    (hstep : ∀ s a s', I s → tryStep s a = some s' →
      I s' ∧ tryStep' (abs s) a = some (abs s')) (h : I s)
    (hrun : tryRun tryStep s acts = some s') :
    I s' ∧ tryRun tryStep' (abs s) acts = some (abs s') := by
  induction acts generalizing s with
  | nil =>
    obtain rfl := Option.some.inj hrun
    exact ⟨h, rfl⟩
  | cons a acts ih =>
    obtain ⟨t, ht, hrest⟩ := tryRun_cons_iff.mp hrun
    obtain ⟨ht', habs⟩ := hstep s a t h ht
    obtain ⟨hs', hrun'⟩ := ih ht' hrest
    exact ⟨hs', tryRun_cons_iff.mpr ⟨abs t, habs, hrun'⟩⟩

theorem tryRun_refines {T B : Type*} {step' : T → B → T} {abs : S → T} {project : A → List B}
    (hstep : ∀ s a s', I s → tryStep s a = some s' →
      I s' ∧ abs s' = run step' (abs s) (project a)) (h : I s)
    (hrun : tryRun tryStep s acts = some s') :
    I s' ∧ abs s' = run step' (abs s) (acts.flatMap project) := by
  induction acts generalizing s with
  | nil =>
    obtain rfl := Option.some.inj hrun
    exact ⟨h, rfl⟩
  | cons a acts ih =>
    obtain ⟨t, ht, hrest⟩ := tryRun_cons_iff.mp hrun
    obtain ⟨ht', habs⟩ := hstep s a t h ht
    obtain ⟨hs', habs'⟩ := ih ht' hrest
    refine ⟨hs', ?_⟩
    rw [habs', habs, run, run, run, List.flatMap_cons, List.foldl_append]

theorem acc_of_measure {T : Type*} {below : T → T → Prop} (hbelow : WellFounded below)
    {goes : S → S → Prop} {μ : S → T}
    (hstep : ∀ s s', I s → goes s' s → I s' ∧ below (μ s') (μ s)) (h : I s) : Acc goes s := by
  have hall : ∀ t s, I s → μ s = t → Acc goes s := by
    intro t
    induction t using hbelow.induction with
    | _ t ih =>
      intro s h hs
      apply Acc.intro
      intro s' hgoes
      obtain ⟨h', hlt⟩ := hstep s s' h hgoes
      exact ih (μ s') (hs ▸ hlt) s' h' rfl
  exact hall (μ s) s h rfl

end SemanticSearch.Runs
