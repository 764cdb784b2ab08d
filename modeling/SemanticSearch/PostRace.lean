import SemanticSearch.RequestSteps

namespace SemanticSearch

open FileSystem

variable {ι : Type}

/-- The open of `WriteFile`. A file that is there loses its content. -/
def openTrunc (fs : FileSystem) (target : Bytes) : Except Errno (RealPath × FileSystem) :=
  match fs.openTarget target with
  | .error e => .error e
  | .ok q => .ok (q, fs.set q (.file []))

/-- `out.write` into the file at `q`, from its first byte on. -/
def writeAt (fs : FileSystem) (q : RealPath) (data : Bytes) : FileSystem :=
  match fs.entries[q]? with
  | some (.file old) => fs.set q (.file (data ++ old.drop data.length))
  | _ => fs

inductive PostPhase
  | waiting
  | checked (exist : Bool)
  | opened (exist : Bool) (q : RealPath)
  | done (resp : Bytes)
  deriving DecidableEq, Repr

/-- The next step of a POST with the body `data`. -/
def postStep (filesRoot relpath data : Bytes) (fs : FileSystem) :
    PostPhase → PostPhase × FileSystem
  | .waiting =>
    match checkPut fs filesRoot relpath false with
    | .error resp => (.done resp, fs)
    | .ok exist => (.checked exist, fs)
  | .checked exist =>
    match openTrunc fs relpath with
    | .error _ => (.done internalError, fs)
    | .ok (q, fs') => (.opened exist q, fs')
  | .opened exist q => (.done (putDone exist), writeAt fs q data)
  | .done resp => (.done resp, fs)

theorem set_set {fs : FileSystem} {q : RealPath} (h : fs.CanSet q) (old data : Bytes) :
    (fs.set q (.file old)).set q (.file data) = fs.set q (.file data) := by
  have hold : (fs.set q (.file old)).entries[q]? = some (.file old) := by simp [entries_set h]
  apply ext_entries
  · intro p
    rw [entries_set (canSet_of_file hold), entries_set h, entries_set h]
    split_ifs <;> rfl
  · simp

theorem writeAt_openTrunc {fs : FileSystem} {q : RealPath} (h : fs.CanSet q) (data : Bytes) :
    writeAt (fs.set q (.file [])) q data = fs.set q (.file data) := by
  simp [writeAt, entries_set h, set_set h]

theorem postStep_alone (filesRoot relpath data : Bytes) (fs : FileSystem) :
    (fun x : PostPhase × FileSystem => postStep filesRoot relpath data x.2 x.1)^[3] (.waiting, fs) =
      (.done (staticPut fs filesRoot relpath data false).1,
        (staticPut fs filesRoot relpath data false).2) := by
  have h0 : internalError ≠ [] := by decide
  rw [staticPut_eq]
  rcases hc : checkPut fs filesRoot relpath false with e | exist
  · simp [postStep, hc]
  rcases ho : fs.openTarget relpath with e | q
  · simp [postStep, hc, openTrunc, ho, putFile, writeFile, h0]
  · simp [postStep, hc, openTrunc, ho, putFile, writeFile,
      writeAt_openTrunc (canSet_of_openTarget ho)]

structure Posts (ι : Type) where
  files_root : Bytes
  relpath : Bytes
  body : ι → Bytes

structure PostState (ι : Type) where
  fs : FileSystem
  phase : ι → PostPhase

namespace Posts

variable [DecidableEq ι]

def step (P : Posts ι) (s : PostState ι) (i : ι) : PostState ι :=
  let (p, fs) := postStep P.files_root P.relpath (P.body i) s.fs (s.phase i)
  ⟨fs, Function.update s.phase i p⟩

def start (fs : FileSystem) : PostState ι := ⟨fs, fun _ => .waiting⟩

def created : Bytes := putDone false

def conflict : Bytes :=
  makeResponse kHttpConflict (text "<h1>409 Conflict</h1>") (text "text/html") (text "Conflict")

/-- Every answer is 201 or 409, and behind a 201 the file holds the body of that request and no
other has 201. -/
def CreatesOnce (P : Posts ι) (s : PostState ι) : Prop :=
  (∀ i resp, s.phase i = .done resp → resp = created ∨ resp = conflict) ∧
  ∀ i, s.phase i = .done created →
    s.fs.read P.relpath = some (P.body i) ∧ ∀ j, s.phase j = .done created → j = i

/-- The check finds the path inside the root, and the open finds no file and can create one. -/
structure OpensNew (P : Posts ι) (s : PostState ι) (i : ι) : Prop where
  check : s.phase i = .waiting → checkWithinRoot s.fs P.files_root P.relpath = .ok [] ∧
    ∃ exist, s.fs.exists P.relpath = .ok exist
  opens : ∀ exist, s.phase i = .checked exist →
    s.fs.exists P.relpath = .ok false ∧ ∃ q, s.fs.openTarget P.relpath = .ok q

/-- Every request that has begun is answered. -/
def Completed (s : PostState ι) : Prop := ∀ i, s.phase i = .waiting ∨ ∃ resp, s.phase i = .done resp

variable {P : Posts ι} {s : PostState ι} {fs : FileSystem} {i k : ι} {q : RealPath}

omit [DecidableEq ι] in
theorem opensNew_check (hp : s.phase i = .waiting)
    (hroot : checkWithinRoot s.fs P.files_root P.relpath = .ok []) {exist : Bool}
    (he : s.fs.exists P.relpath = .ok exist) : OpensNew P s i :=
  ⟨fun _ => ⟨hroot, exist, he⟩, by simp [hp]⟩

omit [DecidableEq ι] in
theorem opensNew_open {exist : Bool} (hp : s.phase i = .checked exist)
    (he : s.fs.exists P.relpath = .ok false) (hq : s.fs.openTarget P.relpath = .ok q) :
    OpensNew P s i := ⟨by simp [hp], fun _ _ => ⟨he, q, hq⟩⟩

omit [DecidableEq ι] in
theorem opensNew_write {exist : Bool} (hp : s.phase i = .opened exist q) : OpensNew P s i :=
  ⟨by simp [hp], by simp [hp]⟩

theorem created_ne_conflict : created ≠ conflict := by decide

theorem checkPut_cases (fs : FileSystem) (filesRoot relpath : Bytes) :
    (checkWithinRoot fs filesRoot relpath = .ok [] ∧ fs.exists relpath = .ok false ∧
      checkPut fs filesRoot relpath false = .ok false) ∨
    (checkWithinRoot fs filesRoot relpath = .ok [] ∧ fs.exists relpath = .ok true ∧
      checkPut fs filesRoot relpath false = .error conflict) ∨
    ¬ (checkWithinRoot fs filesRoot relpath = .ok [] ∧ ∃ exist, fs.exists relpath = .ok exist) ∧
      (checkPut fs filesRoot relpath false = .error internalError ∨
        checkPut fs filesRoot relpath false = .error forbidden) := by
  rcases hc : checkWithinRoot fs filesRoot relpath with e | error1
  · exact Or.inr (Or.inr ⟨by simp, Or.inl (by simp [checkPut, hc])⟩)
  rcases checkWithinRoot_answer hc with rfl | rfl
  · rcases he : fs.exists relpath with e | _ | _
    · exact Or.inr (Or.inr ⟨by simp, Or.inl (by simp [checkPut, hc, he])⟩)
    · exact Or.inl ⟨rfl, rfl, by simp [checkPut, hc, he]⟩
    · exact Or.inr (Or.inl ⟨rfl, rfl, by simp [checkPut, hc, he, conflict]⟩)
  · have h0 : forbidden ≠ [] := forbidden_ne_nil
    exact Or.inr (Or.inr ⟨by simp [h0], Or.inr (by simp [checkPut, hc, h0])⟩)

structure Unopened (P : Posts ι) (s : PostState ι) : Prop where
  absent : s.fs.exists P.relpath ≠ .ok true
  phases : ∀ i, s.phase i = .waiting ∨ s.phase i = .checked false

/-- The request `k` has created the file at `q`. -/
structure OpenedBy (P : Posts ι) (s : PostState ι) (k : ι) (q : RealPath) : Prop where
  resolve : s.fs.resolve P.relpath = .ok q
  holder : (s.phase k = .opened false q ∧ s.fs.entries[q]? = some (.file [])) ∨
    (s.phase k = .done created ∧ s.fs.entries[q]? = some (.file (P.body k)))
  others : ∀ j, j ≠ k →
    s.phase j = .waiting ∨ s.phase j = .checked false ∨ s.phase j = .done conflict

def Orderly (P : Posts ι) (s : PostState ι) : Prop := Unopened P s ∨ ∃ k q, OpenedBy P s k q

theorem Unopened.step (h : Unopened P s) (hok : OpensNew P s i) : Orderly P (P.step s i) := by
  rcases h.phases i with hp | hp
  · -- the check
    obtain ⟨hroot, exist, hexist⟩ := hok.check hp
    rcases checkPut_cases s.fs P.files_root P.relpath with ⟨-, -, hc⟩ | ⟨-, he, -⟩ | ⟨hno, -⟩
    · have hstep : P.step s i = ⟨s.fs, Function.update s.phase i (.checked false)⟩ := by
        simp [Posts.step, postStep, hp, hc]
      rw [hstep]
      refine Or.inl ⟨h.absent, fun j => ?_⟩
      rcases eq_or_ne j i with rfl | hj
      · exact Or.inr (Function.update_self ..)
      · simpa [hj] using h.phases j
    · exact absurd he h.absent
    · exact absurd ⟨hroot, exist, hexist⟩ hno
  · -- the open
    obtain ⟨-, q, hq⟩ := hok.opens false hp
    have hstep : P.step s i =
        ⟨s.fs.set q (.file []), Function.update s.phase i (.opened false q)⟩ := by
      simp [Posts.step, postStep, hp, openTrunc, hq]
    rw [hstep]
    refine Or.inr ⟨i, q, resolve_set_openTarget hq [], Or.inl ⟨Function.update_self .., ?_⟩, ?_⟩
    · rw [entries_set (canSet_of_openTarget hq), if_pos rfl]
    · intro j hj
      rcases h.phases j with hp' | hp' <;> simp [hj, hp']

theorem OpenedBy.step (h : OpenedBy P s k q) (hok : OpensNew P s i) :
    OpenedBy P (P.step s i) k q := by
  have hexists := exists_of_resolve h.resolve
  rcases eq_or_ne i k with rfl | hik
  · rcases h.holder with ⟨hp, he⟩ | ⟨hp, he⟩
    · -- the write
      have hopen := openTarget_eq_ok.mpr (Or.inr ⟨[], h.resolve, he⟩)
      have hstep : P.step s i =
          ⟨s.fs.set q (.file (P.body i)), Function.update s.phase i (.done created)⟩ := by
        simp [Posts.step, postStep, hp, writeAt, he, created]
      rw [hstep]
      refine ⟨resolve_set_openTarget hopen _, Or.inr ⟨Function.update_self .., ?_⟩, ?_⟩
      · rw [entries_set (canSet_of_file he), if_pos rfl]
      · intro j hj
        simpa [hj] using h.others j hj
    · have hsame : Function.update s.phase i (.done created) = s.phase := by
        rw [← hp, Function.update_eq_self]
      have hstep : P.step s i = s := by simp [Posts.step, postStep, hp, hsame]
      rw [hstep]
      exact h
  · -- another request is refused
    have hquiet : ∀ p, (p = .done conflict) →
        OpenedBy P ⟨s.fs, Function.update s.phase i p⟩ k q := by
      rintro p rfl
      refine ⟨h.resolve, ?_, fun j hj => ?_⟩
      · simpa [hik.symm] using h.holder
      · rcases eq_or_ne j i with rfl | hji
        · exact Or.inr (Or.inr (Function.update_self ..))
        · simpa [hji] using h.others j hj
    rcases h.others i hik with hp | hp | hp
    · rcases checkPut_cases s.fs P.files_root P.relpath with ⟨-, he, -⟩ | ⟨-, -, hc⟩ | ⟨hno, -⟩
      · rw [hexists] at he
        cases he
      · have hstep : P.step s i = ⟨s.fs, Function.update s.phase i (.done conflict)⟩ := by
          simp [Posts.step, postStep, hp, hc]
        rw [hstep]
        exact hquiet _ rfl
      · exact absurd (hok.check hp) hno
    · have habsent := (hok.opens false hp).1
      rw [hexists] at habsent
      cases habsent
    · have hstep : P.step s i = ⟨s.fs, Function.update s.phase i (.done conflict)⟩ := by
        simp [Posts.step, postStep, hp]
      rw [hstep]
      exact hquiet _ rfl

theorem Orderly.step (h : Orderly P s) (hok : OpensNew P s i) : Orderly P (P.step s i) := by
  rcases h with h | ⟨k, q, h⟩
  · exact h.step hok
  · exact Or.inr ⟨k, q, h.step hok⟩

omit [DecidableEq ι] in
theorem Orderly.createsOnce (h : Orderly P s) : CreatesOnce P s := by
  rcases h with h | ⟨k, q, h⟩
  · constructor
    · intro i resp hi
      rcases h.phases i with hp | hp <;> simp [hp] at hi
    · intro i hi
      rcases h.phases i with hp | hp <;> simp [hp] at hi
  have hk : ∀ i, s.phase i = .done created → i = k := by
    intro i hi
    by_contra hik
    rcases h.others i hik with hp | hp | hp
    · simp [hp] at hi
    · simp [hp] at hi
    · rw [hp] at hi
      exact created_ne_conflict (PostPhase.done.inj hi).symm
  constructor
  · intro i resp hi
    rcases eq_or_ne i k with rfl | hik
    · rcases h.holder with ⟨hp, -⟩ | ⟨hp, -⟩
      · simp [hp] at hi
      · rw [hp] at hi
        exact Or.inl (PostPhase.done.inj hi).symm
    · rcases h.others i hik with hp | hp | hp
      · simp [hp] at hi
      · simp [hp] at hi
      · rw [hp] at hi
        exact Or.inr (PostPhase.done.inj hi).symm
  · intro i hi
    obtain rfl := hk i hi
    refine ⟨?_, hk⟩
    rcases h.holder with ⟨hp, -⟩ | ⟨-, he⟩
    · simp [hp] at hi
    · exact read_of_file h.resolve he

/-- The request has opened the file and answers 201. -/
def Creating (p : PostPhase) : Prop := (∃ q, p = .opened false q) ∨ p = .done created

/-- An answer that is neither 201 nor 409, or two requests on the way to 201. -/
def Broken (s : PostState ι) : Prop :=
  (∃ i resp, s.phase i = .done resp ∧ resp ≠ created ∧ resp ≠ conflict) ∨
    ∃ i j, i ≠ j ∧ Creating (s.phase i) ∧ Creating (s.phase j)

theorem phase_step_of_ne {j : ι} (h : j ≠ i) : (P.step s i).phase j = s.phase j := by
  simp [Posts.step, h]

theorem done_step {j : ι} {resp : Bytes} (h : s.phase j = .done resp) :
    (P.step s i).phase j = .done resp := by
  rcases eq_or_ne j i with rfl | hj
  · simp [Posts.step, postStep, h]
  · rw [phase_step_of_ne hj, h]

theorem Creating.step {j : ι} (h : Creating (s.phase j)) : Creating ((P.step s i).phase j) := by
  rcases eq_or_ne j i with rfl | hj
  · rcases h with ⟨q, hq⟩ | hd
    · exact Or.inr (by simp [Posts.step, postStep, hq, created])
    · exact Or.inr (done_step hd)
  · rwa [phase_step_of_ne hj]

theorem Broken.step (h : Broken s) (i : ι) : Broken (P.step s i) := by
  rcases h with ⟨j, resp, hj, hresp⟩ | ⟨j, l, hjl, hj, hl⟩
  · exact Or.inl ⟨j, resp, done_step hj, hresp⟩
  · exact Or.inr ⟨j, l, hjl, hj.step, hl.step⟩

/-- The file is there only where a request has opened it, and none has seen it. -/
structure Tracked (P : Posts ι) (s : PostState ι) : Prop where
  unseen : ∀ i, s.phase i ≠ .checked true ∧ ∀ q, s.phase i ≠ .opened true q
  opener : s.fs.exists P.relpath = .ok true → ∃ i, Creating (s.phase i)

theorem Tracked.update (h : Tracked P s) {p : PostPhase} (hp : p ≠ .checked true)
    (hp' : ∀ q, p ≠ .opened true q) {fs : FileSystem}
    (hopener : fs.exists P.relpath = .ok true → ∃ j, Creating (Function.update s.phase i p j)) :
    Tracked P ⟨fs, Function.update s.phase i p⟩ := by
  refine ⟨fun j => ?_, hopener⟩
  rcases eq_or_ne j i with rfl | hj
  · simpa using ⟨hp, hp'⟩
  · simpa [hj] using h.unseen j

theorem Tracked.quiet (h : Tracked P s) {p : PostPhase} (hp : p ≠ .checked true)
    (hp' : ∀ q, p ≠ .opened true q) (hstep : P.step s i = ⟨s.fs, Function.update s.phase i p⟩) :
    Tracked P (P.step s i) := by
  rw [hstep]
  apply h.update hp hp'
  intro he
  obtain ⟨j, hj⟩ := h.opener he
  have hj' := hj.step (P := P) (i := i)
  rw [hstep] at hj'
  exact ⟨j, hj'⟩

theorem Tracked.step_waiting (h : Tracked P s) (hp : s.phase i = .waiting) :
    Tracked P (P.step s i) ∧ (¬ OpensNew P s i → Broken (P.step s i)) := by
  rcases checkPut_cases s.fs P.files_root P.relpath with
    ⟨hroot, he, hc⟩ | ⟨hroot, he, hc⟩ | ⟨hno, hc⟩
  · have hstep : P.step s i = ⟨s.fs, Function.update s.phase i (.checked false)⟩ := by
      simp [Posts.step, postStep, hp, hc]
    exact ⟨h.quiet (by simp) (by simp) hstep, fun hbad => absurd (opensNew_check hp hroot he) hbad⟩
  · have hstep : P.step s i = ⟨s.fs, Function.update s.phase i (.done conflict)⟩ := by
      simp [Posts.step, postStep, hp, hc]
    exact ⟨h.quiet (by simp) (by simp) hstep, fun hbad => absurd (opensNew_check hp hroot he) hbad⟩
  · obtain ⟨e, hc, he⟩ : ∃ e, checkPut s.fs P.files_root P.relpath false = .error e ∧
        (e ≠ created ∧ e ≠ conflict) := by
      rcases hc with hc | hc
      · exact ⟨_, hc, by decide⟩
      · exact ⟨_, hc, by decide⟩
    have hstep : P.step s i = ⟨s.fs, Function.update s.phase i (.done e)⟩ := by
      simp [Posts.step, postStep, hp, hc]
    refine ⟨h.quiet (by simp) (by simp) hstep, fun _ => ?_⟩
    rw [hstep]
    exact Or.inl ⟨i, e, Function.update_self .., he⟩

theorem Tracked.step_checked (h : Tracked P s) (hp : s.phase i = .checked false) :
    Tracked P (P.step s i) ∧ (¬ OpensNew P s i → Broken (P.step s i)) := by
  rcases ho : s.fs.openTarget P.relpath with e | q
  · have hstep : P.step s i = ⟨s.fs, Function.update s.phase i (.done internalError)⟩ := by
      simp [Posts.step, postStep, hp, openTrunc, ho]
    refine ⟨h.quiet (by simp) (by simp) hstep, fun _ => ?_⟩
    rw [hstep]
    exact Or.inl ⟨i, internalError, Function.update_self .., by decide⟩
  · have hstep : P.step s i =
        ⟨s.fs.set q (.file []), Function.update s.phase i (.opened false q)⟩ := by
      simp [Posts.step, postStep, hp, openTrunc, ho]
    have hi : Creating (Function.update s.phase i (.opened false q) i) :=
      Or.inl ⟨q, Function.update_self ..⟩
    rw [hstep]
    refine ⟨h.update (by simp) (by simp) fun _ => ⟨i, hi⟩, fun hbad => ?_⟩
    -- what can be opened is there or missing, and a request has put it there
    have hexists : s.fs.exists P.relpath = .ok true := by
      rcases openTarget_eq_ok.mp ho with ⟨d, n, hl, -⟩ | ⟨data, hr, -⟩
      · have habsent : s.fs.exists P.relpath = .ok false := by
          simp [FileSystem.exists, status_of_missing hl, bind, Except.bind, pure, Except.pure]
        exact absurd (opensNew_open hp habsent ho) hbad
      · exact exists_of_resolve hr
    obtain ⟨j, hj⟩ := h.opener hexists
    have hji : j ≠ i := by
      rintro rfl
      rcases hj with ⟨q, hq⟩ | hd
      · simp [hp] at hq
      · simp [hp] at hd
    have hj' : Creating (Function.update s.phase i (.opened false q) j) := by simpa [hji] using hj
    exact Or.inr ⟨j, i, hji, hj', hi⟩

theorem Tracked.step_opened (h : Tracked P s) {q : RealPath} (hp : s.phase i = .opened false q) :
    Tracked P (P.step s i) ∧ (¬ OpensNew P s i → Broken (P.step s i)) := by
  have hstep : P.step s i =
      ⟨writeAt s.fs q (P.body i), Function.update s.phase i (.done created)⟩ := by
    simp [Posts.step, postStep, hp, created]
  refine ⟨?_, fun hbad => absurd (opensNew_write hp) hbad⟩
  rw [hstep]
  exact h.update (by simp) (by simp) fun _ => ⟨i, Or.inr (Function.update_self ..)⟩

theorem Tracked.step (h : Tracked P s) (i : ι) :
    Tracked P (P.step s i) ∧ (¬ OpensNew P s i → Broken (P.step s i)) := by
  cases hp : s.phase i with
  | waiting => exact h.step_waiting hp
  | checked exist =>
    rcases exist with _ | _
    · exact h.step_checked hp
    · exact absurd hp (h.unseen i).1
  | opened exist q =>
    rcases exist with _ | _
    · exact h.step_opened hp
    · exact absurd hp ((h.unseen i).2 q)
  | done resp =>
    have hstep : P.step s i = ⟨s.fs, Function.update s.phase i (.done resp)⟩ := by
      simp [Posts.step, postStep, hp]
    exact ⟨h.quiet (by simp) (by simp) hstep, fun hbad => absurd ⟨by simp [hp], by simp [hp]⟩ hbad⟩

theorem Tracked.broken_run (h : Tracked P s) {acts : List ι}
    (hbad : ¬ Runs.AllOk P.step (OpensNew P) s acts) : Broken (Runs.run P.step s acts) := by
  induction acts generalizing s with
  | nil => exact absurd Runs.allOk_nil hbad
  | cons i acts ih =>
    obtain ⟨h', hbroken⟩ := h.step i
    rw [Runs.allOk_cons] at hbad
    rw [Runs.run_cons]
    by_cases hi : OpensNew P s i
    · exact ih h' fun hok => hbad ⟨hi, hok⟩
    · exact Runs.invariant_run (I := Broken) (fun s i hs => hs.step i) (hbroken hi) acts

omit [DecidableEq ι] in
theorem Broken.not_createsOnce (h : Broken s) (hdone : Completed s) : ¬ CreatesOnce P s := by
  intro ⟨hanswers, honce⟩
  rcases h with ⟨i, resp, hi, hne⟩ | ⟨i, j, hij, hi, hj⟩
  · exact (hanswers i resp hi).elim hne.1 hne.2
  · have hcreated : ∀ k, Creating (s.phase k) → s.phase k = .done created := by
      rintro k (⟨q, hq⟩ | hk)
      · rcases hdone k with hp | ⟨resp, hp⟩ <;> simp [hp] at hq
      · exact hk
    exact hij ((honce j (hcreated j hj)).2 i (hcreated i hi))

/-- On a path that leads to nothing at the start: while every check finds the path inside the root
and every open finds no file, at most one request has 201 and every other answer is 409, in every
state. A run at whose end this holds, with every request answered, is of that kind. -/
theorem createsOnce_iff (P : Posts ι) (fs : FileSystem) (hnew : fs.exists P.relpath ≠ .ok true)
    (acts : List ι) :
    (Runs.AllOk P.step (OpensNew P) (start fs) acts →
      Runs.Throughout P.step (CreatesOnce P) (start fs) acts) ∧
    (Completed (Runs.run P.step (start fs) acts) →
      (CreatesOnce P (Runs.run P.step (start fs) acts) ↔
        Runs.AllOk P.step (OpensNew P) (start fs) acts)) := by
  have horderly : Orderly P (start fs) := Or.inl ⟨hnew, fun _ => Or.inl rfl⟩
  have htracked : Tracked P (start fs) := ⟨fun i => by simp [start], fun he => absurd he hnew⟩
  have hthroughout : Runs.AllOk P.step (OpensNew P) (start fs) acts →
      Runs.Throughout P.step (CreatesOnce P) (start fs) acts := by
    intro hok
    have hall := hok.throughout (I := Orderly P) (fun s i hs hi => hs.step hi) horderly
    exact hall.imp fun s hs => hs.createsOnce
  refine ⟨hthroughout, fun hdone => ⟨fun honce => ?_, fun hok => ?_⟩⟩
  · by_contra hbad
    exact (htracked.broken_run hbad).not_createsOnce hdone honce
  · exact hthroughout hok acts (List.prefix_refl acts)

def hatAndCap : Posts Bool where
  files_root := text "root"
  relpath := text "root/new"
  body
    | false => text "hat"
    | true => text "cap"

def bothChecked : List Bool := [false, true, false, false, true, true]

theorem not_createsOnce_bothChecked :
    smallTree.exists hatAndCap.relpath ≠ .ok true ∧
    Completed (Runs.run hatAndCap.step (start smallTree) bothChecked) ∧
    (∀ i, (Runs.run hatAndCap.step (start smallTree) bothChecked).phase i = .done created) ∧
    ¬ CreatesOnce hatAndCap (Runs.run hatAndCap.step (start smallTree) bothChecked) := by
  have hcreated : ∀ i, (Runs.run hatAndCap.step (start smallTree) bothChecked).phase i =
      .done created := by decide +kernel
  refine ⟨by decide +kernel, fun i => Or.inr ⟨_, hcreated i⟩, hcreated, fun h => ?_⟩
  exact Bool.false_ne_true ((h.2 true (hcreated true)).2 false (hcreated false))

theorem createsOnce_inTurn :
    smallTree.exists hatAndCap.relpath ≠ .ok true ∧
    Runs.AllOk hatAndCap.step (OpensNew hatAndCap) (start smallTree) [false, false, false, true] ∧
    CreatesOnce hatAndCap
      (Runs.run hatAndCap.step (start smallTree) [false, false, false, true]) := by
  have hnew : smallTree.exists hatAndCap.relpath ≠ .ok true := by decide +kernel
  have hfirst : OpensNew hatAndCap (start smallTree) false := by
    have he : smallTree.exists hatAndCap.relpath = .ok false := by decide +kernel
    exact opensNew_check rfl (by decide +kernel) he
  have hopen : OpensNew hatAndCap (Runs.run hatAndCap.step (start smallTree) [false]) false := by
    have hp : (Runs.run hatAndCap.step (start smallTree) [false]).phase false = .checked false := by
      decide +kernel
    have hq : (Runs.run hatAndCap.step (start smallTree) [false]).fs.openTarget hatAndCap.relpath =
      .ok [text "srv", text "root", text "new"] := by decide +kernel
    exact opensNew_open hp (by decide +kernel) hq
  have hwrite : OpensNew hatAndCap
      (Runs.run hatAndCap.step (start smallTree) [false, false]) false := by
    have hp : (Runs.run hatAndCap.step (start smallTree) [false, false]).phase false =
      .opened false [text "srv", text "root", text "new"] := by decide +kernel
    exact opensNew_write hp
  have hsecond : OpensNew hatAndCap
      (Runs.run hatAndCap.step (start smallTree) [false, false, false]) true := by
    have he : (Runs.run hatAndCap.step (start smallTree) [false, false, false]).fs.exists
      hatAndCap.relpath = .ok true := by decide +kernel
    exact opensNew_check (by decide +kernel) (by decide +kernel) he
  have hok : Runs.AllOk hatAndCap.step (OpensNew hatAndCap) (start smallTree)
      [false, false, false, true] := by
    rw [Runs.allOk_cons, Runs.allOk_cons, Runs.allOk_cons, Runs.allOk_cons]
    exact ⟨hfirst, hopen, hwrite, hsecond, Runs.allOk_nil⟩
  exact ⟨hnew, hok, (createsOnce_iff hatAndCap smallTree hnew _).1 hok _ (List.prefix_refl _)⟩

end Posts
end SemanticSearch
