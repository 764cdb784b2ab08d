import SemanticSearch.MutationEffects
import SemanticSearch.Runs

namespace SemanticSearch

open FileSystem

variable {V ι : Type}

/-- `StaticPut` up to the write: the answer of a refusal, or whether the path existed. -/
def checkPut (fs : FileSystem) (filesRoot relpath : Bytes) (overwrite : Bool) : Except Bytes Bool :=
  match checkWithinRoot fs filesRoot relpath with
  | .error _ => .error internalError
  | .ok error1 =>
    if error1 ≠ [] then .error error1
    else match fs.exists relpath with
      | .error _ => .error internalError
      | .ok exist =>
        if exist && !overwrite then
          .error (makeResponse kHttpConflict (text "<h1>409 Conflict</h1>") (text "text/html")
            (text "Conflict"))
        else .ok exist

/-- The write of `StaticPut` and its answer. -/
def putFile (fs : FileSystem) (relpath data : Bytes) (exist : Bool) : Bytes × FileSystem :=
  let (error2, fs') := writeFile fs relpath data
  (if error2 ≠ [] then error2 else putDone exist, fs')

/-- `StaticDelete` up to the removal: the answer of a refusal, if it is refused. -/
def checkDelete (fs : FileSystem) (filesRoot relpath : Bytes) : Except Bytes Unit :=
  match checkWithinRoot fs filesRoot relpath with
  | .error _ => .error internalError
  | .ok error1 =>
    if error1 ≠ [] then .error error1
    else match fs.exists relpath with
      | .error _ => .error internalError
      | .ok false => .error notFound
      | .ok true =>
        match fs.isRegularFile relpath with
        | .error _ => .error internalError
        | .ok false => .error notFound
        | .ok true => .ok ()
where
  notFound := makeResponse kHttpNotFound (text "<h1>404 Not Found</h1>") (text "text/html")
    (text "Not Found")

/-- The removal of `StaticDelete` and its answer. -/
def deleteFile (fs : FileSystem) (relpath : Bytes) : Bytes × FileSystem :=
  match fs.unlink relpath with
  | .error _ => (internalError, fs)
  | .ok fs' => (deleteDone, fs')

/-- How far a request is. Behind the change of the file it carries its answer. -/
inductive Phase
  | waiting
  | checked (exist : Bool)
  | changed (resp : Bytes)
  | indexed (resp : Bytes)
  | done (resp : Bytes)
  deriving DecidableEq, Repr

def relOf (r : Request) : Bytes := r.path.drop 8

def checkFile (ctx : ClientCtx V) (r : Request) (fs : FileSystem) : Phase :=
  if r.method = text "PUT" ∨ r.method = text "POST" then
    match checkPut fs ctx.files_root (relOf r) (overwrites r) with
    | .error resp => .done resp
    | .ok exist => .checked exist
  else if r.method = text "DELETE" then
    match checkDelete fs ctx.files_root (relOf r) with
    | .error resp => .done resp
    | .ok () => .checked true
  else
    .done (makeResponse kHttpNotImplemented (text "Not Implemented") (text "text/plain")
      (text "Not Implemented"))

def changeFile (r : Request) (exist : Bool) (fs : FileSystem) : Bytes × FileSystem :=
  if r.method = text "DELETE" then deleteFile fs (relOf r) else putFile fs (relOf r) r.body exist

/-- `AddFile` or `RemoveFile`, under the exclusive lock. -/
def updateIndex (r : Request) (fs : FileSystem) (index : InvertedIndex) : InvertedIndex :=
  if r.method = text "DELETE" then InvertedIndex.removeFile (relOf r) index
  else InvertedIndex.addFile fs.view (relOf r) index

/-- `AddDoc` or `RemoveDoc`. -/
def updateVec (ctx : ClientCtx V) (r : Request) (vec : V) : V :=
  if r.method = text "DELETE" then ctx.removeDoc (relOf r) vec else ctx.addDoc (relOf r) r.body vec

def clientStep (ctx : ClientCtx V) (r : Request) (w : World V) : Phase → Phase × World V
  | .waiting => (checkFile ctx r w.fs, w)
  | .checked exist =>
    let (resp, fs) := changeFile r exist w.fs
    (if succeeded resp then .changed resp else .done resp, { w with fs })
  | .changed resp => (.indexed resp, { w with index := updateIndex r w.fs w.index })
  | .indexed resp => (.done resp, { w with vec := updateVec ctx r w.vec })
  | .done resp => (.done resp, w)

theorem staticPut_eq (fs : FileSystem) (filesRoot relpath data : Bytes) (overwrite : Bool) :
    staticPut fs filesRoot relpath data overwrite =
      match checkPut fs filesRoot relpath overwrite with
      | .error e => (e, fs)
      | .ok exist => putFile fs relpath data exist := by
  unfold staticPut staticPutWith tryPut checkPut putFile
  rcases checkWithinRoot fs filesRoot relpath with e | error1
  · rfl
  by_cases h1 : error1 = []
  · rcases fs.exists relpath with e | exist
    · simp [h1, bind, Except.bind]
    by_cases hm : (exist && !overwrite) = true
    · simp only [h1, hm, bind, Except.bind]
      rfl
    · simp only [h1, hm, bind, Except.bind]
      rcases writeFile fs relpath data with ⟨error2, fs'⟩
      by_cases h2 : error2 = []
      · simp [h2, putDone, pure, Except.pure]
      · simp [h2, pure, Except.pure]
  · simp [h1, bind, Except.bind, pure, Except.pure]

theorem staticDelete_eq (fs : FileSystem) (filesRoot relpath : Bytes) :
    staticDelete fs filesRoot relpath =
      match checkDelete fs filesRoot relpath with
      | .error e => (e, fs)
      | .ok () => deleteFile fs relpath := by
  -- where nothing exists there is no regular file either
  have hr : fs.exists relpath = .ok false → fs.isRegularFile relpath = .ok false := by
    intro he
    simp only [FileSystem.exists, FileSystem.isRegularFile, bind, Except.bind] at he ⊢
    cases hs : fs.status relpath with
    | error e => simp [hs] at he
    | ok entry =>
      obtain rfl : entry = none := by simpa [hs, pure, Except.pure] using he
      rfl
  unfold staticDelete tryDelete checkDelete deleteFile
  rcases checkWithinRoot fs filesRoot relpath with e | error1
  · rfl
  by_cases h1 : error1 = []
  · rcases he : fs.exists relpath with e | _ | _
    · simp [h1, bind, Except.bind]
    · simp [h1, hr he, bind, Except.bind, pure, Except.pure, checkDelete.notFound]
    · rcases fs.isRegularFile relpath with e | _ | _
      · simp [h1, bind, Except.bind]
      · simp [h1, bind, Except.bind, pure, Except.pure, checkDelete.notFound]
      · rcases fs.unlink relpath with e | fs' <;>
          simp [h1, bind, Except.bind, pure, Except.pure, deleteDone]
  · simp [h1, bind, Except.bind, pure, Except.pure]

/-- A refusal by the check of the root is no success, so what stands behind it decides. -/
theorem not_succeeded_rootCheck {α : Type} {fs : FileSystem} {filesRoot relpath e : Bytes}
    {rest : Except Bytes α} (hrest : rest = .error e → succeeded e = false)
    (h : (match checkWithinRoot fs filesRoot relpath with
      | .error _ => Except.error internalError
      | .ok error1 => if error1 ≠ [] then Except.error error1 else rest) = .error e) :
    succeeded e = false := by
  rcases hc : checkWithinRoot fs filesRoot relpath with er | error1 <;> simp only [hc] at h
  · rw [← Except.error.inj h]
    exact not_succeeded_internalError
  split_ifs at h with h1
  · obtain rfl : error1 = e := Except.error.inj h
    rw [(checkWithinRoot_answer hc).resolve_left h1]
    exact not_succeeded_forbidden
  · exact hrest h

theorem not_succeeded_checkPut {fs : FileSystem} {filesRoot relpath e : Bytes} {overwrite : Bool}
    (h : checkPut fs filesRoot relpath overwrite = .error e) : succeeded e = false := by
  unfold checkPut at h
  refine not_succeeded_rootCheck (fun h => ?_) h
  rcases hx : fs.exists relpath with er | exist <;> simp only [hx] at h
  · rw [← Except.error.inj h]
    exact not_succeeded_internalError
  · split_ifs at h
    rw [← Except.error.inj h]
    exact not_succeeded_conflict

theorem not_succeeded_checkDelete {fs : FileSystem} {filesRoot relpath e : Bytes}
    (h : checkDelete fs filesRoot relpath = .error e) : succeeded e = false := by
  unfold checkDelete at h
  refine not_succeeded_rootCheck (fun h => ?_) h
  rcases hx : fs.exists relpath with er | _ | _ <;> simp only [hx] at h
  · rw [← Except.error.inj h]
    exact not_succeeded_internalError
  · rw [← Except.error.inj h]
    exact not_succeeded_notFound
  rcases hf : fs.isRegularFile relpath with er | _ | _ <;> simp only [hf] at h
  · rw [← Except.error.inj h]
    exact not_succeeded_internalError
  · rw [← Except.error.inj h]
    exact not_succeeded_notFound
  · simp at h

theorem clientStep_alone (ctx : ClientCtx V) (r : Request) (w : World V) :
    (fun x : Phase × World V => clientStep ctx r x.2 x.1)^[4] (.waiting, w) =
      (.done (handleStaticMutation ctx r w).1, (handleStaticMutation ctx r w).2) := by
  by_cases hput : r.method = text "PUT" ∨ r.method = text "POST"
  · have hnd : r.method ≠ text "DELETE" := by
      rcases hput with hput | hput <;> rw [hput] <;> decide
    rw [handleStaticMutation_put hput, putAndIndex, staticPut_eq]
    rcases hc : checkPut w.fs ctx.files_root (r.path.drop 8) (overwrites r) with e | exist
    · simp [clientStep, checkFile, hput, relOf, hc, not_succeeded_checkPut hc]
    · rcases hp : putFile w.fs (r.path.drop 8) r.body exist with ⟨resp, fs'⟩
      by_cases hs : succeeded resp = true
      · simp [clientStep, checkFile, hput, relOf, hc, changeFile, hnd, hp, hs, updateIndex, updateVec]
      · simp [clientStep, checkFile, hput, relOf, hc, changeFile, hnd, hp, hs]
  have hput' := not_or.mp hput
  by_cases hd : r.method = text "DELETE"
  · have hne : text "DELETE" ≠ text "PUT" ∧ text "DELETE" ≠ text "POST" := by decide
    simp only [handleStaticMutation, hd, hne.1, hne.2, if_false, if_true, staticDelete_eq]
    rcases hc : checkDelete w.fs ctx.files_root (r.path.drop 8) with e | _
    · simp [clientStep, checkFile, hd, hne, relOf, hc, not_succeeded_checkDelete hc]
    · rcases hp : deleteFile w.fs (r.path.drop 8) with ⟨resp, fs'⟩
      by_cases hs : succeeded resp = true
      · simp [clientStep, checkFile, hd, hne, relOf, hc, changeFile, hp, hs, updateIndex, updateVec]
      · simp [clientStep, checkFile, hd, hne, relOf, hc, changeFile, hp, hs]
  · simp [clientStep, checkFile, handleStaticMutation, hput'.1, hput'.2, hd]

/-- The change that a request makes to the files. -/
inductive Changes (r : Request) (fs : FileSystem) : FileSystem → Prop
  | put (q : RealPath) (hm : r.method ≠ text "DELETE") (h : fs.openTarget (relOf r) = .ok q) :
    Changes r fs (fs.set q (.file r.body))
  | delete (q : RealPath) (hm : r.method = text "DELETE") (h : fs.entryPath (relOf r) = .ok q)
    (hdir : fs.entries[q]? ≠ some .dir) (hnone : fs.entries[q]? ≠ none) : Changes r fs (fs.remove q)

theorem clientStep_checked (ctx : ClientCtx V) (r : Request) (w : World V) (exist : Bool) :
    (∃ resp, clientStep ctx r w (.checked exist) = (.done resp, w)) ∨
      ∃ resp fs', Changes r w.fs fs' ∧
        clientStep ctx r w (.checked exist) = (.changed resp, { w with fs := fs' }) := by
  by_cases hm : r.method = text "DELETE"
  · rcases hu : w.fs.unlink (relOf r) with e | fs'
    · left
      simp [clientStep, changeFile, hm, deleteFile, hu, not_succeeded_internalError]
    · right
      refine ⟨deleteDone, fs', ?_, by
        simp [clientStep, changeFile, hm, deleteFile, hu, succeeded_deleteDone]⟩
      -- `unlink` has found an entry that is no directory
      simp only [unlink, bind, Except.bind] at hu
      rcases he : w.fs.entryPath (relOf r) with e | q
      · simp [he] at hu
      rcases hq : w.fs.entries[q]? with _ | e
      · simp [he, hq] at hu
      have hdir : w.fs.entries[q]? ≠ some .dir := by
        intro hdir
        simp [he, hdir] at hu
      obtain rfl : w.fs.remove q = fs' := by
        cases e with
        | dir => exact absurd hq hdir
        | file data => simpa [he, hq, pure, Except.pure] using hu
        | link t => simpa [he, hq, pure, Except.pure] using hu
      exact Changes.delete q hm he hdir (by simp [hq])
  · rcases ho : w.fs.openTarget (relOf r) with e | q
    · left
      have h0 : internalError ≠ [] := by decide
      simp [clientStep, changeFile, hm, putFile, writeFile, ho, h0, not_succeeded_internalError]
    · right
      exact ⟨putDone exist, _, Changes.put q hm ho, by
        simp [clientStep, changeFile, hm, putFile, writeFile, ho, succeeded_putDone]⟩

theorem Changes.changedAt {r : Request} {fs fs' : FileSystem} {q : RealPath} (h : Changes r fs fs')
    (hfree : fs.LinkFree) (hq : ∀ t, fs.openTarget (relOf r) = .ok t → t = q) :
    ChangedAt fs fs' q := by
  cases h with
  | put t hm ht =>
    rw [← hq t ht]
    exact changedAt_set hfree (canSet_of_openTarget ht) r.body
  | delete t hm ht hdir hnone =>
    obtain ⟨data, hd⟩ : ∃ data, fs.entries[t]? = some (.file data) := by
      rcases he : fs.entries[t]? with _ | ⟨data | _ | l⟩
      · exact absurd he hnone
      · exact ⟨data, rfl⟩
      · exact absurd he hdir
      · exact absurd he (hfree t l)
    have hopen : fs.openTarget (relOf r) = .ok t :=
      openTarget_eq_ok.mpr (Or.inr ⟨data, hfree.resolve_of_entryPath ht hd, hd⟩)
    rw [← hq t hopen]
    exact changedAt_remove hfree hdir

structure Sys (V ι : Type) where
  world : World V
  phase : ι → Phase

variable [DecidableEq ι]

/-- The requests `job` and the embed service, whose background step sees the files. -/
structure Program (V ι : Type) where
  ctx : ClientCtx V
  background : FileSystem → V → V
  job : ι → Request

/-- A step of the request `i`, or of the embed service. -/
def Program.step (P : Program V ι) (s : Sys V ι) : Option ι → Sys V ι
  | none => { s with world := { s.world with vec := P.background s.world.fs s.world.vec } }
  | some i =>
    let (p, w) := clientStep P.ctx (P.job i) s.world (s.phase i)
    ⟨w, Function.update s.phase i p⟩

/-- Every request that has begun is answered. -/
def Sys.Completed (s : Sys V ι) : Prop :=
  ∀ i, s.phase i = .waiting ∨ ∃ resp, s.phase i = .done resp

/-- The file is changed and the update of the index is still to come. -/
def Phase.IndexDue : Phase → Prop
  | .changed _ => True
  | _ => False

/-- The file is changed and the message to the embed service is still to come. -/
def Phase.VecDue : Phase → Prop
  | .changed _ => True
  | .indexed _ => True
  | _ => False

theorem Phase.IndexDue.vecDue {p : Phase} (h : p.IndexDue) : p.VecDue := by
  cases p with
  | changed resp => trivial
  | waiting => exact h
  | checked exist => exact h
  | indexed resp => trivial
  | done resp => exact h

/-- The step of a request is quiet, or changes the files, or the index, or the service. -/
theorem Program.step_cases (P : Program V ι) (s : Sys V ι) (i : ι) :
    (∃ p, ¬ (s.phase i).VecDue ∧
      P.step s (some i) = ⟨s.world, Function.update s.phase i p⟩) ∨
    (∃ fs' resp, ¬ (s.phase i).VecDue ∧ Changes (P.job i) s.world.fs fs' ∧
      P.step s (some i) =
        ⟨{ s.world with fs := fs' }, Function.update s.phase i (.changed resp)⟩) ∨
    (∃ resp, s.phase i = .changed resp ∧ P.step s (some i) =
      ⟨{ s.world with index := updateIndex (P.job i) s.world.fs s.world.index },
        Function.update s.phase i (.indexed resp)⟩) ∨
    ∃ resp, s.phase i = .indexed resp ∧ P.step s (some i) =
      ⟨{ s.world with vec := updateVec P.ctx (P.job i) s.world.vec },
        Function.update s.phase i (.done resp)⟩ := by
  cases hp : s.phase i with
  | waiting =>
    left
    exact ⟨checkFile P.ctx (P.job i) s.world.fs, id, by simp [Program.step, clientStep, hp]⟩
  | checked exist =>
    rcases clientStep_checked P.ctx (P.job i) s.world exist with
      ⟨resp, hc⟩ | ⟨resp, fs', hchange, hc⟩
    · left
      exact ⟨.done resp, id, by simp [Program.step, hp, hc]⟩
    · right; left
      exact ⟨fs', resp, id, hchange, by simp [Program.step, hp, hc]⟩
  | changed resp =>
    right; right; left
    exact ⟨resp, rfl, by simp [Program.step, clientStep, hp]⟩
  | indexed resp =>
    right; right; right
    exact ⟨resp, rfl, by simp [Program.step, clientStep, hp]⟩
  | done resp =>
    left
    exact ⟨.done resp, id, by simp [Program.step, clientStep, hp]⟩

/-- Some request for `path` is in a phase in which something is due. -/
def DueAt (due : Phase → Prop) (job : ι → Request) (phase : ι → Phase) (path : Bytes) : Prop :=
  ∃ i, due (phase i) ∧ relOf (job i) = path

section Due

variable {due : Phase → Prop} {job : ι → Request} {phase : ι → Phase} {i : ι} {p : Phase}
  {path : Bytes}

theorem dueAt_update : DueAt due job (Function.update phase i p) path ↔
    due p ∧ relOf (job i) = path ∨ ∃ j, j ≠ i ∧ due (phase j) ∧ relOf (job j) = path := by
  constructor
  · intro ⟨j, hj, hpath⟩
    by_cases hji : j = i
    · subst hji
      exact Or.inl ⟨by simpa using hj, hpath⟩
    · exact Or.inr ⟨j, hji, by simpa [hji] using hj, hpath⟩
  · intro h
    cases h with
    | inl h => exact ⟨i, by simpa using h.1, h.2⟩
    | inr h =>
      obtain ⟨j, hji, hj, hpath⟩ := h
      exact ⟨j, by simpa [hji] using hj, hpath⟩

theorem not_dueAt_of_update (hi : ¬ due (phase i) ∨ relOf (job i) ≠ path)
    (h : ¬ DueAt due job (Function.update phase i p) path) : ¬ DueAt due job phase path := by
  intro ⟨j, hj, hpath⟩
  apply h
  rw [dueAt_update]
  right
  refine ⟨j, ?_, hj, hpath⟩
  intro hji
  subst hji
  cases hi with
  | inl hi => exact hi hj
  | inr hi => exact hi hpath

omit [DecidableEq ι] in
theorem Sys.Completed.not_dueAt {s : Sys V ι} (h : s.Completed) (hw : ¬ due .waiting)
    (hd : ∀ resp, ¬ due (.done resp)) : ¬ DueAt due job s.phase path := by
  intro ⟨i, hi, _⟩
  cases h i with
  | inl hp => exact hw (hp ▸ hi)
  | inr hp =>
    obtain ⟨resp, hp⟩ := hp
    exact hd resp (hp ▸ hi)

end Due

end SemanticSearch
