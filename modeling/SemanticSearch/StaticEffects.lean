import SemanticSearch.StaticFile

namespace SemanticSearch

open FileSystem

variable {fs : FileSystem} {filesRoot relpath data : Bytes} {overwrite : Bool}

theorem forbidden_ne_nil : forbidden ≠ [] := by decide

theorem checkWithinRoot_answer {e : Bytes} (h : checkWithinRoot fs filesRoot relpath = .ok e) :
    e = [] ∨ e = forbidden := by
  by_cases h0 : filesRoot = []
  · simp only [checkWithinRoot, if_pos h0] at h
    exact Or.inl (Except.ok.inj h).symm
  rcases hr : fs.canonical filesRoot with er | r
  · simp only [checkWithinRoot, if_neg h0, hr, bind, Except.bind] at h
    cases h
  rcases ht : fs.weaklyCanonical relpath with et | t
  · simp only [checkWithinRoot, if_neg h0, hr, ht, bind, Except.bind] at h
    cases h
  simp only [checkWithinRoot, if_neg h0, hr, ht, bind, Except.bind] at h
  split_ifs at h
  · exact Or.inr (Except.ok.inj h).symm
  · exact Or.inl (Except.ok.inj h).symm

/-- The request passes the check, may write, and opens the file at `q`; `existed` tells
whether the path led to something before. -/
structure PutAccepted (fs : FileSystem) (filesRoot relpath : Bytes) (overwrite : Bool)
    (q : RealPath) (existed : Bool) : Prop where
  check : checkWithinRoot fs filesRoot relpath = .ok []
  exist : fs.exists relpath = .ok existed
  may : (existed && !overwrite) = false
  target : fs.openTarget relpath = .ok q

def putDone (existed : Bool) : Bytes :=
  if existed then makeResponse kHttpOk [] (text "text/plain") (text "OK")
  else makeResponse kHttpCreated [] (text "text/plain") (text "Created")

theorem succeeded_putDone (existed : Bool) : succeeded (putDone existed) := by
  cases existed <;> decide

theorem not_succeeded_forbidden : succeeded forbidden = false := by decide +kernel

theorem not_succeeded_internalError : succeeded internalError = false := by decide +kernel

theorem not_succeeded_conflict : succeeded (makeResponse kHttpConflict
    (text "<h1>409 Conflict</h1>") (text "text/html") (text "Conflict")) = false := by decide +kernel

theorem not_succeeded_notFound : succeeded (makeResponse kHttpNotFound
    (text "<h1>404 Not Found</h1>") (text "text/html") (text "Not Found")) = false := by decide +kernel

section AnyWrite

variable {write : FileSystem → Bytes → Bytes → Bytes × FileSystem}

theorem staticPutWith_of_accepted {q : RealPath} {existed : Bool} {fs' : FileSystem}
    (h : PutAccepted fs filesRoot relpath overwrite q existed)
    (hwrite : write fs relpath data = ([], fs')) :
    staticPutWith write fs filesRoot relpath data overwrite = (putDone existed, fs') := by
  simp only [staticPutWith, tryPut, h.check, h.exist, h.may, hwrite, bind, Except.bind]
  rfl

/-- A refused request changes nothing and does not answer 2xx, if the write reports at least that
the file cannot be opened. -/
theorem staticPutWith_of_refused
    (h : ∀ q existed, ¬ PutAccepted fs filesRoot relpath overwrite q existed)
    (hwrite : ∀ e, fs.openTarget relpath = .error e → write fs relpath data = (internalError, fs)) :
    ∃ e, succeeded e = false ∧
      staticPutWith write fs filesRoot relpath data overwrite = (e, fs) := by
  rcases hc : checkWithinRoot fs filesRoot relpath with e | e
  · exact ⟨_, not_succeeded_internalError, by
      simp only [staticPutWith, tryPut, hc, bind, Except.bind]⟩
  rcases checkWithinRoot_answer hc with rfl | rfl
  · rcases he : fs.exists relpath with e | existed
    · exact ⟨_, not_succeeded_internalError, by
        simp only [staticPutWith, tryPut, hc, he, bind, Except.bind]; rfl⟩
    by_cases hm : (existed && !overwrite) = true
    · exact ⟨_, not_succeeded_conflict, by
        simp only [staticPutWith, tryPut, hc, he, hm, bind, Except.bind]; rfl⟩
    rw [Bool.not_eq_true] at hm
    rcases ho : fs.openTarget relpath with e | q
    · exact ⟨_, not_succeeded_internalError, by
        simp only [staticPutWith, tryPut, hc, he, hm, hwrite e ho, bind, Except.bind]; rfl⟩
    · exact absurd ⟨hc, he, hm, ho⟩ (h q existed)
  · exact ⟨_, not_succeeded_forbidden, by
      simp only [staticPutWith, tryPut, hc, bind, Except.bind]; rfl⟩

end AnyWrite

theorem staticPut_of_accepted {q : RealPath} {existed : Bool}
    (h : PutAccepted fs filesRoot relpath overwrite q existed) (data : Bytes) :
    staticPut fs filesRoot relpath data overwrite = (putDone existed, fs.set q (.file data)) := by
  exact staticPutWith_of_accepted h (by rw [writeFile, h.target])

theorem staticPut_of_refused
    (h : ∀ q existed, ¬ PutAccepted fs filesRoot relpath overwrite q existed) (data : Bytes) :
    ∃ e, succeeded e = false ∧ staticPut fs filesRoot relpath data overwrite = (e, fs) := by
  exact staticPutWith_of_refused h fun e ho => by rw [writeFile, ho]

/-- The request passes the check, leads to a regular file and names the entry at `e`. -/
structure DeleteAccepted (fs : FileSystem) (filesRoot relpath : Bytes) (e : RealPath) : Prop where
  check : checkWithinRoot fs filesRoot relpath = .ok []
  regular : fs.isRegularFile relpath = .ok true
  entry : fs.entryPath relpath = .ok e

def deleteDone : Bytes := makeResponse kHttpNoContent [] (text "text/plain") (text "No Content")

theorem succeeded_deleteDone : succeeded deleteDone := by decide

theorem DeleteAccepted.entries {e : RealPath} (h : DeleteAccepted fs filesRoot relpath e) :
    fs.entries[e]? ≠ some .dir ∧ fs.entries[e]? ≠ none ∧ fs.unlink relpath = .ok (fs.remove e) := by
  obtain ⟨q, data, hq, hd⟩ := isRegularFile_eq_true.mp h.regular
  obtain ⟨d, n, he, hdir, hnone, hu⟩ := unlink_of_file hq hd
  obtain rfl : d ++ [n] = e := by simpa [h.entry] using he.symm
  exact ⟨hdir, hnone, hu⟩

theorem staticDelete_of_accepted {e : RealPath} (h : DeleteAccepted fs filesRoot relpath e) :
    staticDelete fs filesRoot relpath = (deleteDone, fs.remove e) := by
  obtain ⟨q, data, hq, -⟩ := isRegularFile_eq_true.mp h.regular
  simp only [staticDelete, tryDelete, h.check, exists_of_resolve hq, h.regular, h.entries.2.2,
    bind, Except.bind]
  rfl

theorem staticDelete_of_refused (h : ∀ e, ¬ DeleteAccepted fs filesRoot relpath e) :
    ∃ e, succeeded e = false ∧ staticDelete fs filesRoot relpath = (e, fs) := by
  rcases hc : checkWithinRoot fs filesRoot relpath with e | e
  · exact ⟨_, not_succeeded_internalError, by
      simp only [staticDelete, tryDelete, hc, bind, Except.bind]⟩
  rcases checkWithinRoot_answer hc with rfl | rfl
  · rcases hx : fs.exists relpath with e | existed
    · exact ⟨_, not_succeeded_internalError, by
        simp only [staticDelete, tryDelete, hc, hx, bind, Except.bind]; rfl⟩
    rcases hf : fs.isRegularFile relpath with e | _ | _
    · exact ⟨_, not_succeeded_internalError, by
        simp only [staticDelete, tryDelete, hc, hx, hf, bind, Except.bind]; rfl⟩
    · exact ⟨_, not_succeeded_notFound, by
        simp only [staticDelete, tryDelete, hc, hx, hf, bind, Except.bind, Bool.not_false,
          Bool.or_true]; rfl⟩
    · obtain ⟨q, data, hq, hd⟩ := isRegularFile_eq_true.mp hf
      obtain ⟨d, n, he, -⟩ := unlink_of_file hq hd
      exact absurd ⟨hc, hf, he⟩ (h (d ++ [n]))
  · exact ⟨_, not_succeeded_forbidden, by
      simp only [staticDelete, tryDelete, hc, bind, Except.bind]; rfl⟩

end SemanticSearch
