import SemanticSearch.StaticEffects

namespace SemanticSearch

open FileSystem

/-- What becomes of the stream: it cannot be opened; or the file is truncated, and `n` bytes are
written before an error or the end. -/
inductive WriteOutcome
  | openFails
  | writes (n : ℕ)
  deriving DecidableEq, Repr

/-- `writeFile` on such a disk. -/
def writeFileOn (o : WriteOutcome) (fs : FileSystem) (target data : Bytes) : Bytes × FileSystem :=
  match o with
  | .openFails => (internalError, fs)
  | .writes n =>
    match fs.openTarget target with
    | .error _ => (internalError, fs)
    | .ok q => ([], fs.set q (.file (data.take n)))

def staticPutOn (o : WriteOutcome) (fs : FileSystem) (filesRoot relpath data : Bytes)
    (overwrite : Bool) : Bytes × FileSystem :=
  staticPutWith (writeFileOn o) fs filesRoot relpath data overwrite

/-- All bytes are written, or none are because the file is not opened. -/
def WriteOutcome.Whole (o : WriteOutcome) (data : Bytes) : Prop :=
  match o with
  | .openFails => True
  | .writes n => data.length ≤ n

/-- The answer is 2xx and the file holds the data, or it is not and nothing has changed. -/
def PutTruthful (o : WriteOutcome) (fs : FileSystem) (filesRoot relpath data : Bytes)
    (overwrite : Bool) : Prop :=
  (succeeded (staticPutOn o fs filesRoot relpath data overwrite).1 = true →
    (staticPutOn o fs filesRoot relpath data overwrite).2.read relpath = some data) ∧
  (succeeded (staticPutOn o fs filesRoot relpath data overwrite).1 = false →
    (staticPutOn o fs filesRoot relpath data overwrite).2 = fs)

variable {o : WriteOutcome} {fs : FileSystem} {filesRoot relpath data : Bytes} {overwrite : Bool}

theorem staticPutOn_eq {n : ℕ} (h : data.length ≤ n) :
    staticPutOn (.writes n) fs filesRoot relpath data overwrite =
      staticPut fs filesRoot relpath data overwrite := by
  have hwrite : writeFileOn (.writes n) fs relpath data = writeFile fs relpath data := by
    rw [writeFileOn, writeFile]
    rcases fs.openTarget relpath with e | q
    · rfl
    · rw [List.take_of_length_le h]
  simp only [staticPutOn, staticPut, staticPutWith, tryPut, hwrite]

theorem staticPutOn_of_accepted {q : RealPath} {existed : Bool}
    (h : PutAccepted fs filesRoot relpath overwrite q existed) (data : Bytes) (n : ℕ) :
    staticPutOn (.writes n) fs filesRoot relpath data overwrite =
      (putDone existed, fs.set q (.file (data.take n))) :=
  staticPutWith_of_accepted h (by rw [writeFileOn, h.target])

theorem staticPutOn_openFails :
    ∃ e, succeeded e = false ∧
      staticPutOn .openFails fs filesRoot relpath data overwrite = (e, fs) := by
  by_cases h : ∃ q existed, PutAccepted fs filesRoot relpath overwrite q existed
  · obtain ⟨q, existed, h⟩ := h
    refine ⟨internalError, not_succeeded_internalError, ?_⟩
    simp only [staticPutOn, staticPutWith, tryPut, h.check, h.exist, h.may, writeFileOn, bind,
      Except.bind]
    rfl
  · exact staticPutWith_of_refused (fun q existed ha => h ⟨q, existed, ha⟩) fun e ho => rfl

/-- A write that is not whole is reported as done, so the answer is true exactly when the request
is refused before it or the write is whole. -/
theorem putTruthful_iff : PutTruthful o fs filesRoot relpath data overwrite ↔
    (∀ q existed, ¬ PutAccepted fs filesRoot relpath overwrite q existed) ∨ o.Whole data := by
  have hunchanged : (∃ e, succeeded e = false ∧
      staticPutOn o fs filesRoot relpath data overwrite = (e, fs)) →
      PutTruthful o fs filesRoot relpath data overwrite := by
    rintro ⟨e, he, hput⟩
    rw [PutTruthful, hput]
    simp [he]
  cases o with
  | openFails => exact iff_of_true (hunchanged staticPutOn_openFails) (Or.inr trivial)
  | writes n =>
    by_cases h : ∃ q existed, PutAccepted fs filesRoot relpath overwrite q existed
    · obtain ⟨q, existed, h⟩ := h
      have hread := read_set_openTarget h.target (data.take n)
      have hrefused : ¬ ∀ q existed, ¬ PutAccepted fs filesRoot relpath overwrite q existed :=
        fun hno => hno q existed h
      rw [PutTruthful, staticPutOn_of_accepted h, succeeded_putDone, hread, or_iff_right hrefused]
      simp [WriteOutcome.Whole, List.take_eq_self_iff]
    · have hrefused : ∀ q existed, ¬ PutAccepted fs filesRoot relpath overwrite q existed :=
        fun q existed ha => h ⟨q, existed, ha⟩
      refine iff_of_true (hunchanged (staticPutWith_of_refused hrefused fun e ho => ?_))
        (Or.inl hrefused)
      rw [writeFileOn, ho]

/-- A full disk: 200, and two bytes of the five in place of the old content. -/
theorem putTruthful_fullDisk :
    staticPutOn (.writes 2) smallTree (text "root") (text "root/a") (text "world") true =
        (makeResponse kHttpOk [] (text "text/plain") (text "OK"),
          smallTree.set [text "srv", text "root", text "a"] (.file (text "wo"))) ∧
      ¬ PutTruthful (.writes 2) smallTree (text "root") (text "root/a") (text "world") true := by
  have h : PutAccepted smallTree (text "root") (text "root/a") true
      [text "srv", text "root", text "a"] true :=
    ⟨by decide, by decide, rfl, by decide⟩
  have hput := staticPutOn_of_accepted h (text "world") 2
  refine ⟨hput, fun htrue => ?_⟩
  have hread := htrue.1
  rw [hput, succeeded_putDone, read_set_openTarget h.target] at hread
  exact absurd (hread rfl) (by decide)

end SemanticSearch
