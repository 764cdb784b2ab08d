import SemanticSearch.HttpServer
import SemanticSearch.StaticEffects

namespace SemanticSearch

open FileSystem

variable {V : Type} {ctx : ClientCtx V} {w : World V}

theorem putAndIndex_of_accepted {rel : Bytes} {overwrite : Bool} {q : RealPath} {existed : Bool}
    (h : PutAccepted w.fs ctx.files_root rel overwrite q existed) (body : Bytes) :
    putAndIndex ctx rel body overwrite w =
      (putDone existed,
        { fs := w.fs.set q (.file body)
          index := InvertedIndex.addFile (w.fs.set q (.file body)).view rel w.index
          vec := ctx.addDoc rel body w.vec }) := by
  simp only [putAndIndex, staticPut_of_accepted h, succeeded_putDone, if_true]

theorem putAndIndex_of_refused {rel : Bytes} {overwrite : Bool}
    (h : ∀ q existed, ¬ PutAccepted w.fs ctx.files_root rel overwrite q existed) (body : Bytes) :
    (putAndIndex ctx rel body overwrite w).2 = w := by
  obtain ⟨e, hs, he⟩ := staticPut_of_refused h body
  simp [putAndIndex, he, hs]

/-- Whether the request may replace a file. -/
def overwrites (r : Request) : Bool := r.method = text "PUT"

theorem handleStaticMutation_put {r : Request}
    (hm : r.method = text "PUT" ∨ r.method = text "POST") :
    handleStaticMutation ctx r w =
      putAndIndex ctx (r.path.drop 8) r.body (overwrites r) w := by
  have hne : text "POST" ≠ text "PUT" := by decide
  rcases hm with hm | hm
  · simp only [handleStaticMutation, hm, if_true, overwrites, decide_true]
  · simp only [handleStaticMutation, hm, hne, if_false, if_true, overwrites, decide_false]

theorem handleStaticMutation_delete {r : Request} {e : RealPath} (hm : r.method = text "DELETE")
    (h : DeleteAccepted w.fs ctx.files_root (r.path.drop 8) e) :
    handleStaticMutation ctx r w =
      (deleteDone,
        { fs := w.fs.remove e
          index := InvertedIndex.removeFile (r.path.drop 8) w.index
          vec := ctx.removeDoc (r.path.drop 8) w.vec }) := by
  have hne : text "DELETE" ≠ text "PUT" ∧ text "DELETE" ≠ text "POST" := by decide
  simp only [handleStaticMutation, hm, hne.1, hne.2, if_false, if_true,
    staticDelete_of_accepted h, succeeded_deleteDone]

theorem handleStaticMutation_delete_refused {r : Request} (hm : r.method = text "DELETE")
    (h : ∀ e, ¬ DeleteAccepted w.fs ctx.files_root (r.path.drop 8) e) :
    (handleStaticMutation ctx r w).2 = w := by
  have hne : text "DELETE" ≠ text "PUT" ∧ text "DELETE" ≠ text "POST" := by decide
  obtain ⟨e, hs, he⟩ := staticDelete_of_refused h
  simp [handleStaticMutation, hm, hne.1, hne.2, he, hs]

theorem handleStaticMutation_other {r : Request} (h1 : r.method ≠ text "PUT")
    (h2 : r.method ≠ text "POST") (h3 : r.method ≠ text "DELETE") :
    (handleStaticMutation ctx r w).2 = w := by
  simp only [handleStaticMutation, h1, h2, h3, if_false]

theorem respond_put {r : Request} (hm : r.method = text "PUT" ∨ r.method = text "POST")
    (hp : staticPrefix <+: r.path) :
    respond ctx r w = .ok (putAndIndex ctx (r.path.drop 8) r.body (overwrites r) w) := by
  have hget : r.method ≠ text "GET" := by
    rcases hm with hm | hm <;> rw [hm] <;> decide
  rw [respond, if_neg hget, if_pos hp, handleStaticMutation_put hm]

end SemanticSearch
