import Mathlib.Data.List.Basic

namespace SemanticSearch.EmbedService

def textLimit : ℕ := 2048

/-- `_ids`, `_vecs` and the rows of `_index`. -/
structure Stores (D R : Type) where
  ids : List D := []
  vecs : List R := []
  index : List R := []
  deriving DecidableEq, Repr

/-- The files that `_save_index` writes, `INDEX_BIN` and `IDS_JSON`. -/
structure Cache (D R : Type) where
  bin : Option (List R) := none
  json : Option (List D) := none
  deriving DecidableEq, Repr

variable {D C R : Type}

def makeIndex : List R := []

/-- `IndexFlatIP.add`: the rows are stored in order behind those already there. -/
def indexAdd (index rows : List R) : List R := index ++ rows

/-- `_encode(text)`, of no more than `TEXT_LIMIT` characters. -/
def encodeText (encode : List C → R) (text : List C) : R := encode (text.take textLimit)

/-- `rows[keep]`: an index past the end raises. -/
def rowsAt {α : Type} (rows : List α) (keep : List ℕ) : Option (List α) := keep.mapM (rows[·]?)

/-- What `_rebuild_bg` puts in place under the lock. -/
def swapIn (ids : List D) (vecs : List R) : Stores D R := ⟨ids, vecs, indexAdd makeIndex vecs⟩

/-- The arrays of a rebuild from the files it has read. -/
def embedAll (encode : List C → R) (docs : List (D × List C)) : List D × List R :=
  (docs.map Prod.fst, docs.map fun doc => encodeText encode doc.2)

def saveIndex (st : Stores D R) : Cache D R := ⟨some st.index, some st.ids⟩

/-- `_try_load_index`: nothing when a file is missing or the lengths differ. -/
def tryLoadIndex (cache : Cache D R) : Option (Stores D R) := do
  let loaded ← cache.bin
  let ids ← cache.json
  if loaded.length ≠ ids.length then none
  let vecs ← rowsAt loaded (List.range loaded.length)
  return ⟨ids, vecs, loaded⟩

section Documents

variable [DecidableEq D]

/-- `[i for i, did in enumerate(_ids) if did != doc_id]`. -/
def keepOthers (ids : List D) (docId : D) : List ℕ :=
  (ids.zipIdx.filter fun p => p.1 ≠ docId).map Prod.snd

/-- The rows of `vecs` for `keep`; an empty `keep` gives an array without rows. -/
def keptRows (vecs : List R) (keep : List ℕ) : Option (List R) :=
  if keep = [] then some [] else rowsAt vecs keep

/-- `kept_vecs` and `kept_ids` of `add_doc`. -/
def kept (st : Stores D R) (id : D) : Option (List R × List D) :=
  if id ∈ st.ids then do
    let keep := keepOthers st.ids id
    return (← keptRows st.vecs keep, ← rowsAt st.ids keep)
  else some (st.vecs, st.ids)

/-- `add_doc`, with `vec` the encoded text. Nothing is stored when it raises. -/
def addDoc (st : Stores D R) (id : D) (vec : R) : Option (Stores D R) := do
  let (keptVecs, keptIds) ← kept st id
  let vecs := if 0 < keptVecs.length then keptVecs ++ [vec] else [vec]
  return ⟨keptIds ++ [id], vecs, indexAdd makeIndex vecs⟩

inductive Status
  | ok
  | notFound
  deriving DecidableEq, Repr

/-- `remove_doc`. -/
def removeDoc (st : Stores D R) (docId : D) : Option (Status × Stores D R) := do
  if docId ∉ st.ids then
    return (.notFound, st)
  let keep := keepOthers st.ids docId
  let vecs ← keptRows st.vecs keep
  let ids ← rowsAt st.ids keep
  return (.ok, ⟨ids, vecs, if 0 < vecs.length then indexAdd makeIndex vecs else makeIndex⟩)

end Documents

/-- The stores are the ids, the vectors and the index rows of the documents `docs`. -/
structure Holds (encode : List C → R) (st : Stores D R) (docs : List (D × List C)) : Prop where
  ids : st.ids = docs.map Prod.fst
  vecs : st.vecs = docs.map fun doc => encodeText encode doc.2
  index : st.index = st.vecs
  distinct : (docs.map Prod.fst).Nodup

theorem rowsAt_range {α : Type} (rows : List α) : rowsAt rows (List.range rows.length) = some rows := by
  have hstep : ∀ pre l : List α,
      ((List.range' pre.length l.length).mapM fun i => (pre ++ l)[i]?) = some l := by
    intro pre l
    induction l generalizing pre with
    | nil => simp
    | cons a l ih =>
      have hih := ih (pre ++ [a])
      simp only [List.append_assoc, List.singleton_append, List.length_append, List.length_singleton]
        at hih
      simp [List.range'_succ, hih]
  simpa [rowsAt, List.range_eq_range'] using hstep [] rows

variable {encode : List C → R} {st : Stores D R} {docs : List (D × List C)}

theorem holds_empty (encode : List C → R) : Holds encode (⟨[], [], []⟩ : Stores D R) [] :=
  ⟨rfl, rfl, rfl, List.nodup_nil⟩

theorem holds_swapIn (encode : List C → R) (h : (docs.map Prod.fst).Nodup) :
    Holds encode (swapIn (embedAll encode docs).1 (embedAll encode docs).2) docs :=
  ⟨rfl, rfl, rfl, h⟩

theorem Holds.tryLoadIndex (h : Holds encode st docs) : tryLoadIndex (saveIndex st) = some st := by
  have hlen : st.index.length = st.ids.length := by simp [h.index, h.vecs, h.ids]
  have hload : EmbedService.tryLoadIndex (saveIndex st) = some ⟨st.ids, st.index, st.index⟩ := by
    simp [EmbedService.tryLoadIndex, saveIndex, hlen, rowsAt_range]
  rw [hload]
  nth_rewrite 1 [h.index]
  rfl

variable [DecidableEq D]

/-- The documents other than `id`, in their order. -/
def without (docs : List (D × List C)) (id : D) : List (D × List C) :=
  docs.filter fun doc => doc.1 ≠ id

theorem rowsAt_keepOthers {α : Type} (docs : List (D × List C)) (f : D × List C → α) (id : D) :
    rowsAt (docs.map f) (keepOthers (docs.map Prod.fst) id) = some ((without docs id).map f) := by
  have hstep : ∀ pre l : List (D × List C),
      ((((l.map Prod.fst).zipIdx pre.length).filter fun p => p.1 ≠ id).map Prod.snd).mapM
        (fun i => ((pre ++ l).map f)[i]?) = some ((without l id).map f) := by
    intro pre l
    induction l generalizing pre with
    | nil => simp [without]
    | cons doc l ih =>
      have hih := ih (pre ++ [doc])
      simp only [List.append_assoc, List.singleton_append, List.length_append, List.length_singleton]
        at hih
      by_cases hd : doc.1 = id <;> simp_all [without, List.zipIdx_cons]
  exact hstep [] docs

theorem keptRows_eq (vecs : List R) (keep : List ℕ) : keptRows vecs keep = rowsAt vecs keep := by
  unfold keptRows
  split_ifs with hk
  · rw [hk]
    rfl
  · rfl

theorem without_of_notMem {docs : List (D × List C)} {id : D} (h : id ∉ docs.map Prod.fst) :
    without docs id = docs := by
  apply List.filter_eq_self.mpr
  intro doc hdoc
  have hne : doc.1 ≠ id := by
    intro he
    exact h (he ▸ List.mem_map_of_mem hdoc)
  simpa using hne

theorem mem_without {docs : List (D × List C)} {id : D} {doc : D × List C} :
    doc ∈ without docs id ↔ doc ∈ docs ∧ doc.1 ≠ id := by simp [without]

theorem nodup_without {docs : List (D × List C)} (h : (docs.map Prod.fst).Nodup) (id : D) :
    ((without docs id).map Prod.fst).Nodup :=
  h.sublist (List.filter_sublist.map Prod.fst)

theorem Holds.keptRows (h : Holds encode st docs) (id : D) :
    keptRows st.vecs (keepOthers st.ids id) =
      some ((without docs id).map fun doc => encodeText encode doc.2) := by
  rw [keptRows_eq, h.ids, h.vecs]
  exact rowsAt_keepOthers docs _ id

theorem Holds.keptIds (h : Holds encode st docs) (id : D) :
    rowsAt st.ids (keepOthers st.ids id) = some ((without docs id).map Prod.fst) := by
  rw [h.ids]
  exact rowsAt_keepOthers docs _ id

theorem Holds.kept (h : Holds encode st docs) (id : D) :
    kept st id = some ((without docs id).map (fun doc => encodeText encode doc.2),
      (without docs id).map Prod.fst) := by
  unfold EmbedService.kept
  split_ifs with hid
  · simp [h.keptRows, h.keptIds]
  · rw [without_of_notMem (by rwa [← h.ids]), h.vecs, h.ids]

theorem Holds.addDoc (h : Holds encode st docs) (id : D) (text : List C) :
    ∃ st', addDoc st id (encodeText encode text) = some st' ∧
      Holds encode st' (without docs id ++ [(id, text)]) := by
  have hstack : ∀ (keptVecs : List R) (vec : R),
      (if 0 < keptVecs.length then keptVecs ++ [vec] else [vec]) = keptVecs ++ [vec] := by
    intro keptVecs vec
    split_ifs with hlen
    · rfl
    · rw [List.length_eq_zero_iff.mp (by omega : keptVecs.length = 0), List.nil_append]
  refine ⟨_, by rw [EmbedService.addDoc, h.kept]; rfl, ?_⟩
  simp only [hstack]
  refine ⟨by simp, by simp, rfl, ?_⟩
  rw [List.map_append, List.nodup_append]
  refine ⟨nodup_without h.distinct id, by simp, ?_⟩
  intro d hd e he
  obtain ⟨doc, hdoc, rfl⟩ := List.mem_map.mp hd
  simpa [List.mem_singleton.mp he] using (mem_without.mp hdoc).2

theorem Holds.removeDoc (h : Holds encode st docs) (id : D) :
    ∃ status st', removeDoc st id = some (status, st') ∧ Holds encode st' (without docs id) := by
  have hindex : ∀ vecs : List R,
      (if 0 < vecs.length then indexAdd makeIndex vecs else makeIndex) = vecs := by
    intro vecs
    split_ifs with hlen
    · rfl
    · exact (List.length_eq_zero_iff.mp (by omega)).symm
  by_cases hid : id ∈ st.ids
  · refine ⟨.ok, ⟨_, _, _⟩, ?_, rfl, rfl, rfl, nodup_without h.distinct id⟩
    simp only [EmbedService.removeDoc, hid, not_true, if_false, h.keptRows, h.keptIds, hindex,
      bind, Option.bind]
    rfl
  · refine ⟨.notFound, st, by simp [EmbedService.removeDoc, hid], ?_⟩
    rwa [without_of_notMem (by rwa [← h.ids])]

end SemanticSearch.EmbedService
