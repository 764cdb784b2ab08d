import SemanticSearch.Restart

namespace SemanticSearch.EmbedService

/-- Where the thread of a rebuild is in `_save_index`. -/
inductive Saver
  | idle
  | writingIndex
  | writingIds
  deriving DecidableEq, Repr

/-- The service and the threads of its rebuilds. The last two fields are a record of the run:
the documents that were embedded, and `_ids` when the index file was written. -/
structure Saving (D C R ι : Type) where
  service : Service D R := {}
  saver : ι → Saver := fun _ => .idle
  supplied : List (D × List C) := []
  indexIds : List D := []

/-- The commit of a rebuild, a request that changes the stores, the two writes of
`_save_index`, and a stop of the process with the next start. -/
inductive SaveAct (D C ι : Type)
  | swap (i : ι) (files : FileSet D C)
  | update (u : Update D C)
  | writeIndex (i : ι)
  | writeIds (i : ι)
  | restart

variable {D C R ι : Type}

/-- `faiss.write_index(_index, INDEX_BIN)`. -/
def writeIndex (cache : Cache D R) (st : Stores D R) : Cache D R := { cache with bin := some st.index }

/-- `json.dump(_ids, f)`. -/
def writeIds (cache : Cache D R) (st : Stores D R) : Cache D R := { cache with json := some st.ids }

theorem writeIds_writeIndex (cache : Cache D R) (st : Stores D R) :
    writeIds (writeIndex cache st) st = saveIndex st := rfl

def Saving.setSaver [DecidableEq ι] (s : Saving D C R ι) (i : ι) (phase : Saver) :
    Saving D C R ι := { s with saver := Function.update s.saver i phase }

def Update.docs : Update D C → List (D × List C)
  | addDoc id text => [(id, text)]
  | removeDoc _ => []

/-- One step; a thread that is not in front of a write does not take it. -/
def saveStep [DecidableEq D] [DecidableEq ι] (encode : List C → R) (s : Saving D C R ι) :
    SaveAct D C ι → Saving D C R ι
  | .swap i files =>
    if s.saver i = .idle then
      { s.setSaver i .writingIndex with
        service := step encode s.service (.swap files), supplied := s.supplied ++ files.docs }
    else s
  | .update u =>
    { s with service := step encode s.service u.op, supplied := s.supplied ++ u.docs }
  | .writeIndex i =>
    if s.saver i = .writingIndex then
      { s.setSaver i .writingIds with
        service := { s.service with cache := writeIndex s.service.cache s.service.stores }
        indexIds := s.service.stores.ids }
    else s
  | .writeIds i =>
    if s.saver i = .writingIds then
      { s.setSaver i .idle with
        service := { s.service with cache := writeIds s.service.cache s.service.stores } }
    else s
  | .restart =>
    { s with
      service := { s.service with stores := (lifespan s.service.cache).1 }
      saver := fun _ => .idle }

/-- The row is an embedding computed for the document. -/
def Embeds (encode : List C → R) (supplied : List (D × List C)) (id : D) (row : R) : Prop :=
  ∃ text, (id, text) ∈ supplied ∧ row = encodeText encode text

/-- Each loaded row is an embedding computed for the document of its id. -/
def Consistent (encode : List C → R) (supplied : List (D × List C)) (cache : Cache D R) : Prop :=
  ∀ st, tryLoadIndex cache = some st → ∀ (i : ℕ) id row, st.ids[i]? = some id →
    st.vecs[i]? = some row → Embeds encode supplied id row

/-- A write that is taken meets rows and ids of which `P` holds, with the ids `named` that the
rows were embedded for. -/
def WriteMeets (P : List D → List R → List D → Prop) (s : Saving D C R ι) : SaveAct D C ι → Prop
  | .writeIndex i => s.saver i = .writingIndex → ∀ ids, s.service.cache.json = some ids →
    P s.service.stores.ids s.service.stores.index ids
  | .writeIds i => s.saver i = .writingIds → ∀ rows, s.service.cache.bin = some rows →
    P s.indexIds rows s.service.stores.ids
  | _ => True

/-- A write finds the other file missing, of another length, or written for the same ids. -/
def WritesSame : Saving D C R ι → SaveAct D C ι → Prop :=
  WriteMeets fun named rows ids => rows.length = ids.length → ids = named

/-- The ids do not fit the rows, which were embedded for `named`, in number, or each stands
where it stood in `named` or has the embedding there by chance. -/
def PairsUp (encode : List C → R) (supplied : List (D × List C)) (named : List D) (rows : List R)
    (ids : List D) : Prop :=
  rows.length = ids.length → ∀ (i : ℕ) id row, ids[i]? = some id → rows[i]? = some row →
    named[i]? = some id ∨ Embeds encode supplied id row

def WritesPair (encode : List C → R) (s : Saving D C R ι) : SaveAct D C ι → Prop :=
  WriteMeets (PairsUp encode s.supplied) s

theorem tryLoadIndex_of_length {rows : List R} {ids : List D} (h : rows.length = ids.length) :
    tryLoadIndex ⟨some rows, some ids⟩ = some ⟨ids, rows, rows⟩ := by
  have hrows := rowsAt_range rows
  rw [h] at hrows
  simp [tryLoadIndex, h, hrows]

theorem tryLoadIndex_eq_some {cache : Cache D R} {st : Stores D R} :
    tryLoadIndex cache = some st ↔ ∃ rows ids, cache = ⟨some rows, some ids⟩ ∧
      rows.length = ids.length ∧ st = ⟨ids, rows, rows⟩ := by
  constructor
  · intro h
    rcases cache with ⟨_ | rows, _ | ids⟩
    · simp [tryLoadIndex] at h
    · simp [tryLoadIndex] at h
    · simp [tryLoadIndex] at h
    · by_cases hlen : rows.length = ids.length
      · rw [tryLoadIndex_of_length hlen] at h
        exact ⟨rows, ids, rfl, hlen, (Option.some.inj h).symm⟩
      · simp [tryLoadIndex, hlen] at h
  · rintro ⟨rows, ids, rfl, hlen, rfl⟩
    exact tryLoadIndex_of_length hlen

variable {encode : List C → R} {supplied : List (D × List C)} {docs : List (D × List C)}
  {cache : Cache D R}

theorem Embeds.append {id : D} {row : R} (h : Embeds encode supplied id row)
    (more : List (D × List C)) : Embeds encode (supplied ++ more) id row := by
  obtain ⟨text, htext, hrow⟩ := h
  exact ⟨text, List.mem_append_left more htext, hrow⟩

theorem Consistent.append (h : Consistent encode supplied cache) (more : List (D × List C)) :
    Consistent encode (supplied ++ more) cache :=
  fun st hst i id row hid hrow => (h st hst i id row hid hrow).append more

theorem consistent_pair_iff {rows : List R} {ids : List D} :
    Consistent encode supplied ⟨some rows, some ids⟩ ↔ (rows.length = ids.length →
      ∀ (i : ℕ) id row, ids[i]? = some id → rows[i]? = some row → Embeds encode supplied id row) := by
  constructor
  · intro h hlen
    exact h _ (tryLoadIndex_of_length hlen)
  · intro h st hst
    obtain ⟨rows', ids', hcache, hlen, rfl⟩ := tryLoadIndex_eq_some.mp hst
    simp only [Cache.mk.injEq, Option.some.injEq] at hcache
    obtain ⟨rfl, rfl⟩ := hcache
    exact h hlen

theorem consistent_iff_pairsUp (hdocs : docs ⊆ supplied) (ids : List D) :
    Consistent encode supplied
      ⟨some (docs.map fun doc => encodeText encode doc.2), some ids⟩ ↔
    PairsUp encode supplied (docs.map Prod.fst) (docs.map fun doc => encodeText encode doc.2) ids := by
  rw [consistent_pair_iff]
  apply imp_congr_right
  intro _
  apply forall_congr'
  intro i
  apply forall_congr'
  intro id
  apply forall_congr'
  intro row
  apply imp_congr_right
  intro _
  apply imp_congr_right
  intro hrow
  constructor
  · intro h
    exact Or.inr h
  · rintro (hid | h)
    · -- the id stands where its document stood
      obtain ⟨doc, hdoc, hrow⟩ := Option.map_eq_some_iff.mp ((List.getElem?_map ..).symm.trans hrow)
      rw [List.getElem?_map, hdoc, Option.map_some, Option.some.injEq] at hid
      exact ⟨doc.2, hid ▸ hdocs (List.mem_of_getElem? hdoc), hrow.symm⟩
    · exact h

theorem exists_docs {ids : List D} {rows : List R} (hlen : rows.length = ids.length)
    (h : ∀ (i : ℕ) id row, ids[i]? = some id → rows[i]? = some row →
      Embeds encode supplied id row) :
    ∃ docs ⊆ supplied, ids = docs.map Prod.fst ∧
      rows = docs.map fun doc => encodeText encode doc.2 := by
  induction ids generalizing rows with
  | nil => exact ⟨[], List.nil_subset _, rfl, List.length_eq_zero_iff.mp hlen⟩
  | cons id ids ih =>
    rcases rows with _ | ⟨row, rows⟩
    · simp at hlen
    obtain ⟨text, htext, hrow⟩ := h 0 id row rfl rfl
    obtain ⟨docs, hdocs, hids, hrows⟩ := ih (Nat.succ.inj hlen) fun i => h (i + 1)
    exact ⟨(id, text) :: docs, List.cons_subset.mpr ⟨htext, hdocs⟩, by rw [hids]; rfl,
      by rw [hrow, hrows]; rfl⟩

/-- The memory and the index file hold documents that were embedded, and the id file has no id
twice. -/
structure Saving.Sound (encode : List C → R) (s : Saving D C R ι) : Prop where
  stores : ∃ docs ⊆ s.supplied, Holds encode s.service.stores docs
  bin : ∀ rows, s.service.cache.bin = some rows → ∃ docs ⊆ s.supplied,
    rows = docs.map (fun doc => encodeText encode doc.2) ∧ s.indexIds = docs.map Prod.fst
  json : ∀ ids, s.service.cache.json = some ids → ids.Nodup

variable {s : Saving D C R ι}

theorem Saving.Sound.commit {st : Stores D R} {more : List (D × List C)} (h : s.Sound encode)
    (hdocs : docs ⊆ s.supplied ++ more) (hst : Holds encode st docs) (saver : ι → Saver) :
    Saving.Sound encode
      ⟨{ s.service with stores := st }, saver, s.supplied ++ more, s.indexIds⟩ where
  stores := ⟨docs, hdocs, hst⟩
  bin rows hrows := by
    obtain ⟨docs', hdocs', he⟩ := h.bin rows hrows
    exact ⟨docs', List.subset_append_of_subset_left more hdocs', he⟩
  json := h.json

theorem Saving.Sound.restart (h : s.Sound encode)
    (hc : Consistent encode s.supplied s.service.cache) (saver : ι → Saver) :
    Saving.Sound encode
      { s with
        service := { s.service with stores := (lifespan s.service.cache).1 }
        saver := saver } where
  stores := by
    rcases hload : tryLoadIndex s.service.cache with _ | st
    · refine ⟨[], List.nil_subset _, ?_⟩
      simp only [lifespan, hload]
      exact holds_empty encode
    · obtain ⟨rows, ids, hcache, hlen, rfl⟩ := tryLoadIndex_eq_some.mp hload
      rw [hcache] at hc
      obtain ⟨docs, hdocs, hids, hrows⟩ := exists_docs hlen (consistent_pair_iff.mp hc hlen)
      refine ⟨docs, hdocs, ?_⟩
      simp only [lifespan, hload]
      refine ⟨hids, hrows, rfl, ?_⟩
      rw [← hids]
      exact h.json ids (by rw [hcache])
  bin := h.bin
  json := h.json

theorem consistent_of_none (h : cache.bin = none ∨ cache.json = none) :
    Consistent encode supplied cache := by
  intro st hst
  obtain ⟨rows, ids, rfl, -⟩ := tryLoadIndex_eq_some.mp hst
  simp at h

theorem Saving.Sound.writeIndex (h : s.Sound encode) (saver : ι → Saver) :
    Saving.Sound encode
      ⟨{ s.service with cache := writeIndex s.service.cache s.service.stores }, saver, s.supplied,
        s.service.stores.ids⟩ where
  stores := h.stores
  bin rows hrows := by
    obtain ⟨docs, hdocs, hst⟩ := h.stores
    obtain rfl := Option.some.inj hrows
    exact ⟨docs, hdocs, hst.index.trans hst.vecs, hst.ids⟩
  json := h.json

theorem consistent_writeIndex_iff (h : s.Sound encode) :
    Consistent encode s.supplied (writeIndex s.service.cache s.service.stores) ↔
      ∀ ids, s.service.cache.json = some ids →
        PairsUp encode s.supplied s.service.stores.ids s.service.stores.index ids := by
  obtain ⟨docs, hdocs, hst⟩ := h.stores
  rcases hjson : s.service.cache.json with _ | ids
  · exact iff_of_true (consistent_of_none (Or.inr hjson)) (by simp)
  · simp only [EmbedService.writeIndex, hjson, Option.some.injEq, forall_eq', hst.index, hst.vecs,
      hst.ids]
    exact consistent_iff_pairsUp hdocs ids

theorem Saving.Sound.writeIds (h : s.Sound encode) (saver : ι → Saver) :
    Saving.Sound encode
      ⟨{ s.service with cache := writeIds s.service.cache s.service.stores }, saver, s.supplied,
        s.indexIds⟩ where
  stores := h.stores
  bin := h.bin
  json ids hids := by
    obtain ⟨docs, -, hst⟩ := h.stores
    obtain rfl := Option.some.inj hids
    rw [hst.ids]
    exact hst.distinct

theorem consistent_writeIds_iff (h : s.Sound encode) :
    Consistent encode s.supplied (writeIds s.service.cache s.service.stores) ↔
      ∀ rows, s.service.cache.bin = some rows →
        PairsUp encode s.supplied s.indexIds rows s.service.stores.ids := by
  rcases hbin : s.service.cache.bin with _ | rows
  · exact iff_of_true (consistent_of_none (Or.inl hbin)) (by simp)
  · obtain ⟨docs, hdocs, hrows, hids⟩ := h.bin rows hbin
    simp only [EmbedService.writeIds, hbin, Option.some.injEq, forall_eq', hrows, hids]
    exact consistent_iff_pairsUp hdocs s.service.stores.ids

variable [DecidableEq D] [DecidableEq ι]

omit [DecidableEq ι] in
theorem without_subset (docs : List (D × List C)) (id : D) : without docs id ⊆ docs :=
  List.filter_subset_self docs

omit [DecidableEq ι] in
theorem Holds.update {service : Service D R} (h : Holds encode service.stores docs)
    (u : Update D C) : ∃ st docs', step encode service u.op = { service with stores := st } ∧
      docs' ⊆ docs ++ u.docs ∧ Holds encode st docs' := by
  cases u with
  | addDoc id text =>
    obtain ⟨st, hadd, hst⟩ := h.addDoc id text
    refine ⟨st, _, by simp [step, tryStep, Update.op, hadd], ?_, hst⟩
    exact List.append_subset.mpr ⟨List.subset_append_of_subset_left _ (without_subset docs id),
      List.subset_append_right _ _⟩
  | removeDoc id =>
    obtain ⟨status, st, hrem, hst⟩ := h.removeDoc id
    refine ⟨st, _, by simp [step, tryStep, Update.op, hrem], ?_, hst⟩
    exact List.subset_append_of_subset_left _ (without_subset docs id)

theorem saveStep_consistent (a : SaveAct D C ι) (h : s.Sound encode)
    (hc : Consistent encode s.supplied s.service.cache) :
    (saveStep encode s a).Sound encode ∧
    (Consistent encode (saveStep encode s a).supplied (saveStep encode s a).service.cache ↔
      WritesPair encode s a) := by
  obtain ⟨docs, hdocs, hst⟩ := h.stores
  cases a with
  | swap i files =>
    simp only [saveStep]
    split_ifs with hi
    · refine ⟨h.commit (List.subset_append_right _ _) (holds_swapIn encode files.distinct) _, ?_⟩
      exact iff_of_true (hc.append files.docs) trivial
    · exact ⟨h, iff_of_true hc trivial⟩
  | update u =>
    obtain ⟨st, docs', hstep, hdocs', hst'⟩ := hst.update u
    have hsub : docs' ⊆ s.supplied ++ u.docs :=
      List.Subset.trans hdocs' (List.append_subset.mpr
        ⟨List.subset_append_of_subset_left _ hdocs, List.subset_append_right _ _⟩)
    simp only [saveStep, hstep]
    exact ⟨h.commit hsub hst' s.saver, iff_of_true (hc.append u.docs) trivial⟩
  | writeIndex i =>
    simp only [saveStep, WritesPair, WriteMeets]
    split_ifs with hi
    · exact ⟨h.writeIndex _, (consistent_writeIndex_iff h).trans (imp_iff_right hi).symm⟩
    · exact ⟨h, iff_of_true hc fun hi' => absurd hi' hi⟩
  | writeIds i =>
    simp only [saveStep, WritesPair, WriteMeets]
    split_ifs with hi
    · exact ⟨h.writeIds _, (consistent_writeIds_iff h).trans (imp_iff_right hi).symm⟩
    · exact ⟨h, iff_of_true hc fun hi' => absurd hi' hi⟩
  | restart => exact ⟨h.restart hc _, iff_of_true hc trivial⟩

omit [DecidableEq D] [DecidableEq ι] in
theorem sound_start (encode : List C → R) : ({} : Saving D C R ι).Sound encode where
  stores := ⟨[], List.nil_subset _, holds_empty encode⟩
  bin rows hrows := by simp at hrows
  json ids hids := by simp at hids

omit [DecidableEq D] [DecidableEq ι] in
theorem WritesSame.pair (encode : List C → R) (s : Saving D C R ι) (a : SaveAct D C ι)
    (h : WritesSame s a) : WritesPair encode s a := by
  cases a with
  | writeIndex i => exact fun hi ids hids hlen j id row hid _ => Or.inl (h hi ids hids hlen ▸ hid)
  | writeIds i => exact fun hi rows hrows hlen j id row hid _ => Or.inl (h hi rows hrows hlen ▸ hid)
  | _ => trivial

/-- While each write meets a file of the same ids or of another length, each row that is loaded
is an embedding computed for its id; and else only where embeddings agree by chance. -/
theorem loaded_consistent (encode : List C → R) (acts : List (SaveAct D C ι)) :
    let start : Saving D C R ι := {}
    let consistent : Saving D C R ι → Prop := fun s => Consistent encode s.supplied s.service.cache
    (Runs.AllOk (saveStep encode) WritesSame start acts →
      Runs.Throughout (saveStep encode) consistent start acts) ∧
    (Runs.Throughout (saveStep encode) consistent start acts ↔
      Runs.AllOk (saveStep encode) (WritesPair encode) start acts) := by
  intro start consistent
  have hiff : Runs.Throughout (saveStep encode) consistent start acts ↔
      Runs.AllOk (saveStep encode) (WritesPair encode) start acts :=
    Runs.throughout_iff_allOk (J := fun s => s.Sound encode)
      (fun _ a h hc => saveStep_consistent a h hc) (sound_start encode)
      (consistent_of_none (Or.inl rfl)) acts
  exact ⟨fun hok => hiff.mpr (hok.imp (WritesSame.pair encode)), hiff⟩

def firstChar (text : List ℕ) : ℕ := text.headD 0

def twoDocs : List (ℕ × List ℕ) := [(1, [5]), (2, [3])]

theorem nodup_twoDocs : (twoDocs.map Prod.fst).Nodup := by decide

/-- A document replaced between the writes of the two files moves behind the others. -/
def replacedInSave : List (SaveAct ℕ ℕ Unit) :=
  [.swap () ⟨twoDocs, List.cons_ne_nil _ _, nodup_twoDocs⟩, .writeIndex (), .update (.addDoc 1 [5]),
    .writeIds ()]

theorem replacedInSave_inconsistent :
    ¬ Runs.Throughout (saveStep firstChar)
      (fun s => Consistent firstChar s.supplied s.service.cache) ({} : Saving ℕ ℕ ℕ Unit)
      replacedInSave := by
  intro h
  have hend := h replacedInSave (List.prefix_refl _)
  have hload : tryLoadIndex (Runs.run (saveStep firstChar) ({} : Saving ℕ ℕ ℕ Unit)
      replacedInSave).service.cache = some ⟨[2, 1], [5, 3], [5, 3]⟩ := by decide
  have hsupplied : (Runs.run (saveStep firstChar) ({} : Saving ℕ ℕ ℕ Unit)
      replacedInSave).supplied = [(1, [5]), (2, [3]), (1, [5])] := by decide
  obtain ⟨text, htext, hrow⟩ := hend _ hload 0 2 5 rfl rfl
  have htext' : text = [3] := by simpa [hsupplied] using htext
  rw [htext'] at hrow
  exact absurd hrow (by decide)

end SemanticSearch.EmbedService
