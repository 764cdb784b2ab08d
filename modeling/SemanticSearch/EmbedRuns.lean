import SemanticSearch.EmbedService
import SemanticSearch.Runs

namespace SemanticSearch.EmbedService

variable {D C R : Type} [DecidableEq D]

/-- The files of a rebuild that reaches its swap: at least one, each path once. -/
structure FileSet (D C : Type) where
  docs : List (D × List C)
  nonempty : docs ≠ []
  distinct : (docs.map Prod.fst).Nodup

def FileSet.textOf (files : FileSet D C) (d : D) : Option (List C) :=
  (files.docs.find? fun doc => doc.1 = d).map Prod.snd

/-- The changes of the service's state, each under the lock. -/
inductive Op (D C : Type)
  | swap (files : FileSet D C)
  | addDoc (id : D) (text : List C)
  | removeDoc (docId : D)
  | save
  | load

/-- The stores in memory and the copy on disk. -/
structure Service (D R : Type) where
  stores : Stores D R := {}
  cache : Cache D R := {}

/-- One change; nothing when it raises. A load that fails leaves the stores as they are. -/
def tryStep (encode : List C → R) (s : Service D R) : Op D C → Option (Service D R)
  | .swap files =>
    let (ids, vecs) := embedAll encode files.docs
    some { s with stores := swapIn ids vecs }
  | .addDoc id text => do return { s with stores := ← addDoc s.stores id (encodeText encode text) }
  | .removeDoc docId => do return { s with stores := (← removeDoc s.stores docId).2 }
  | .save => some { s with cache := saveIndex s.stores }
  | .load => some { s with stores := (tryLoadIndex s.cache).getD s.stores }

/-- A change that raises leaves the service as it is. -/
def step (encode : List C → R) (s : Service D R) (op : Op D C) : Service D R :=
  (tryStep encode s op).getD s

/-- The text last supplied for each id, now and when the cache was written. -/
structure Supplied (D C : Type) where
  now : D → Option (List C) := fun _ => none
  saved : Option (D → Option (List C)) := none

def Supplied.step (m : Supplied D C) : Op D C → Supplied D C
  | .swap files => { m with now := files.textOf }
  | .addDoc id text => { m with now := Function.update m.now id (some text) }
  | .removeDoc docId => { m with now := Function.update m.now docId none }
  | .save => { m with saved := some m.now }
  | .load => { m with now := m.saved.getD m.now }

/-- The documents are those of the map `m`. -/
def Lists (docs : List (D × List C)) (m : D → Option (List C)) : Prop :=
  ∀ d text, (d, text) ∈ docs ↔ m d = some text

theorem FileSet.lists (files : FileSet D C) : Lists files.docs files.textOf := by
  have hfind : ∀ docs : List (D × List C), (docs.map Prod.fst).Nodup → ∀ d text,
      (d, text) ∈ docs ↔ (docs.find? fun doc => doc.1 = d).map Prod.snd = some text := by
    intro docs hdocs d text
    induction docs with
    | nil => simp
    | cons doc docs ih =>
      rw [List.map_cons, List.nodup_cons] at hdocs
      rw [List.mem_cons, List.find?_cons]
      by_cases hd : doc.1 = d
      · have hnot : (d, text) ∉ docs := fun hm => hdocs.1 (hd ▸ List.mem_map_of_mem hm)
        simp only [hnot, or_false, hd, decide_true, Option.map_some, Option.some.injEq]
        constructor
        · rintro rfl
          rfl
        · rintro rfl
          exact Prod.ext hd.symm rfl
      · have hne : (d, text) ≠ doc := by
          rintro rfl
          exact hd rfl
        simp only [hne, false_or, hd, decide_false]
        exact ih hdocs.2
  exact hfind files.docs files.distinct

theorem Lists.addDoc {docs : List (D × List C)} {m : D → Option (List C)} (h : Lists docs m) (id : D)
    (text : List C) :
    Lists (without docs id ++ [(id, text)]) (Function.update m id (some text)) := by
  intro d t
  rw [List.mem_append, List.mem_singleton, mem_without, h d t]
  by_cases hd : d = id
  · subst hd
    simp [eq_comm]
  · simp [hd]

theorem Lists.removeDoc {docs : List (D × List C)} {m : D → Option (List C)} (h : Lists docs m)
    (id : D) : Lists (without docs id) (Function.update m id none) := by
  intro d t
  rw [mem_without, h d t]
  by_cases hd : d = id
  · subst hd
    simp
  · simp [hd]

/-- The stores hold the texts last supplied, and so does the copy on disk. -/
structure Represents (encode : List C → R) (s : Service D R) (m : Supplied D C) : Prop where
  stores : ∃ docs, Holds encode s.stores docs ∧ Lists docs m.now
  cache : match m.saved with
    | none => s.cache = {}
    | some saved => ∃ st docs, s.cache = saveIndex st ∧ Holds encode st docs ∧ Lists docs saved

theorem Represents.step {encode : List C → R} {s : Service D R} {m : Supplied D C}
    (h : Represents encode s m) (op : Op D C) :
    ∃ s', tryStep encode s op = some s' ∧ Represents encode s' (m.step op) := by
  obtain ⟨docs, hst, hm⟩ := h.stores
  cases op with
  | swap files =>
    exact ⟨_, rfl, ⟨files.docs, holds_swapIn encode files.distinct, files.lists⟩, h.cache⟩
  | addDoc id text =>
    obtain ⟨st', hadd, hst'⟩ := hst.addDoc id text
    refine ⟨{ s with stores := st' }, by simp [tryStep, hadd], ⟨_, hst', hm.addDoc id text⟩, h.cache⟩
  | removeDoc id =>
    obtain ⟨status, st', hrem, hst'⟩ := hst.removeDoc id
    refine ⟨{ s with stores := st' }, by simp [tryStep, hrem], ⟨_, hst', hm.removeDoc id⟩, h.cache⟩
  | save => exact ⟨_, rfl, h.stores, s.stores, docs, rfl, hst, hm⟩
  | load =>
    refine ⟨_, rfl, ?_, h.cache⟩
    have hc := h.cache
    rcases hs : m.saved with _ | saved
    · rw [hs] at hc
      simp only [hc, Supplied.step, hs]
      exact ⟨docs, hst, hm⟩
    · rw [hs] at hc
      obtain ⟨st, docs', hcache, hst', hm'⟩ := hc
      simp only [hcache, hst'.tryLoadIndex, Supplied.step, hs]
      exact ⟨docs', hst', hm'⟩

theorem Represents.run {encode : List C → R} {s : Service D R} {m : Supplied D C}
    (h : Represents encode s m) (ops : List (Op D C)) :
    Represents encode (Runs.run (EmbedService.step encode) s ops) (Runs.run Supplied.step m ops) := by
  induction ops generalizing s m with
  | nil => exact h
  | cons op ops ih =>
    obtain ⟨s', hs', h'⟩ := h.step op
    have hstep : EmbedService.step encode s op = s' := by simp [EmbedService.step, hs']
    rw [Runs.run_cons, Runs.run_cons, hstep]
    exact ih h'

omit [DecidableEq D] in
theorem represents_empty (encode : List C → R) :
    Represents encode ({} : Service D R) ({} : Supplied D C) :=
  ⟨⟨[], holds_empty encode, fun _ _ => by simp⟩, rfl⟩

/-- The ids other than `id` with their vectors, in the order of the stores. -/
def others (st : Stores D R) (id : D) : List (D × R) :=
  (st.ids.zip st.vecs).filter fun p => p.1 ≠ id

theorem Holds.others {encode : List C → R} {st : Stores D R} {docs : List (D × List C)}
    (h : Holds encode st docs) (id : D) :
    others st id = (without docs id).map fun doc => (doc.1, encodeText encode doc.2) := by
  rw [EmbedService.others, h.ids, h.vecs, List.zip_map', List.filter_map]
  rfl

/-- After any run from the empty service the three stores are aligned and represent the texts
last supplied; adding or removing a document leaves the others as they are. -/
theorem run_aligned (encode : List C → R) (ops : List (Op D C)) :
    let s := Runs.run (step encode) ({} : Service D R) ops
    let m := Runs.run Supplied.step ({} : Supplied D C) ops
    (s.stores.vecs.length = s.stores.ids.length ∧ s.stores.index.length = s.stores.ids.length ∧
      s.stores.index = s.stores.vecs ∧ s.stores.ids.Nodup) ∧
    (∀ d, d ∈ s.stores.ids ↔ (m.now d).isSome) ∧
    (∀ (i : ℕ) d text, s.stores.ids[i]? = some d → m.now d = some text →
      s.stores.vecs[i]? = some (encodeText encode text)) ∧
    (∀ op, (tryStep encode s op).isSome) ∧
    (∀ id text, ∃ st, addDoc s.stores id (encodeText encode text) = some st ∧
      others st id = others s.stores id) ∧
    ∀ id, ∃ status st, removeDoc s.stores id = some (status, st) ∧
      others st id = others s.stores id := by
  intro s m
  have hrun : Represents encode s m := (represents_empty encode).run ops
  obtain ⟨docs, hst, hm⟩ := hrun.stores
  refine ⟨⟨?_, ?_, hst.index, ?_⟩, fun d => ?_, fun i d text hi hd => ?_, fun op => ?_,
    fun id text => ?_, fun id => ?_⟩
  · rw [hst.vecs, hst.ids, List.length_map, List.length_map]
  · rw [hst.index, hst.vecs, hst.ids, List.length_map, List.length_map]
  · rw [hst.ids]
    exact hst.distinct
  · rw [hst.ids, List.mem_map, Option.isSome_iff_exists]
    constructor
    · intro ⟨doc, hdoc, he⟩
      exact ⟨doc.2, (hm d doc.2).mp (he ▸ hdoc)⟩
    · intro ⟨text, ht⟩
      exact ⟨(d, text), (hm d text).mpr ht, rfl⟩
  · rw [hst.ids, List.getElem?_map, Option.map_eq_some_iff] at hi
    obtain ⟨doc, hdoc, he⟩ := hi
    -- row `i` is the document that `_ids[i]` names
    have htext : m.now d = some doc.2 :=
      (hm d doc.2).mp (he ▸ List.mem_of_getElem? hdoc)
    rw [hst.vecs, List.getElem?_map, hdoc, Option.map_some,
      Option.some.inj (htext.symm.trans hd)]
  · obtain ⟨s', hs', -⟩ := hrun.step op
    rw [hs']
    rfl
  · obtain ⟨st', hadd, hst'⟩ := hst.addDoc id text
    refine ⟨st', hadd, ?_⟩
    rw [hst'.others, hst.others]
    simp [without]
  · obtain ⟨status, st', hrem, hst'⟩ := hst.removeDoc id
    refine ⟨status, st', hrem, ?_⟩
    rw [hst'.others, hst.others]
    simp [without]

end SemanticSearch.EmbedService
