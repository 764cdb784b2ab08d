import SemanticSearch.EmbedRuns

namespace SemanticSearch.EmbedService

variable {D C R : Type}

/-- `lifespan`: the stores that the service starts with, and whether it starts a rebuild. -/
def lifespan (cache : Cache D R) : Stores D R × Bool :=
  match tryLoadIndex cache with
  | some st => (st, false)
  | none => (⟨[], [], makeIndex⟩, true)

/-- A request for `add_doc` or `remove_doc`. -/
inductive Update (D C : Type)
  | addDoc (id : D) (text : List C)
  | removeDoc (docId : D)
  deriving DecidableEq, Repr

def Update.id : Update D C → D
  | addDoc id _ => id
  | removeDoc docId => docId

def Update.text : Update D C → Option (List C)
  | addDoc _ text => some text
  | removeDoc _ => none

def Update.op : Update D C → Op D C
  | addDoc id text => .addDoc id text
  | removeDoc docId => .removeDoc docId

variable [DecidableEq D]

/-- The service behind a rebuild of `files`, its save, and the requests `updates`. -/
def updated (encode : List C → R) (s : Service D R) (files : FileSet D C)
    (updates : List (Update D C)) : Service D R :=
  Runs.run (step encode) s (.swap files :: .save :: updates.map Update.op)

def SameVectors (st st' : Stores D R) : Prop :=
  ∀ id vec, (id, vec) ∈ st.ids.zip st.vecs ↔ (id, vec) ∈ st'.ids.zip st'.vecs

def lastUpdate (updates : List (Update D C)) (id : D) : Option (Update D C) :=
  updates.reverse.find? fun u => u.id = id

/-- The last update of the id, if there is one, leaves it with the embedding that the rebuild
gave it, or without one as the rebuild did. -/
def PutsBack (encode : List C → R) (files : FileSet D C) (updates : List (Update D C)) (id : D) :
    Prop :=
  match lastUpdate updates id with
  | none => True
  | some u => u.text.map (encodeText encode) = (files.textOf id).map (encodeText encode)

theorem lastUpdate_concat (updates : List (Update D C)) (u : Update D C) (id : D) :
    lastUpdate (updates ++ [u]) id = if u.id = id then some u else lastUpdate updates id := by
  simp only [lastUpdate, List.reverse_append, List.reverse_singleton, List.singleton_append,
    List.find?_cons]
  split_ifs with hu <;> simp [hu]

theorem supplied_updates (m : Supplied D C) (updates : List (Update D C)) (id : D) :
    (Runs.run Supplied.step m (updates.map Update.op)).now id =
      match lastUpdate updates id with
      | none => m.now id
      | some u => u.text := by
  induction updates using List.reverseRecOn with
  | nil => rfl
  | append_singleton updates u ih =>
    have hrun : Runs.run Supplied.step m ((updates ++ [u]).map Update.op) =
        (Runs.run Supplied.step m (updates.map Update.op)).step u.op := by
      rw [List.map_append, List.map_singleton, Runs.run_concat]
    have hstep : ∀ m' : Supplied D C,
        (m'.step u.op).now id = if u.id = id then u.text else m'.now id := by
      intro m'
      cases u with
      | addDoc id' text => simp [Update.op, Supplied.step, Update.id, Update.text,
          Function.update_apply, eq_comm]
      | removeDoc id' => simp [Update.op, Supplied.step, Update.id, Update.text,
          Function.update_apply, eq_comm]
    rw [hrun, hstep, lastUpdate_concat, ih]
    split_ifs with hu <;> rfl

theorem supplied_saved (m : Supplied D C) (updates : List (Update D C)) :
    (Runs.run Supplied.step m (updates.map Update.op)).saved = m.saved := by
  induction updates generalizing m with
  | nil => rfl
  | cons u updates ih =>
    rw [List.map_cons, Runs.run_cons, ih]
    cases u <;> rfl

omit [DecidableEq D] in
theorem Holds.mem_zip {encode : List C → R} {st : Stores D R} {docs : List (D × List C)}
    {m : D → Option (List C)} (h : Holds encode st docs) (hm : Lists docs m) (id : D) (vec : R) :
    (id, vec) ∈ st.ids.zip st.vecs ↔ (m id).map (encodeText encode) = some vec := by
  rw [h.ids, h.vecs, List.zip_map', List.mem_map, Option.map_eq_some_iff]
  constructor
  · rintro ⟨doc, hdoc, he⟩
    obtain ⟨hid, hvec⟩ := Prod.mk.injEq .. ▸ he
    exact ⟨doc.2, (hm id doc.2).mp (hid ▸ hdoc), hvec⟩
  · rintro ⟨text, htext, hvec⟩
    exact ⟨(id, text), (hm id text).mpr htext, by rw [hvec]⟩

omit [DecidableEq D] in
theorem sameVectors_iff {encode : List C → R} {st st' : Stores D R}
    {docs docs' : List (D × List C)} {m m' : D → Option (List C)} (h : Holds encode st docs)
    (hm : Lists docs m) (h' : Holds encode st' docs') (hm' : Lists docs' m') :
    SameVectors st st' ↔
      ∀ id, (m id).map (encodeText encode) = (m' id).map (encodeText encode) := by
  simp only [SameVectors, h.mem_zip hm, h'.mem_zip hm']
  apply forall_congr'
  intro id
  constructor
  · intro hvec
    exact Option.ext hvec
  · intro he vec
    rw [he]

theorem represents_rebuilt (encode : List C → R) (s : Service D R) (files : FileSet D C) :
    Represents encode (Runs.run (step encode) s [.swap files, .save])
      ⟨files.textOf, some files.textOf⟩ where
  stores := ⟨files.docs, holds_swapIn encode files.distinct, files.lists⟩
  cache := ⟨_, files.docs, rfl, holds_swapIn encode files.distinct, files.lists⟩

/-- Stopping the service behind the updates and starting it again gives the ids and vectors
that it had exactly if for each id the last update puts back what was saved. -/
theorem restart_same_iff (encode : List C → R) (s : Service D R) (files : FileSet D C)
    (updates : List (Update D C)) :
    SameVectors (lifespan (updated encode s files updates).cache).1
      (updated encode s files updates).stores ↔ ∀ id, PutsBack encode files updates id := by
  have hrun : Represents encode (updated encode s files updates)
      (Runs.run Supplied.step ⟨files.textOf, some files.textOf⟩ (updates.map Update.op)) :=
    (represents_rebuilt encode s files).run (updates.map Update.op)
  obtain ⟨docs, hst, hm⟩ := hrun.stores
  have hcache := hrun.cache
  rw [supplied_saved] at hcache
  obtain ⟨st, docs', hsaved, hst', hm'⟩ := hcache
  have hload : (lifespan (updated encode s files updates).cache).1 = st := by
    rw [hsaved, lifespan, hst'.tryLoadIndex]
  rw [hload, sameVectors_iff hst' hm' hst hm]
  apply forall_congr'
  intro id
  rw [supplied_updates, PutsBack]
  cases lastUpdate updates id with
  | none => simp
  | some u => exact eq_comm

/-- A document added behind the save is gone. -/
theorem restart_loses_added :
    ¬ SameVectors
      (lifespan (updated List.length {} ⟨[(1, [5])], by decide, by decide⟩
        [.addDoc 2 [3, 4]] : Service ℕ ℕ).cache).1
      (updated List.length {} ⟨[(1, [5])], by decide, by decide⟩
        [.addDoc 2 [3, 4]] : Service ℕ ℕ).stores := by
  intro h
  have hadded := (h 2 2).mpr (by decide)
  exact absurd hadded (by decide)

end SemanticSearch.EmbedService
