import Mathlib.Data.List.Sort
import SemanticSearch.EmbedRuns

namespace SemanticSearch.EmbedService

/-- The encoder, the inner product of two vectors, `IndexFlatIP.search` and the comparison
`float(score) >= 0.3`. -/
structure Engine (C R S : Type) where
  encode : List C → R
  innerProduct : R → R → S
  search : List R → R → ℤ → Option (List (S × ℤ))
  relevant : S → Bool

/-- The index state that a query was evaluated on, and the query's vector. -/
structure Evaluated (D R : Type) where
  ids : List D
  rows : List R
  query : R
  deriving DecidableEq, Repr

/-- Where a request is. `/search` tests a hit and then reads its id, `/ask` reads its own copy of
the ids. The fields `on`, and the scores beside the sources, are a record of the run. -/
inductive Request (D R S : Type)
  | waiting
  | testing (on : Evaluated D R) (lines : List (D × S)) (hits : List (S × ℤ))
  | reading (on : Evaluated D R) (lines : List (D × S)) (score : S) (idx : ℤ) (hits : List (S × ℤ))
  | returned (on : Evaluated D R) (lines : List (D × S))
  | asking (on : Evaluated D R) (idsSnapshot : List D) (sources : List (D × S))
      (hits : List (S × ℤ))
  | answered (on : Evaluated D R) (sources : List (D × S))
  | raised
  deriving DecidableEq, Repr

structure Queries (D R S ι : Type) where
  service : Service D R
  request : ι → Request D R S := fun _ => .waiting

/-- An update of the service, the locked part of a request, its next step behind the lock, or a
call in it that raises. -/
inductive QueryAct (D C ι : Type)
  | commit (op : Op D C)
  | search (i : ι) (query : List C) (k : ℤ)
  | ask (i : ι) (question : List C) (k : ℤ)
  | next (i : ι)
  | fail (i : ι)

variable {D C R S ι : Type}

section Requests

variable (eng : Engine C R S) (st : Stores D R)

/-- What both endpoints evaluate the query on. -/
def evaluatedOn (query : List C) : Evaluated D R :=
  ⟨st.ids, st.index, encodeText eng.encode query⟩

/-- `search`, under the lock. -/
def search (query : List C) (k : ℤ) : Request D R S :=
  let on := evaluatedOn eng st query
  if st.index.length = 0 then .returned on []
  else
    match eng.search st.index on.query (min k st.index.length) with
    | none => .raised
    | some hits => .testing on [] hits

/-- `ask`, under the lock. -/
def ask (question : List C) (k : ℤ) : Request D R S :=
  let on := evaluatedOn eng st question
  if st.index.length = 0 then .answered on []
  else
    match eng.search st.index on.query (min k st.index.length) with
    | none => .raised
    | some hits => .asking on st.ids [] hits

/-- The next step behind the lock. `search` reads the global `_ids`, first its length. -/
def Request.next : Request D R S → Request D R S
  | .testing on lines [] => .returned on lines
  | .testing on lines ((score, idx) :: hits) =>
    if 0 ≤ idx ∧ idx < st.ids.length ∧ eng.relevant score then .reading on lines score idx hits
    else .testing on lines hits
  | .reading on lines score idx hits =>
    match st.ids[idx.toNat]? with
    | some id => .testing on (lines ++ [(id, score)]) hits
    | none => .raised
  | .asking on _ sources [] => .answered on sources
  | .asking on idsSnapshot sources ((score, idx) :: hits) =>
    if 0 ≤ idx ∧ idx < idsSnapshot.length then
      match idsSnapshot[idx.toNat]? with
      | some id => .asking on idsSnapshot (sources ++ [(id, score)]) hits
      | none => .raised
    else .asking on idsSnapshot sources hits
  | r => r

end Requests

def Request.isWaiting : Request D R S → Bool
  | .waiting => true
  | _ => false

def Queries.setRequest [DecidableEq ι] (s : Queries D R S ι) (i : ι) (r : Request D R S) : Queries D R S ι :=
  { s with request := Function.update s.request i r }

/-- One step; a request that has begun does not begin again. -/
def queryStep [DecidableEq D] [DecidableEq ι] (eng : Engine C R S) (s : Queries D R S ι) :
    QueryAct D C ι → Queries D R S ι
  | .commit op => { s with service := step eng.encode s.service op }
  | .search i query k =>
    if (s.request i).isWaiting then s.setRequest i (search eng s.service.stores query k) else s
  | .ask i question k =>
    if (s.request i).isWaiting then s.setRequest i (ask eng s.service.stores question k) else s
  | .next i => s.setRequest i ((s.request i).next eng s.service.stores)
  | .fail i => s.setRequest i .raised

/-- The hits are rows with their own inner products, or `-1`. -/
def Scored (eng : Engine C R S) (rows : List R) (query : R) (hits : List (S × ℤ)) : Prop :=
  ∀ score (row : ℕ), (score, (row : ℤ)) ∈ hits →
    ∃ vec, rows[row]? = some vec ∧ score = eng.innerProduct query vec

/-- FAISS: an `IndexFlatIP` search gives row numbers with the inner products of these rows. -/
def Engine.ScoresRows (eng : Engine C R S) : Prop :=
  ∀ rows query k hits, eng.search rows query k = some hits → Scored eng rows query hits

/-- The document of the pair has the pair's score in the state the query was evaluated on. -/
def Evaluated.Own (eng : Engine C R S) (on : Evaluated D R) (p : D × S) : Prop :=
  ∃ (row : ℕ) (vec : R), on.ids[row]? = some p.1 ∧ on.rows[row]? = some vec ∧
    p.2 = eng.innerProduct on.query vec

/-- What a request has put in its answer so far. -/
def Request.CollectsOwn (eng : Engine C R S) : Request D R S → Prop
  | .testing on lines _ => ∀ p ∈ lines, on.Own eng p
  | .reading on lines _ _ _ => ∀ p ∈ lines, on.Own eng p
  | .returned on lines => ∀ p ∈ lines, on.Own eng p
  | .asking on _ sources _ => ∀ p ∈ sources, on.Own eng p
  | .answered on sources => ∀ p ∈ sources, on.Own eng p
  | .waiting => True
  | .raised => True

def Request.ReturnsOwn (eng : Engine C R S) : Request D R S → Prop
  | .returned on lines => ∀ p ∈ lines, on.Own eng p
  | .answered on sources => ∀ p ∈ sources, on.Own eng p
  | _ => True

/-- Behind the lock every hit is still one of the search, and `/ask` has the ids of that state. -/
def Request.Pending (eng : Engine C R S) : Request D R S → Prop
  | .testing on _ hits => Scored eng on.rows on.query hits
  | .reading on _ score idx hits => 0 ≤ idx ∧ Scored eng on.rows on.query ((score, idx) :: hits)
  | .asking on idsSnapshot _ hits => idsSnapshot = on.ids ∧ Scored eng on.rows on.query hits
  | _ => True

/-- The id that now stands in the row of a hit, if one does, stood there when the query was
evaluated. -/
def Evaluated.SameRow (on : Evaluated D R) (ids : List D) (row : ℕ) : Prop :=
  ∀ id, ids[row]? = some id → on.ids[row]? = some id

/-- The id that now stands in the row of a hit stood there when the query was evaluated, or
stood in another row with the same score. -/
def Evaluated.KeepsRow (eng : Engine C R S) (on : Evaluated D R) (ids : List D) (row : ℕ) : Prop :=
  ∀ id, ids[row]? = some id → on.ids[row]? = some id ∨ ∃ other : ℕ, on.ids[other]? = some id ∧
    on.rows[other]?.map (eng.innerProduct on.query) = on.rows[row]?.map (eng.innerProduct on.query)

/-- If the next step is a read of `_ids` by `/search`, `P` holds of the row that it reads. -/
def Request.ReadMeets (P : Evaluated D R → ℕ → Prop) : Request D R S → Prop
  | .reading on _ _ idx _ => P on idx.toNat
  | _ => True

def ReadMeets (P : List D → Evaluated D R → ℕ → Prop) (s : Queries D R S ι) :
    QueryAct D C ι → Prop
  | .next i => (s.request i).ReadMeets (P s.service.stores.ids)
  | _ => True

/-- No read by `/search` finds another document in the row of its hit. -/
def ReadsSame : Queries D R S ι → QueryAct D C ι → Prop :=
  ReadMeets fun ids on row => on.SameRow ids row

def ReadsOwn (eng : Engine C R S) : Queries D R S ι → QueryAct D C ι → Prop :=
  ReadMeets fun ids on row => on.KeepsRow eng ids row

variable {eng : Engine C R S} {st : Stores D R} {s : Queries D R S ι}

theorem Scored.tail {rows : List R} {query : R} {hit : S × ℤ} {hits : List (S × ℤ)}
    (h : Scored eng rows query (hit :: hits)) : Scored eng rows query hits :=
  fun score row hmem => h score row (List.mem_cons_of_mem hit hmem)

theorem own_iff_keepsRow {on : Evaluated D R} {score : S} {row : ℕ} {id : D} {vec : R}
    (hrow : on.rows[row]? = some vec) (hscore : score = eng.innerProduct on.query vec) :
    on.Own eng (id, score) ↔ on.ids[row]? = some id ∨ ∃ other : ℕ, on.ids[other]? = some id ∧
      on.rows[other]?.map (eng.innerProduct on.query) =
        on.rows[row]?.map (eng.innerProduct on.query) := by
  rw [hrow, Option.map_some, ← hscore]
  constructor
  · rintro ⟨other, vec', hid, hvec', he⟩
    exact Or.inr ⟨other, hid, by rw [hvec', Option.map_some, ← he]⟩
  · rintro (hid | ⟨other, hid, he⟩)
    · exact ⟨row, vec, hid, hrow, hscore⟩
    · obtain ⟨vec', hvec', he⟩ := Option.map_eq_some_iff.mp he
      exact ⟨other, vec', hid, hvec', he.symm⟩

theorem forall_mem_concat {α : Type} {P : α → Prop} {l : List α} {a : α} :
    (∀ p ∈ l ++ [a], P p) ↔ (∀ p ∈ l, P p) ∧ P a := by
  simp [or_imp, forall_and]

theorem search_request (hfaiss : eng.ScoresRows) (query : List C) (k : ℤ) :
    (search eng st query k).Pending eng ∧ (search eng st query k).CollectsOwn eng := by
  simp only [search]
  split_ifs with hempty
  · simp [Request.Pending, Request.CollectsOwn]
  rcases hs : eng.search st.index (evaluatedOn eng st query).query (min k st.index.length) with
    _ | hits
  · simp [Request.Pending, Request.CollectsOwn]
  · exact ⟨hfaiss _ _ _ _ hs, by simp [Request.CollectsOwn]⟩

theorem ask_request (hfaiss : eng.ScoresRows) (question : List C) (k : ℤ) :
    (ask eng st question k).Pending eng ∧ (ask eng st question k).CollectsOwn eng := by
  simp only [ask]
  split_ifs with hempty
  · simp [Request.Pending, Request.CollectsOwn]
  rcases hs : eng.search st.index (evaluatedOn eng st question).query (min k st.index.length) with
    _ | hits
  · simp [Request.Pending, Request.CollectsOwn]
  · exact ⟨⟨rfl, hfaiss _ _ _ _ hs⟩, by simp [Request.CollectsOwn]⟩

theorem next_request (st : Stores D R) {r : Request D R S} (hp : r.Pending eng) (hc : r.CollectsOwn eng) :
    (r.next eng st).Pending eng ∧
    ((r.next eng st).CollectsOwn eng ↔
      r.ReadMeets fun on row => on.KeepsRow eng st.ids row) := by
  cases r with
  | waiting => exact ⟨hp, iff_of_true hc trivial⟩
  | returned on lines => exact ⟨hp, iff_of_true hc trivial⟩
  | answered on sources => exact ⟨hp, iff_of_true hc trivial⟩
  | raised => exact ⟨hp, iff_of_true hc trivial⟩
  | testing on lines hits =>
    rcases hits with _ | ⟨⟨score, idx⟩, hits⟩
    · exact ⟨trivial, iff_of_true hc trivial⟩
    · simp only [Request.next]
      split_ifs with htest
      · exact ⟨⟨htest.1, hp⟩, iff_of_true hc trivial⟩
      · exact ⟨Scored.tail hp, iff_of_true hc trivial⟩
  | reading on lines score idx hits =>
    obtain ⟨hidx, hscored⟩ := hp
    obtain ⟨vec, hvec, hscore⟩ := hscored score idx.toNat (by simp [Int.toNat_of_nonneg hidx])
    simp only [Request.next]
    rcases hid : st.ids[idx.toNat]? with _ | id
    · refine ⟨trivial, iff_of_true trivial ?_⟩
      intro id' hid'
      simp [hid] at hid'
    · refine ⟨hscored.tail, ?_⟩
      have hlines : ∀ p ∈ lines, on.Own eng p := hc
      change (∀ p ∈ lines ++ [(id, score)], on.Own eng p) ↔ _
      rw [forall_mem_concat, and_iff_right hlines, own_iff_keepsRow hvec hscore]
      simp [Request.ReadMeets, Evaluated.KeepsRow, hid]
  | asking on idsSnapshot sources hits =>
    rcases hits with _ | ⟨⟨score, idx⟩, hits⟩
    · exact ⟨trivial, iff_of_true hc trivial⟩
    · obtain ⟨hids, hscored⟩ := hp
      simp only [Request.next]
      split_ifs with htest
      · rcases hid : idsSnapshot[idx.toNat]? with _ | id
        · exact ⟨trivial, iff_of_true trivial trivial⟩
        · -- the copy has the ids of the state that was searched
          obtain ⟨vec, hvec, hscore⟩ := hscored score idx.toNat
            (by simp [Int.toNat_of_nonneg htest.1])
          refine ⟨⟨hids, hscored.tail⟩, iff_of_true ?_ trivial⟩
          exact forall_mem_concat.mpr ⟨hc, idx.toNat, vec, hids ▸ hid, hvec, hscore⟩
      · exact ⟨⟨hids, hscored.tail⟩, iff_of_true hc trivial⟩

variable [DecidableEq D] [DecidableEq ι]

omit [DecidableEq D] in
theorem forall_setRequest {P : Request D R S → Prop} (h : ∀ j, P (s.request j)) (i : ι)
    (r : Request D R S) : (∀ j, P ((s.setRequest i r).request j)) ↔ P r := by
  simp only [Queries.setRequest]
  rw [Function.forall_update_iff s.request (fun _ => P)]
  exact and_iff_left fun j _ => h j

theorem queryStep_collects (hfaiss : eng.ScoresRows) (s : Queries D R S ι) (a : QueryAct D C ι)
    (hp : ∀ i, (s.request i).Pending eng) (hc : ∀ i, (s.request i).CollectsOwn eng) :
    (∀ i, ((queryStep eng s a).request i).Pending eng) ∧
    ((∀ i, ((queryStep eng s a).request i).CollectsOwn eng) ↔ ReadsOwn eng s a) := by
  have hset : ∀ i (r : Request D R S), r.Pending eng ∧ r.CollectsOwn eng →
      (∀ j, ((s.setRequest i r).request j).Pending eng) ∧
      ((∀ j, ((s.setRequest i r).request j).CollectsOwn eng) ↔ True) := by
    intro i r hr
    rw [forall_setRequest hp i r, forall_setRequest hc i r]
    exact ⟨hr.1, iff_of_true hr.2 trivial⟩
  cases a with
  | commit op => exact ⟨hp, iff_of_true hc trivial⟩
  | search i query k =>
    simp only [queryStep]
    split_ifs with hw
    · exact hset i _ (search_request hfaiss query k)
    · exact ⟨hp, iff_of_true hc trivial⟩
  | ask i question k =>
    simp only [queryStep]
    split_ifs with hw
    · exact hset i _ (ask_request hfaiss question k)
    · exact ⟨hp, iff_of_true hc trivial⟩
  | next i =>
    obtain ⟨hpending, hcollects⟩ := next_request s.service.stores (hp i) (hc i)
    simp only [queryStep]
    rw [forall_setRequest hp i, forall_setRequest hc i]
    exact ⟨hpending, hcollects⟩
  | fail i => exact hset i .raised ⟨trivial, trivial⟩

omit [DecidableEq D] [DecidableEq ι] in
theorem Request.CollectsOwn.returns {r : Request D R S} (h : r.CollectsOwn eng) :
    r.ReturnsOwn eng := by
  cases r with
  | returned on lines => exact h
  | answered on sources => exact h
  | _ => trivial

omit [DecidableEq D] [DecidableEq ι] in
theorem ReadsSame.own (s : Queries D R S ι) (a : QueryAct D C ι) (h : ReadsSame s a) :
    ReadsOwn eng s a := by
  cases a with
  | next i =>
    simp only [ReadsSame, ReadsOwn, ReadMeets] at h ⊢
    cases hr : s.request i with
    | reading on lines score idx hits =>
      rw [hr] at h
      exact fun id hid => Or.inl (h id hid)
    | _ => trivial
  | _ => trivial

/-- While no read of `_ids` by `/search` meets another document in its row, every answer names
the documents whose scores it gives; and else only where scores agree by chance. -/
theorem answers_own (eng : Engine C R S) (hfaiss : eng.ScoresRows) (service : Service D R)
    (acts : List (QueryAct D C ι)) :
    let start : Queries D R S ι := { service }
    (Runs.AllOk (queryStep eng) ReadsSame start acts →
      Runs.Throughout (queryStep eng) (fun s => ∀ i, (s.request i).ReturnsOwn eng) start acts) ∧
    (Runs.Throughout (queryStep eng) (fun s => ∀ i, (s.request i).CollectsOwn eng) start acts ↔
      Runs.AllOk (queryStep eng) (ReadsOwn eng) start acts) := by
  intro start
  have hiff : Runs.Throughout (queryStep eng) (fun s => ∀ i, (s.request i).CollectsOwn eng)
      start acts ↔ Runs.AllOk (queryStep eng) (ReadsOwn eng) start acts :=
    Runs.throughout_iff_allOk (J := fun s => ∀ i, (s.request i).Pending eng)
      (queryStep_collects hfaiss) (fun _ => trivial) (fun _ => trivial) acts
  refine ⟨fun hok => ?_, hiff⟩
  exact (hiff.mpr (hok.imp ReadsSame.own)).imp fun _ h i => (h i).returns

def lineEngine : Engine ℤ ℤ ℤ where
  encode text := text.headD 0
  innerProduct q v := q * v
  search rows q k :=
    if k ≤ 0 then none
    else
      let hits := rows.zipIdx.map fun row => (q * row.1, (row.2 : ℤ))
      some ((hits.insertionSort fun a b => a.1 ≥ b.1).take k.toNat)
  relevant score := 0 ≤ score

theorem lineEngine_scoresRows : lineEngine.ScoresRows := by
  intro rows query k hits hs score row hmem
  simp only [lineEngine] at hs
  split_ifs at hs with hk
  obtain rfl := Option.some.inj hs
  have hsorted := List.mem_of_mem_take hmem
  rw [List.mem_insertionSort, List.mem_map] at hsorted
  obtain ⟨⟨vec, n⟩, hn, he⟩ := hsorted
  obtain ⟨hscore, hrow⟩ := Prod.mk.injEq .. ▸ he
  have hrow' : n = row := by exact_mod_cast hrow
  refine ⟨vec, ?_, hscore.symm⟩
  rw [← hrow']
  exact List.mem_zipIdx_iff_getElem?.mp hn

/-- Document 1 is found and removed before its id is read: its score goes to document 2. -/
def removalInSearch : List (QueryAct ℕ ℤ (Fin 1)) :=
  [.commit (.addDoc 1 [5]), .commit (.addDoc 2 [3]), .search 0 [1] 10, .commit (.removeDoc 1),
    .next 0, .next 0, .next 0, .next 0]

theorem removalInSearch_not_own : lineEngine.ScoresRows ∧
    ¬ Runs.Throughout (queryStep lineEngine) (fun s => ∀ i, (s.request i).ReturnsOwn lineEngine)
      ({ service := {} } : Queries ℕ ℤ ℤ (Fin 1)) removalInSearch := by
  refine ⟨lineEngine_scoresRows, fun h => ?_⟩
  have hreturned : (Runs.run (queryStep lineEngine) ({ service := {} } : Queries ℕ ℤ ℤ (Fin 1))
      removalInSearch).request 0 = .returned ⟨[1, 2], [5, 3], 1⟩ [(2, 5)] := by decide
  have hown := h removalInSearch (List.prefix_refl _) 0
  rw [hreturned] at hown
  obtain ⟨row, vec, hid, hvec, hscore⟩ := hown (2, 5) (List.mem_singleton.mpr rfl)
  -- document 2 stands in row 1, whose score is 3
  rcases row with _ | _ | row
  · simp at hid
  · simp only [List.getElem?_cons_succ, List.getElem?_cons_zero, Option.some.injEq] at hvec
    simp [lineEngine, ← hvec] at hscore
  · simp at hid

def removalAheadOfSearch : List (QueryAct ℕ ℤ (Fin 1)) :=
  [.commit (.addDoc 1 [5]), .commit (.addDoc 2 [3]), .commit (.removeDoc 1), .search 0 [1] 10,
    .next 0, .next 0, .next 0]

theorem removalAheadOfSearch_own :
    Runs.Throughout (queryStep lineEngine) (fun s => ∀ i, (s.request i).ReturnsOwn lineEngine)
      ({ service := {} } : Queries ℕ ℤ ℤ (Fin 1)) removalAheadOfSearch ∧
    (Runs.run (queryStep lineEngine) ({ service := {} } : Queries ℕ ℤ ℤ (Fin 1))
      removalAheadOfSearch).request 0 = .returned ⟨[2], [3], 1⟩ [(2, 3)] := by
  refine ⟨(answers_own lineEngine lineEngine_scoresRows {} removalAheadOfSearch).1 ?_, by decide⟩
  iterate 5 refine Runs.allOk_cons.mpr ⟨trivial, ?_⟩
  refine Runs.allOk_cons.mpr ⟨fun id hid => hid, ?_⟩
  exact Runs.allOk_cons.mpr ⟨trivial, Runs.allOk_nil⟩

end SemanticSearch.EmbedService
