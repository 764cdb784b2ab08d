import SemanticSearch.LockedRequests

namespace SemanticSearch

open InvertedIndex SharedMutex

variable {V ι κ : Type}

theorem int32_wrap_inj {m n : ℕ} (hm : m < 2 ^ 32) (hn : n < 2 ^ 32)
    (h : IntType.int32.wrap m = IntType.int32.wrap n) : m = n := by
  have hemod := congrArg (· % ((2 ^ 32 : ℕ) : ℤ)) h
  simp only [IntType.int32, Int.bmod_emod] at hemod
  omega

/-- Every term is a token of the content of `path`. -/
def FileHas (S : Snapshots) (terms : List Bytes) (path : Bytes) : Prop :=
  ∃ content, S path = some content ∧ ∀ term ∈ terms, term ∈ tokenize content

/-- How often the terms occur in `path` together. -/
def fileScore (S : Snapshots) (terms : List Bytes) (path : Bytes) : ℕ :=
  (terms.map fun term => occurrences S term path).sum

theorem occurrences_ne_zero_iff {S : Snapshots} {term path : Bytes} :
    occurrences S term path ≠ 0 ↔ ∃ content, S path = some content ∧ term ∈ tokenize content := by
  unfold occurrences
  rcases S path with _ | content
  · simp
  · simp [List.count_eq_zero]

theorem fileHas_iff {S : Snapshots} {terms : List Bytes} {path : Bytes} (h0 : terms ≠ []) :
    FileHas S terms path ↔ ∀ term ∈ terms, occurrences S term path ≠ 0 := by
  constructor
  · intro ⟨content, hcontent, hall⟩ term hterm
    exact occurrences_ne_zero_iff.mpr ⟨content, hcontent, hall term hterm⟩
  · intro hall
    obtain ⟨term, hterm⟩ := List.exists_mem_of_ne_nil terms h0
    obtain ⟨content, hcontent, -⟩ := occurrences_ne_zero_iff.mp (hall term hterm)
    refine ⟨content, hcontent, fun term hterm => ?_⟩
    obtain ⟨content', hcontent', hmem⟩ := occurrences_ne_zero_iff.mp (hall term hterm)
    rw [hcontent] at hcontent'
    rwa [Option.some.inj hcontent']

/-- The cells of one path are those of the files. -/
def CellsAt (m_count : InvertedIndex) (S : Snapshots) (path : Bytes) : Prop :=
  ∀ word, m_count.cell word path =
    if occurrences S word path = 0 then none else some (occurrences S word path)

section Cells

variable {m_count : InvertedIndex} {S : Snapshots} {path : Bytes} {terms : List Bytes}

theorem CellsAt.isSome_iff (h : CellsAt m_count S path) (term : Bytes) :
    (m_count.cell term path).isSome ↔ occurrences S term path ≠ 0 := by
  rw [h term]
  split_ifs with h0 <;> simp [h0]

theorem CellsAt.counts_eq (h : CellsAt m_count S path)
    (hall : ∀ term ∈ terms, occurrences S term path ≠ 0) :
    m_count.counts path terms = terms.map fun term => occurrences S term path := by
  rw [counts, ← List.filterMap_eq_map]
  apply List.filterMap_congr
  intro term hterm
  rw [h term, if_neg (hall term hterm)]
  rfl

theorem CellsAt.mem_searchAndRank_iff (h : CellsAt m_count S path) (orders : SearchOrders)
    (h0 : terms ≠ []) (hlen : terms.length < 2 ^ 32) {score : ℤ} :
    (path, score) ∈ searchAndRank .int32 orders m_count terms ↔
      FileHas S terms path ∧ score = IntType.int32.wrap (fileScore S terms path) := by
  rw [InvertedIndex.mem_searchAndRank_iff, fileHas_iff h0]
  have hle : (m_count.counts path terms).length ≤ terms.length := List.length_filterMap_le ..
  have hall : (m_count.counts path terms).length = terms.length ↔
      ∀ term ∈ terms, occurrences S term path ≠ 0 := by
    rw [length_counts_iff]
    exact forall₂_congr fun term _ => h.isSome_iff term
  constructor
  · intro ⟨_, _, hcount, hscore⟩
    have hterms := hall.mp (int32_wrap_inj (by omega) hlen hcount)
    rw [h.counts_eq hterms] at hscore
    exact ⟨hterms, hscore⟩
  · intro ⟨hterms, hscore⟩
    have hlength := hall.mpr hterms
    refine ⟨fun term hterm => ?_, ?_, by rw [hlength], ?_⟩
    · exact getElem?_ne_none_of_cell ((h.isSome_iff term).mpr (hterms term hterm))
    · exact List.ne_nil_of_length_pos (hlength ▸ List.length_pos_of_ne_nil h0)
    · rw [h.counts_eq hterms]
      exact hscore

end Cells

section Live

variable [Fintype ι] [DecidableEq ι] [Fintype κ] [DecidableEq κ]

/-- From a fresh index, with every path spelled as `Build` spells it, in a run in which every
`RemoveFile` is `RemovalOk`: a search returns each file for which no update of the index is to
come exactly when the file has all terms, with the number of their occurrences. Files and updates
are those of the moment at which the search takes the lock. -/
theorem search_current (P : LockedProgram V ι κ) (hint : P.int = .int32) {s₀ : Sys V ι}
    {r : RealPath} (hroot : RootedTree s₀.world.fs P.ctx.files_root r)
    (hfresh : IndexFresh P.ctx s₀.world) (hspell : ∀ i, SpelledAsBuild P.ctx.files_root (P.job i))
    {pre mid : List (LockedAct ι κ)} {k : κ} {terms : List Bytes} {s : LockedSys V ι κ}
    (hrun : Runs.tryRun P.tryStep (LockedSys.start s₀)
      (pre ++ .lockSearch k terms :: (mid ++ [.unlockSearch k])) = some s)
    (hmid : .unlockSearch k ∉ mid) (h0 : terms ≠ []) (hlen : terms.length < 2 ^ 32)
    (hok : Runs.AllOk P.step (RemovalOk P.toProgram) s₀ (pre.flatMap LockedAct.project)) :
    ∃ s₁ l, Runs.tryRun P.tryStep (LockedSys.start s₀) pre = some s₁ ∧
      s.results.getLast? = some (k, terms, l) ∧
      ∀ path score, ¬ DueAt Phase.IndexDue P.job s₁.abs.phase path → ((path, score) ∈ l ↔
        FileHas (snapshotsOf s₁.fs.view P.ctx.files_root) terms path ∧
          score = IntType.int32.wrap
            (fileScore (snapshotsOf s₁.fs.view P.ctx.files_root) terms path)) := by
  obtain ⟨s₁, hpre, hsearch⟩ := Runs.tryRun_append_iff.mp hrun
  obtain ⟨hsound, habs⟩ := (LockedSys.sound_start s₀).run hpre
  rw [LockedSys.abs_start] at habs
  have hS := hroot.build_eq_iff.mp hfresh
  have hset : Settled P.toProgram s₀ := fun path _ word => hS.cell_eq word path
  have hthroughout : Runs.Throughout P.step (Settled P.toProgram) s₀ (pre.flatMap LockedAct.project) :=
    (run_settled_iff hspell ⟨hroot, _, hS⟩ hset _).mpr hok
  have hsettled : Settled P.toProgram s₁.abs := habs ▸ hthroughout _ (List.prefix_refl _)
  refine ⟨s₁, _, hpre, hsound.answers hsearch hmid, fun path score hdue => ?_⟩
  have hcells : CellsAt s₁.abs.world.index (snapshotsOf s₁.fs.view P.ctx.files_root) path :=
    hsettled path hdue
  rw [hint]
  exact hcells.mem_searchAndRank_iff (P.orders k) h0 hlen

end Live

theorem allOk_putSection : Runs.AllOk putDeleteSearch.step (RemovalOk putDeleteSearch.toProgram)
    freshStart (putSection.flatMap LockedAct.project) := by
  intro pre a ha
  have hmem : a ∈ putSection.flatMap LockedAct.project := ha.subset (by simp)
  obtain rfl : a = some false := by
    have hall : ∀ a ∈ putSection.flatMap (LockedAct.project (κ := Unit)), a = some false := by decide
    exact hall a hmem
  intro _ hdelete
  exact absurd hdelete (by decide)

theorem search_current_beside_delete :
    ∃ s s₁ : LockedSys Unit Bool Unit, ∃ l,
      Runs.tryRun putDeleteSearch.tryStep (LockedSys.start freshStart) putSection = some s₁ ∧
      s.results.getLast? = some ((), [text "hat"], l) ∧
      ∀ path score, ¬ DueAt Phase.IndexDue putDeleteSearch.job s₁.abs.phase path →
        ((path, score) ∈ l ↔ FileHas (snapshotsOf s₁.fs.view (text "root")) [text "hat"] path ∧
          score = IntType.int32.wrap
            (fileScore (snapshotsOf s₁.fs.view (text "root")) [text "hat"] path)) := by
  obtain ⟨s, hs⟩ := Option.isSome_iff_exists.mp run_putSection
  have hroot : RootedTree freshStart.world.fs putDeleteSearch.ctx.files_root
      [text "srv", text "root"] := rootedTree_smallTree
  have hfresh : IndexFresh putDeleteSearch.ctx freshStart.world := indexFresh_smallTree
  exact ⟨s, search_current putDeleteSearch rfl hroot hfresh spelled_putAndDelete hs (by decide)
    (by decide) (by decide) allOk_putSection⟩

end SemanticSearch
