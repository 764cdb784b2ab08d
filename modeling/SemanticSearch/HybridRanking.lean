import SemanticSearch.IndexRuns
import SemanticSearch.RrfMerge
import SemanticSearch.SearchAndRank

namespace SemanticSearch

open InvertedIndex

variable {S : Type}

def hybridRanking (int : IntType) (orders : SearchOrders) (merges : MergeOrders ℚ)
    (m_count : InvertedIndex) (terms : List Bytes) (semantic : List (Bytes × S)) :
    List (Bytes × ℚ) :=
  rrfMerge merges (searchAndRank int orders m_count terms) semantic

variable {int : IntType} {orders orders' : SearchOrders} {merges merges' : MergeOrders ℚ}
  {m_count : InvertedIndex} {terms terms' : List Bytes} {semantic : List (Bytes × S)}
  {id other : Bytes} {s : ℤ}

theorem mem_searchAndRank_of_perm (hterms : terms'.Perm terms) (p : Bytes × ℤ) :
    p ∈ searchAndRank int orders' m_count terms' ↔ p ∈ searchAndRank int orders m_count terms := by
  have hcounts := hterms.filterMap (m_count.cell · p.1)
  have hall : (∀ term ∈ terms', m_count[term]? ≠ none) ↔ ∀ term ∈ terms, m_count[term]? ≠ none :=
    forall_congr' fun term => imp_congr_left hterms.mem_iff
  obtain ⟨file, score⟩ := p
  rw [mem_searchAndRank_iff, mem_searchAndRank_iff, hall, counts, counts, hcounts.sum_nat,
    hcounts.length_eq, hterms.length_eq, ne_eq, ne_eq, ← List.length_eq_zero_iff,
    ← List.length_eq_zero_iff, hcounts.length_eq]

theorem searchAndRank_perm (hterms : terms'.Perm terms) :
    (searchAndRank int orders' m_count terms').Perm (searchAndRank int orders m_count terms) :=
  (List.perm_ext_iff_of_nodup (nodup_searchAndRank terms').of_map
    (nodup_searchAndRank terms).of_map).mpr (mem_searchAndRank_of_perm hterms)

theorem mem_hybridRanking_iff {score : ℚ} :
    (id, score) ∈ hybridRanking int orders merges m_count terms semantic ↔
      (id ∈ (searchAndRank int orders m_count terms).map Prod.fst ∨
        id ∈ semantic.map Prod.fst) ∧
      score = rankScore ((searchAndRank int orders m_count terms).map Prod.fst) id +
        rankScore (semantic.map Prod.fst) id := by
  unfold hybridRanking
  constructor
  · exact fun h => ⟨mem_ids_rrfMerge.mp (List.mem_map_of_mem h), score_rrfMerge h⟩
  · rintro ⟨hid, rfl⟩
    have hids : id ∈ (rrfMerge merges (searchAndRank int orders m_count terms) semantic).map
        Prod.fst := mem_ids_rrfMerge.mpr hid
    obtain ⟨⟨_, score⟩, hmem, hid'⟩ := List.mem_map.mp hids
    obtain rfl : id = _ := hid'.symm
    rw [← score_rrfMerge hmem]
    exact hmem

theorem mem_hybridRanking_congr
    (hids : (searchAndRank int orders' m_count terms').Perm
      (searchAndRank int orders m_count terms))
    (hposition : position (searchAndRank int orders' m_count terms') id =
      position (searchAndRank int orders m_count terms) id) (score : ℚ) :
    (id, score) ∈ hybridRanking int orders' merges' m_count terms' semantic ↔
      (id, score) ∈ hybridRanking int orders merges m_count terms semantic := by
  have hmem := (hids.map Prod.fst).mem_iff (a := id)
  have hrank : rankScore ((searchAndRank int orders' m_count terms').map Prod.fst) id =
      rankScore ((searchAndRank int orders m_count terms).map Prod.fst) id := by
    by_cases hid : id ∈ (searchAndRank int orders m_count terms).map Prod.fst
    · rw [position, position] at hposition
      rw [rankScore_of_mem (nodup_searchAndRank terms) hid,
        rankScore_of_mem (nodup_searchAndRank terms') (hmem.mpr hid), hposition]
    · rw [rankScore_of_notMem hid, rankScore_of_notMem fun h => hid (hmem.mp h)]
  rw [mem_hybridRanking_iff, mem_hybridRanking_iff, hmem, hrank]

theorem position_eq_of_mem_hybridRanking
    (hid : id ∈ (searchAndRank int orders m_count terms).map Prod.fst)
    (hid' : id ∈ (searchAndRank int orders' m_count terms).map Prod.fst)
    (h : ∀ score, (id, score) ∈ hybridRanking int orders' merges m_count terms semantic ↔
      (id, score) ∈ hybridRanking int orders merges m_count terms semantic) :
    position (searchAndRank int orders' m_count terms) id =
      position (searchAndRank int orders m_count terms) id := by
  have hscore := (mem_hybridRanking_iff.mp
    ((h _).mpr (mem_hybridRanking_iff.mpr ⟨Or.inl hid, rfl⟩))).2
  have hrank := add_right_cancel hscore
  rw [rankScore_of_mem (nodup_searchAndRank terms) hid,
    rankScore_of_mem (nodup_searchAndRank terms) hid'] at hrank
  have hdenominator := add_left_cancel (inv_injective (by simpa only [one_div] using hrank))
  exact_mod_cast hdenominator.symm

/-- `x` may stand before `y`: a greater score does, and of equal ones that of `first`. -/
def before (first : Bytes) (x y : Bytes × ℤ) : Prop :=
  y.2 < x.2 ∨ y.2 = x.2 ∧ (y.1 = first → x.1 = first)

instance (first : Bytes) : DecidableRel (before first) := fun x y =>
  inferInstanceAs (Decidable (y.2 < x.2 ∨ y.2 = x.2 ∧ (y.1 = first → x.1 = first)))

instance (first : Bytes) : Std.Total (before first) := ⟨fun x y => by
  rcases lt_trichotomy x.2 y.2 with hlt | heq | hgt
  · exact Or.inr (Or.inl hlt)
  · by_cases hy : y.1 = first
    · exact Or.inr (Or.inr ⟨heq, fun _ => hy⟩)
    · exact Or.inl (Or.inr ⟨heq.symm, fun h => absurd h hy⟩)
  · exact Or.inl (Or.inl hgt)⟩

instance (first : Bytes) : IsTrans (Bytes × ℤ) (before first) := ⟨fun x y z hxy hyz => by
  unfold before at hxy hyz ⊢
  rcases hxy with hxy | ⟨hxy, hfirst⟩ <;> rcases hyz with hyz | ⟨hyz, hfirst'⟩
  · exact Or.inl (by omega)
  · exact Or.inl (by omega)
  · exact Or.inl (by omega)
  · exact Or.inr ⟨by omega, fun h => hfirst (hfirst' h)⟩⟩

/-- A sort that puts `first` in front of the others with its score. -/
def preferring (first : Bytes) : SearchOrders where
  __ := SearchOrders.stable
  sort l := l.insertionSort (before first)
  sort_perm l := l.perm_insertionSort _
  sort_desc l := (l.pairwise_insertionSort (before first)).imp fun h => by
    rcases h with h | ⟨h, -⟩
    · exact h.le
    · exact h.le

theorem before_searchAndRank (int : IntType) (m_count : InvertedIndex) (first : Bytes)
    (terms : List Bytes) :
    (searchAndRank int (preferring first) m_count terms).Pairwise (before first) := by
  unfold searchAndRank
  split_ifs
  · exact List.Pairwise.nil
  rcases tallyTerms int (preferring first) m_count terms {} with _ | t
  · exact List.Pairwise.nil
  · exact List.pairwise_insertionSort (before first) _

theorem position_preferring (h : (id, s) ∈ searchAndRank int (preferring id) m_count terms) :
    position (searchAndRank int (preferring id) m_count terms) id =
      (searchAndRank int (preferring id) m_count terms).countP fun p => s < p.2 := by
  have hranked : Ranked (searchAndRank int (preferring id) m_count terms) :=
    ranked_searchAndRank terms
  have hkeys := List.pairwise_map.mp hranked.nodup
  apply position_eq_countP hranked h
  refine ((before_searchAndRank int m_count id terms).and hkeys).imp ?_
  rintro p q ⟨hlt | ⟨-, hfirst⟩, hne⟩ rfl
  · exact hlt
  · exact absurd (hfirst rfl) hne

theorem position_preferring_ne (hne : other ≠ id)
    (hid : ∀ orders, (id, s) ∈ searchAndRank int orders m_count terms)
    (hother : ∀ orders, (other, s) ∈ searchAndRank int orders m_count terms) :
    position (searchAndRank int (preferring other) m_count terms) id ≠
      position (searchAndRank int (preferring id) m_count terms) id := by
  intro heq
  have hperm : (searchAndRank int (preferring id) m_count terms).Perm
      (searchAndRank int (preferring other) m_count terms) := searchAndRank_perm (List.Perm.refl _)
  have hfront : position (searchAndRank int (preferring other) m_count terms) other =
      position (searchAndRank int (preferring other) m_count terms) id := by
    rw [heq, position_preferring (hother _), position_preferring (hid _), hperm.countP_eq]
  have hmem : other ∈ (searchAndRank int (preferring other) m_count terms).map Prod.fst :=
    List.mem_map_of_mem (hother _)
  exact hne ((List.idxOf_inj hmem).mp hfront)

/-- Two runs of the index that leave the same contents, two orders of the terms and any two
outcomes of the maps and sorts give a document the same fused score, and this holds for exactly the
documents that no other document has the keyword score of. -/
theorem hybridRanking_order_free_iff (int : IntType) (ops : List (FileView × Op))
    (m_count : InvertedIndex) (hrun : run ops ∅ = .ok m_count) (terms : List Bytes)
    (semantic : List (Bytes × S)) (id : Bytes) :
    (∀ ops' m_count', run ops' ∅ = .ok m_count' →
      runSnapshots ops' (fun _ => none) = runSnapshots ops (fun _ => none) →
      ∀ terms', terms'.Perm terms → ∀ orders orders' merges merges' score,
        (id, score) ∈ hybridRanking int orders' merges' m_count' terms' semantic ↔
          (id, score) ∈ hybridRanking int orders merges m_count terms semantic) ↔
    ∀ orders s other, (id, s) ∈ searchAndRank int orders m_count terms →
      (other, s) ∈ searchAndRank int orders m_count terms → other = id := by
  constructor
  · intro hsame orders s other hid hother
    by_contra hne
    have hall : ∀ p, p ∈ searchAndRank int orders m_count terms → ∀ orders',
        p ∈ searchAndRank int orders' m_count terms := fun p hp orders' =>
      (mem_searchAndRank_of_perm (List.Perm.refl terms) p).mpr hp
    have hids : ∀ orders', id ∈ (searchAndRank int orders' m_count terms).map Prod.fst :=
      fun orders' => List.mem_map_of_mem (hall _ hid orders')
    have hposition := position_eq_of_mem_hybridRanking (hids (preferring id))
      (hids (preferring other))
      (hsame ops m_count hrun rfl terms (List.Perm.refl _) _ _ .stable .stable)
    exact position_preferring_ne hne (hall _ hid) (hall _ hother) hposition
  · intro hunique ops' m_count' hrun' hsnapshots terms' hterms orders orders' merges merges' score
    have hindex := indexOf_empty.run hrun
    obtain rfl : m_count' = m_count := (hsnapshots ▸ indexOf_empty.run hrun').unique hindex
    have hperm : (searchAndRank int orders' m_count' terms').Perm
        (searchAndRank int orders m_count' terms) := searchAndRank_perm hterms
    apply mem_hybridRanking_congr hperm
    exact ((ranked_searchAndRank terms).position_eq_of_perm (ranked_searchAndRank terms') hperm.symm
      fun s hs b => hunique orders s b hs).symm

def twoFiles : FileView :=
  { grownTree with
    read := fun path => if path = text "r/a" ∨ path = text "r/b" then some (text "hat") else none }

/-- Two files share their keyword score, and which of them comes first is up to the sort. -/
theorem hybridRanking_tie :
    ∃ m_count, run [(twoFiles, .build (text "r"))] ∅ = .ok m_count ∧
      (text "r/a", 1 / 61) ∈ hybridRanking .unbounded (preferring (text "r/a")) .stable m_count
        [text "hat"] ([] : List (Bytes × ℚ)) ∧
      (text "r/a", 1 / 62) ∈ hybridRanking .unbounded (preferring (text "r/b")) .stable m_count
        [text "hat"] ([] : List (Bytes × ℚ)) ∧
      (1 / 61 : ℚ) ≠ 1 / 62 :=
  ⟨_, rfl, by decide +kernel, by decide +kernel, by norm_num⟩

theorem hybridRanking_order_free_twoScores :
    ∃ m_count, run [(grownTree, .build (text "r"))] ∅ = .ok m_count ∧
      ∀ orders orders' : SearchOrders, ∀ score,
        (text "r/b", score) ∈ hybridRanking .unbounded orders' .stable m_count [text "hat"]
          ([] : List (Bytes × ℚ)) ↔
        (text "r/b", score) ∈ hybridRanking .unbounded orders .stable m_count [text "hat"]
          ([] : List (Bytes × ℚ)) := by
  refine ⟨_, rfl, fun orders orders' => ?_⟩
  refine (hybridRanking_order_free_iff .unbounded [(grownTree, .build (text "r"))] _ rfl [text "hat"]
    [] (text "r/b")).mpr ?_ _ _ rfl rfl _ (List.Perm.refl _) orders orders' .stable .stable
  intro orders s other hid hother
  have hres : ∀ doc s, (doc, s) ∈ searchAndRank .unbounded orders (countLines (text "r/b")
      (text "cap, hat") (countLines (text "r/a") (text "Hat, hat") ∅)) [text "hat"] →
        (doc, s) ∈ [(text "r/a", (2 : ℤ)), (text "r/b", 1)] := by
    intro doc s hdoc
    have horder : searchAndRank .unbounded (preferring (text "r/a")) (countLines (text "r/b")
        (text "cap, hat") (countLines (text "r/a") (text "Hat, hat") ∅)) [text "hat"] =
          [(text "r/a", 2), (text "r/b", 1)] := by
      decide +kernel
    rw [← horder]
    exact (mem_searchAndRank_of_perm (List.Perm.refl _) _).mp hdoc
  have hs : s = 1 := by
    have h := hres _ _ hid
    have hne : text "r/b" ≠ text "r/a" := by decide
    simpa [hne] using h
  have h := hres _ _ hother
  rw [hs] at h
  simpa using h

end SemanticSearch
