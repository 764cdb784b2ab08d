import SemanticSearch.InvertedIndex
import SemanticSearch.KeyedSums
import SemanticSearch.KeyedFolds
import SemanticSearch.Rankings

namespace SemanticSearch
namespace InvertedIndex

/-- What the language leaves open in one search: the orders in which the hash maps are walked,
and where `std::ranges::sort` puts entries of equal score. -/
structure SearchOrders where
  postings : Bytes → List (Bytes × ℕ) → List (Bytes × ℕ)
  matched : List (Bytes × ℤ) → List (Bytes × ℤ)
  sort : List (Bytes × ℤ) → List (Bytes × ℤ)
  postings_perm : ∀ term l, (postings term l).Perm l
  matched_perm : ∀ l, (matched l).Perm l
  sort_perm : ∀ l, (sort l).Perm l
  sort_desc : ∀ l, (sort l).Pairwise fun a b => b.2 ≤ a.2

def SearchOrders.stable : SearchOrders where
  postings _ l := l
  matched l := l
  sort l := l.mergeSort fun a b => b.2 ≤ a.2
  postings_perm _ _ := List.Perm.refl _
  matched_perm _ := List.Perm.refl _
  sort_perm l := l.mergeSort_perm _
  sort_desc l := by
    have h : (l.mergeSort fun a b => b.2 ≤ a.2).Pairwise fun a b => decide (b.2 ≤ a.2) := by
      apply List.pairwise_mergeSort
      · intro a b c hab hbc
        simp only [decide_eq_true_eq] at hab hbc ⊢
        omega
      · intro a b
        simp only [Bool.or_eq_true, decide_eq_true_eq]
        omega
    exact h.imp of_decide_eq_true

structure Tally where
  scores : SumMap Bytes := ∅
  matchCount : SumMap Bytes := ∅

variable (int : IntType) (orders : SearchOrders) (m_count : InvertedIndex)

/-- The body of the loop over `it->second`. -/
def tallyFile (t : Tally) (p : Bytes × ℕ) : Tally where
  scores := SumMap.addTo int t.scores p.1 p.2
  matchCount := SumMap.addTo int t.matchCount p.1 1

/-- The loop over the terms. Nothing comes of it when a term is in no file. -/
def tallyTerms : List Bytes → Tally → Option Tally
  | [], t => some t
  | term :: terms, t =>
    match m_count[term]? with
    | none => none
    | some files =>
      tallyTerms terms ((orders.postings term files.toList).foldl (tallyFile int) t)

def searchAndRank (terms : List Bytes) : List (Bytes × ℤ) :=
  if terms = [] then [] else
  match tallyTerms int orders m_count terms {} with
  | none => []
  | some t =>
    let numTerms := int.wrap terms.length
    let res := (orders.matched t.matchCount.toList).filterMap fun (file, count) =>
      if count = numTerms then some (file, t.scores.getD file 0) else none
    orders.sort res

/-- The files of `term` with its counts. -/
def postings (term : Bytes) : List (Bytes × ℕ) := (m_count[term]?.getD ∅).toList

/-- The counts in `file` of those terms that it contains. -/
def counts (file : Bytes) (terms : List Bytes) : List ℕ := terms.filterMap (m_count.cell · file)

structure Tallied (log : List (Bytes × ℕ)) (t : Tally) : Prop where
  scores : SumMap.Holds int t.scores (log.map fun p => (p.1, (p.2 : ℤ)))
  matchCount : SumMap.Holds int t.matchCount (log.map fun p => (p.1, 1))

theorem tallied_empty : Tallied int [] {} := ⟨SumMap.holds_empty int, SumMap.holds_empty int⟩

variable {int orders m_count} {log log' : List (Bytes × ℕ)} {t t' : Tally}

theorem Tallied.perm (h : Tallied int log t) (hp : log.Perm log') : Tallied int log' t :=
  ⟨h.scores.perm (hp.map _), h.matchCount.perm (hp.map _)⟩

theorem Tallied.tallyFile (h : Tallied int log t) (p : Bytes × ℕ) :
    Tallied int (log ++ [p]) (tallyFile int t p) := by
  constructor
  · simpa [InvertedIndex.tallyFile] using h.scores.addTo p.1 p.2
  · simpa [InvertedIndex.tallyFile] using h.matchCount.addTo p.1 1

theorem Tallied.foldl_tallyFile (h : Tallied int log t) (l : List (Bytes × ℕ)) :
    Tallied int (log ++ l) (l.foldl (InvertedIndex.tallyFile int) t) := by
  induction l generalizing log t with
  | nil => simpa using h
  | cons p l ih =>
    rw [List.foldl_cons, List.append_cons]
    exact ih (h.tallyFile p)

theorem Tallied.tallyTerms {terms : List Bytes} (h : Tallied int log t)
    (ht : tallyTerms int orders m_count terms t = some t') :
    Tallied int (log ++ terms.flatMap m_count.postings) t' := by
  induction terms generalizing log t with
  | nil =>
    obtain rfl : t = t' := by simpa [InvertedIndex.tallyTerms] using ht
    simpa using h
  | cons term terms ih =>
    simp only [InvertedIndex.tallyTerms] at ht
    rcases hm : m_count[term]? with _ | files
    · simp [hm] at ht
    · rw [hm] at ht
      have hfiles : files.toList = m_count.postings term := by rw [postings, hm]; rfl
      have hone := (h.foldl_tallyFile (orders.postings term files.toList)).perm
        ((orders.postings_perm term files.toList).append_left log)
      rw [List.flatMap_cons, ← List.append_assoc, ← hfiles]
      exact ih hone ht

theorem tallyTerms_eq_none_iff {terms : List Bytes} :
    tallyTerms int orders m_count terms t = none ↔ ∃ term ∈ terms, m_count[term]? = none := by
  induction terms generalizing t with
  | nil => simp [tallyTerms]
  | cons term terms ih =>
    rw [tallyTerms, List.exists_mem_cons_iff]
    rcases hm : m_count[term]? with _ | files
    · exact iff_of_true rfl (Or.inl rfl)
    · simp only [ih, reduceCtorEq, false_or]

variable (m_count) in
theorem filter_postings (term file : Bytes) :
    (m_count.postings term).filter (·.1 = file) = (m_count.cell term file).toList.map (file, ·) := by
  have hnodup : (m_count.postings term).Nodup := (KeyedFold.nodup_keys _).of_map
  have hmem : ∀ p, p ∈ (m_count.postings term).filter (·.1 = file) ↔
      p ∈ (m_count.cell term file).toList.map (file, ·) := by
    rintro ⟨f, n⟩
    simp only [List.mem_filter, postings, Std.ExtTreeMap.mem_toList_iff_getElem?_eq_some,
      CountMap.cell_bump_inner, decide_eq_true_eq, List.mem_map, Option.mem_toList,
      Prod.mk.injEq, exists_eq_right_right]
    constructor
    · rintro ⟨hc, rfl⟩
      exact ⟨hc, rfl⟩
    · rintro ⟨hc, rfl⟩
      exact ⟨hc, rfl⟩
  have hperm := (List.perm_ext_iff_of_nodup (hnodup.filter _)
    (by cases m_count.cell term file <;> simp)).mpr hmem
  rcases hc : m_count.cell term file with _ | n
  · rw [hc] at hperm
    exact hperm.eq_nil
  · rw [hc] at hperm
    exact List.perm_singleton.mp hperm

variable (m_count) in
theorem filter_flatMap_postings (terms : List Bytes) (file : Bytes) :
    (terms.flatMap m_count.postings).filter (·.1 = file) =
      (m_count.counts file terms).map (file, ·) := by
  induction terms with
  | nil => rfl
  | cons term terms ih =>
    rw [List.flatMap_cons, List.filter_append, filter_postings, ih, counts, counts,
      List.filterMap_cons]
    cases m_count.cell term file <;> rfl

theorem amounts_log (g : Bytes × ℕ → ℤ) (terms : List Bytes) (file : Bytes) :
    SumMap.amounts file ((terms.flatMap m_count.postings).map fun p => (p.1, g p)) =
      (m_count.counts file terms).map fun n => g (file, n) := by
  have hfilter := filter_flatMap_postings m_count terms file
  have hcomp : ((terms.flatMap m_count.postings).map fun p => (p.1, g p)).filter (·.1 = file) =
      ((terms.flatMap m_count.postings).filter (·.1 = file)).map fun p => (p.1, g p) := by
    rw [List.filter_map]
    rfl
  rw [SumMap.amounts, hcomp, hfilter, List.map_map, List.map_map]
  rfl

theorem Tallied.maps_eq {terms : List Bytes}
    (h : InvertedIndex.tallyTerms int orders m_count terms {} = some t) (file : Bytes) :
    t.scores[file]? = (if m_count.counts file terms = [] then none
      else some (int.wrap (m_count.counts file terms).sum)) ∧
    t.matchCount[file]? = if m_count.counts file terms = [] then none
      else some (int.wrap (m_count.counts file terms).length) := by
  have ht := (tallied_empty int).tallyTerms h
  rw [List.nil_append] at ht
  constructor
  · rw [ht.scores file, amounts_log fun p => (p.2 : ℤ), Nat.cast_list_sum]
    simp only [List.isEmpty_iff, List.map_eq_nil_iff]
  · rw [ht.matchCount file, amounts_log fun _ => 1]
    simp

theorem searchAndRank_eq_nil {terms : List Bytes} (h : ∃ term ∈ terms, m_count[term]? = none) :
    searchAndRank int orders m_count terms = [] := by
  unfold searchAndRank
  rw [tallyTerms_eq_none_iff.mpr h]
  exact ite_self []

/-- A search returns a file with the sum of its counts when every term is in the index and as
many of them as there are, up to the values of `int`, are in the file. -/
theorem mem_searchAndRank_iff {terms : List Bytes} {file : Bytes} {score : ℤ} :
    (file, score) ∈ searchAndRank int orders m_count terms ↔
      (∀ term ∈ terms, m_count[term]? ≠ none) ∧ m_count.counts file terms ≠ [] ∧
        int.wrap (m_count.counts file terms).length = int.wrap terms.length ∧
        score = int.wrap (m_count.counts file terms).sum := by
  rcases ht : tallyTerms int orders m_count terms {} with _ | t
  · obtain ⟨term, hterm, hnone⟩ := tallyTerms_eq_none_iff.mp ht
    rw [searchAndRank_eq_nil ⟨term, hterm, hnone⟩]
    exact iff_of_false List.not_mem_nil fun h => h.1 term hterm hnone
  · unfold searchAndRank
    split_ifs with h0
    · simp [h0, counts]
    rw [ht]
    have hall : ∀ term ∈ terms, m_count[term]? ≠ none := fun term hterm hnone => by
      cases ht.symm.trans (tallyTerms_eq_none_iff.mpr ⟨term, hterm, hnone⟩)
    obtain ⟨hscore, hcount⟩ := Tallied.maps_eq ht file
    rw [(orders.sort_perm _).mem_iff, List.mem_filterMap]
    simp only [(orders.matched_perm _).mem_iff, Prod.exists, Option.ite_none_right_eq_some,
      Std.ExtTreeMap.mem_toList_iff_getElem?_eq_some, Option.some.injEq, Prod.mk.injEq]
    constructor
    · rintro ⟨f, count, hf, hnum, rfl, rfl⟩
      rw [hcount] at hf
      split_ifs at hf with hnil
      refine ⟨hall, hnil, (Option.some.inj hf).trans hnum, ?_⟩
      rw [Std.ExtTreeMap.getD_eq_getD_getElem?, hscore, if_neg hnil]
      rfl
    · rintro ⟨-, hnil, hnum, rfl⟩
      refine ⟨file, _, hcount.trans (if_neg hnil), hnum, rfl, ?_⟩
      rw [Std.ExtTreeMap.getD_eq_getD_getElem?, hscore, if_neg hnil]
      rfl

theorem getElem?_ne_none_of_cell {term file : Bytes} (h : (m_count.cell term file).isSome) :
    m_count[term]? ≠ none := by
  intro hnone
  rw [CountMap.cell, hnone] at h
  cases h

theorem exists_mem_searchAndRank {terms : List Bytes} {file : Bytes} (h0 : terms ≠ [])
    (h : ∀ term ∈ terms, (m_count.cell term file).isSome) :
    ∃ score, (file, score) ∈ searchAndRank int orders m_count terms := by
  have hlen : (m_count.counts file terms).length = terms.length :=
    List.filterMap_length_eq_length.mpr h
  refine ⟨_, mem_searchAndRank_iff.mpr
    ⟨fun term hterm => getElem?_ne_none_of_cell (h term hterm), ?_, ?_, rfl⟩⟩
  · exact List.ne_nil_of_length_pos (hlen ▸ List.length_pos_of_ne_nil h0)
  · rw [hlen]

theorem nodup_searchAndRank (terms : List Bytes) :
    ((searchAndRank int orders m_count terms).map Prod.fst).Nodup := by
  unfold searchAndRank
  split_ifs
  · exact List.nodup_nil
  rcases tallyTerms int orders m_count terms {} with _ | t
  · exact List.nodup_nil
  simp only
  rw [((orders.sort_perm _).map Prod.fst).nodup_iff]
  have hmatched : ((orders.matched t.matchCount.toList).map Prod.fst).Nodup :=
    ((orders.matched_perm _).map Prod.fst).nodup_iff.mpr (KeyedFold.nodup_keys _)
  have hres : ((orders.matched t.matchCount.toList).filterMap fun p =>
      if p.2 = int.wrap terms.length then some (p.1, t.scores.getD p.1 0) else none).map Prod.fst =
      ((orders.matched t.matchCount.toList).filter (·.2 = int.wrap terms.length)).map Prod.fst := by
    rw [← List.filterMap_eq_filter, List.map_filterMap, List.map_filterMap]
    congr 1
    funext p
    by_cases hp : p.2 = int.wrap terms.length <;> simp [hp]
  rw [hres]
  exact hmatched.sublist (List.filter_sublist.map _)

theorem ranked_searchAndRank (terms : List Bytes) :
    Ranked (searchAndRank int orders m_count terms) := by
  refine ⟨nodup_searchAndRank terms, ?_⟩
  unfold searchAndRank
  split_ifs
  · exact List.Pairwise.nil
  rcases tallyTerms int orders m_count terms {} with _ | t
  · exact List.Pairwise.nil
  · exact orders.sort_desc _

/-- What `file` scores when every term is in it. -/
def termScore (m_count : InvertedIndex) (file : Bytes) (terms : List Bytes) : ℤ :=
  (terms.map fun term => (((m_count.cell term file).getD 0 : ℕ) : ℤ)).sum

theorem length_counts_iff {file : Bytes} {terms : List Bytes} :
    (m_count.counts file terms).length = terms.length ↔
      ∀ term ∈ terms, (m_count.cell term file).isSome := List.filterMap_length_eq_length

theorem sum_counts (m_count : InvertedIndex) (file : Bytes) (terms : List Bytes) :
    ((m_count.counts file terms).sum : ℤ) = m_count.termScore file terms := by
  induction terms with
  | nil => rfl
  | cons term terms ih =>
    rw [counts, termScore, List.filterMap_cons, List.map_cons, List.sum_cons]
    rw [counts, termScore] at ih
    rcases m_count.cell term file with _ | n
    · simpa using ih
    · simpa using ih

theorem mem_searchAndRank_unbounded {terms : List Bytes} (h0 : terms ≠ []) {file : Bytes}
    {score : ℤ} :
    (file, score) ∈ searchAndRank .unbounded orders m_count terms ↔
      (∀ term ∈ terms, (m_count.cell term file).isSome) ∧ score = m_count.termScore file terms := by
  rw [mem_searchAndRank_iff, ← length_counts_iff, ← sum_counts]
  simp only [IntType.unbounded, id_eq, Nat.cast_inj]
  constructor
  · exact fun h => h.2.2
  · rintro ⟨hlen, hscore⟩
    refine ⟨fun term hterm => ?_, ?_, hlen, hscore⟩
    · exact getElem?_ne_none_of_cell (length_counts_iff.mp hlen term hterm)
    · exact List.ne_nil_of_length_pos (hlen ▸ List.length_pos_of_ne_nil h0)

/-- A search returns each file that has every term once, and no other, with the sum of its counts
over the terms, the highest first. -/
theorem searchAndRank_exact (orders : SearchOrders) (m_count : InvertedIndex) (terms : List Bytes)
    (h0 : terms ≠ []) :
    ((searchAndRank .unbounded orders m_count terms).map Prod.fst).Nodup ∧
    (∀ file, file ∈ (searchAndRank .unbounded orders m_count terms).map Prod.fst ↔
      ∀ term ∈ terms, (m_count.cell term file).isSome) ∧
    (∀ file score, (file, score) ∈ searchAndRank .unbounded orders m_count terms →
      score = (terms.map fun term => (((m_count.cell term file).getD 0 : ℕ) : ℤ)).sum) ∧
    (searchAndRank .unbounded orders m_count terms).Pairwise fun a b => b.2 ≤ a.2 := by
  obtain ⟨hnodup, hdesc⟩ : Ranked (searchAndRank .unbounded orders m_count terms) :=
    ranked_searchAndRank terms
  refine ⟨hnodup, fun file => ?_, fun file score hmem => ?_, hdesc⟩
  · rw [List.mem_map]
    constructor
    · rintro ⟨⟨_, score⟩, hmem, rfl⟩
      exact ((mem_searchAndRank_unbounded h0).mp hmem).1
    · intro hall
      exact ⟨(file, _), (mem_searchAndRank_unbounded h0).mpr ⟨hall, rfl⟩, rfl⟩
  · exact ((mem_searchAndRank_unbounded h0).mp hmem).2

theorem searchAndRank_exact_twice :
    searchAndRank .unbounded .stable (countLines (text "a") (text "Hat, hat") ∅)
      [text "hat", text "hat"] = [(text "a", 4)] ∧
    ((searchAndRank .unbounded .stable (countLines (text "a") (text "Hat, hat") ∅)
      [text "hat", text "hat"]).map Prod.fst).Nodup :=
  ⟨by decide +kernel,
    (searchAndRank_exact .stable (countLines (text "a") (text "Hat, hat") ∅)
      [text "hat", text "hat"] (List.cons_ne_nil _ _)).1⟩

end InvertedIndex
end SemanticSearch
