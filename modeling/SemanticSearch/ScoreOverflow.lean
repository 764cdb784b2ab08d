import SemanticSearch.HttpRequest
import SemanticSearch.SearchAndRank

namespace SemanticSearch
namespace InvertedIndex

/-- The entries that the loop over the terms adds up, in that order. It ends at a term that is in
no file. -/
def additions (orders : SearchOrders) (m_count : InvertedIndex) : List Bytes → List (Bytes × ℕ)
  | [] => []
  | term :: terms =>
    match m_count[term]? with
    | none => []
    | some files => orders.postings term files.toList ++ additions orders m_count terms

/-- The terms up to the first that is in no file. -/
def reached (m_count : InvertedIndex) (terms : List Bytes) : List Bytes :=
  terms.takeWhile fun term => m_count[term]?.isSome

/-- The mathematical sum of what is added to the score of `file`. -/
def added (file : Bytes) (log : List (Bytes × ℕ)) : ℕ :=
  ((log.filter (·.1 = file)).map Prod.snd).sum

/-- What all terms together give a file. -/
def total (m_count : InvertedIndex) (file : Bytes) (terms : List Bytes) : ℕ :=
  (m_count.counts file terms).sum

/-- After each addition the score of each file is the sum of what was added to it, and the files
that are returned stand in the order of their totals. -/
structure ScoresExact (orders : SearchOrders) (m_count : InvertedIndex) (terms : List Bytes) :
    Prop where
  sums : ∀ log, log <+: additions orders m_count terms → ∀ file,
    (log.foldl (tallyFile .int32) {}).scores.getD file 0 = added file log
  order : (searchAndRank .int32 orders m_count terms).Pairwise fun a b =>
    m_count.total b.1 terms ≤ m_count.total a.1 terms

variable {int : IntType} {orders : SearchOrders} {m_count : InvertedIndex} {terms : List Bytes}
  {log log' : List (Bytes × ℕ)} {file : Bytes}

theorem tallyTerms_eq_additions (t : Tally) : tallyTerms int orders m_count terms t =
    if ∀ term ∈ terms, m_count[term]?.isSome then
      some ((additions orders m_count terms).foldl (tallyFile int) t)
    else none := by
  induction terms generalizing t with
  | nil => simp [tallyTerms, additions]
  | cons term terms ih =>
    rw [tallyTerms, additions]
    rcases hm : m_count[term]? with _ | files
    · rw [if_neg]
      intro hall
      simpa [hm] using hall term List.mem_cons_self
    · simp only [ih, List.foldl_append, List.forall_mem_cons, hm, Option.isSome_some, true_and]

theorem added_append (file : Bytes) (log log' : List (Bytes × ℕ)) :
    added file (log ++ log') = added file log + added file log' := by simp [added]

theorem added_perm (h : log.Perm log') (file : Bytes) : added file log = added file log' :=
  ((h.filter _).map _).sum_eq

theorem added_le (h : log <+: log') (file : Bytes) : added file log ≤ added file log' := by
  obtain ⟨rest, rfl⟩ := h
  rw [added_append]
  exact Nat.le_add_right _ _

theorem additions_perm : (additions orders m_count terms).Perm
    ((m_count.reached terms).flatMap m_count.postings) := by
  induction terms with
  | nil => exact List.Perm.refl _
  | cons term terms ih =>
    rw [additions, reached]
    rcases hm : m_count[term]? with _ | files
    · rw [List.takeWhile_cons_of_neg (by simp [hm])]
      exact List.Perm.refl _
    · rw [List.takeWhile_cons_of_pos (by simp [hm]), List.flatMap_cons]
      have hfiles : files.toList = m_count.postings term := by
        rw [postings, hm]
        rfl
      exact ((orders.postings_perm term files.toList).trans (List.Perm.of_eq hfiles)).append ih

theorem added_additions (file : Bytes) :
    added file (additions orders m_count terms) = m_count.total file (m_count.reached terms) := by
  rw [added_perm additions_perm, added, filter_flatMap_postings, List.map_map, total]
  congr 1
  exact List.map_id _

theorem amounts_map (file : Bytes) (log : List (Bytes × ℕ)) :
    (SumMap.amounts file (log.map fun p => (p.1, (p.2 : ℤ)))).sum = added file log := by
  induction log with
  | nil => rfl
  | cons p log ih =>
    rw [SumMap.amounts] at ih ⊢
    rw [added] at ih ⊢
    by_cases hp : p.1 = file
    · simp only [List.map_cons, hp, decide_true, List.filter_cons_of_pos, List.sum_cons, ih]
      push_cast
      rfl
    · simp only [List.map_cons, hp, decide_false, Bool.false_eq_true, not_false_eq_true,
        List.filter_cons_of_neg, ih]

theorem score_foldl (log : List (Bytes × ℕ)) (file : Bytes) :
    (log.foldl (tallyFile int) {}).scores.getD file 0 = int.wrap (added file log) := by
  have ht := ((tallied_empty int).foldl_tallyFile log).scores file
  rw [List.nil_append] at ht
  rw [Std.ExtTreeMap.getD_eq_getD_getElem?, ht, ← amounts_map]
  split_ifs with h0
  · simp [List.isEmpty_iff.mp h0, int.wrap_zero]
  · rfl

theorem int32_wrap_eq_iff {n : ℕ} : IntType.int32.wrap n = n ↔ n < 2 ^ 31 := by
  simp only [IntType.int32, Int.bmod_def]
  split_ifs with h <;> omega

/-- Every sum is exact, and the files stand in the order of their totals, exactly when no file
reaches a total of `2 ^ 31` over the terms that the loop gets to. -/
theorem scoresExact_iff : ScoresExact orders m_count terms ↔
    ∀ file, m_count.total file (m_count.reached terms) < 2 ^ 31 := by
  constructor
  · intro h file
    have hall := h.sums _ (List.prefix_refl _) file
    rwa [score_foldl, int32_wrap_eq_iff, added_additions] at hall
  · intro h
    refine ⟨fun log hlog file => ?_, ?_⟩
    · rw [score_foldl, int32_wrap_eq_iff]
      have hle := added_le hlog file
      rw [added_additions] at hle
      exact hle.trans_lt (h file)
    · have hscore : ∀ p ∈ searchAndRank .int32 orders m_count terms,
          p.2 = m_count.total p.1 terms := by
        intro p hp
        obtain ⟨hterms, -, -, hp⟩ := mem_searchAndRank_iff.mp hp
        have hreached : m_count.reached terms = terms := by
          rw [reached, List.takeWhile_eq_self_iff]
          intro term hterm
          exact Option.isSome_iff_ne_none.mpr (hterms term hterm)
        have hlt := h p.1
        rw [hreached] at hlt
        rw [hp]
        exact int32_wrap_eq_iff.mpr hlt
      apply (ranked_searchAndRank terms).desc.imp_of_mem
      intro a b ha hb hab
      rw [hscore _ ha, hscore _ hb] at hab
      exact_mod_cast hab

def bigCount : InvertedIndex :=
  (∅ : InvertedIndex).insert (text "a") ((∅ : Std.ExtTreeMap Bytes ℕ).insert (text "f") (2 ^ 30))

/-- Asked for twice, it leads to a score below zero. -/
theorem bigCount_overflow :
    (∀ term file n, bigCount.cell term file = some n → n < 2 ^ 31) ∧
      splitTerms (text "q=a+a") = [text "a", text "a"] ∧
      (text "f", -2147483648) ∈ searchAndRank .int32 .stable bigCount [text "a", text "a"] ∧
      ¬ ScoresExact .stable bigCount [text "a", text "a"] := by
  have htotal : bigCount.total (text "f") [text "a", text "a"] = 2 ^ 31 := by decide
  have hreached : bigCount.reached [text "a", text "a"] = [text "a", text "a"] := by
    decide +kernel
  refine ⟨?_, by decide, ?_, fun h => ?_⟩
  · intro term file n hcell
    have hn : n = 2 ^ 30 := by
      simp only [bigCount, CountMap.cell, Std.ExtTreeMap.getElem?_insert] at hcell
      split_ifs at hcell with hterm
      · simp only [Option.bind_some, Std.ExtTreeMap.getElem?_insert] at hcell
        split_ifs at hcell with hfile
        · exact (Option.some.inj hcell).symm
        · simp at hcell
      · simp at hcell
    omega
  · rw [mem_searchAndRank_iff, ← total, htotal]
    refine ⟨by decide, by decide, by decide, by decide⟩
  · have hsum := h.sums _ (List.prefix_refl _) (text "f")
    rw [score_foldl, int32_wrap_eq_iff, added_additions, hreached, htotal] at hsum
    exact lt_irrefl _ hsum

end InvertedIndex
end SemanticSearch
