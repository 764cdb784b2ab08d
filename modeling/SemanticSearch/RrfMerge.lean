import Mathlib.Algebra.Order.Field.Basic
import Mathlib.Algebra.BigOperators.Group.List.Basic
import Mathlib.Data.List.Sort
import Mathlib.Data.Rat.Lemmas
import Mathlib.Algebra.Order.Field.Rat
import Mathlib.Tactic.Linarith
import Mathlib.Tactic.Positivity
import SemanticSearch.Bytes
import SemanticSearch.KeyedFolds
import SemanticSearch.Rankings

namespace SemanticSearch

section Merge

variable {F S S' : Type} [Zero F] [One F] [Add F] [Div F] [NatCast F]

def kRrfK : F := ((60 : ℕ) : F)

def rrfTerm (i : ℕ) : F := 1 / (kRrfK + (i : F) + 1)

def rrfLoop (scores : Std.ExtTreeMap Bytes F) (ranked : List (Bytes × S)) :
    Std.ExtTreeMap Bytes F :=
  ranked.zipIdx.foldl (fun scores p =>
    KeyedFold.accumulate (· + ·) 0 scores (p.1.1, rrfTerm p.2)) scores

/-- What the language leaves open in a merge: the walk of the hash map, and where
`std::ranges::sort` puts entries of equal score. -/
structure MergeOrders (F : Type) [LT F] where
  visit : List (Bytes × F) → List (Bytes × F)
  sort : List (Bytes × F) → List (Bytes × F)
  visit_perm : ∀ l, (visit l).Perm l
  sort_perm : ∀ l, (sort l).Perm l
  sort_desc : ∀ l, (sort l).Pairwise fun a b => ¬ a.2 < b.2

theorem pairwise_insertionSort_key {A K : Type} [LinearOrder K] (key : A → K)
    [DecidableRel fun a b : A => key b ≤ key a] (l : List A) :
    (l.insertionSort fun a b => key b ≤ key a).Pairwise fun a b => key b ≤ key a := by
  have htotal : Std.Total fun a b : A => key b ≤ key a := ⟨fun a b => le_total (key b) (key a)⟩
  have htrans : IsTrans A fun a b => key b ≤ key a := ⟨fun _ _ _ hab hbc => hbc.trans hab⟩
  exact l.pairwise_insertionSort fun a b => key b ≤ key a

/-- The map walked in the order of its keys and a stable sort. -/
def MergeOrders.stable [LinearOrder F] : MergeOrders F where
  visit l := l
  sort l := l.insertionSort fun a b => b.2 ≤ a.2
  visit_perm _ := List.Perm.refl _
  sort_perm l := l.perm_insertionSort _
  sort_desc l := (pairwise_insertionSort_key Prod.snd l).imp not_lt.mpr

variable [LT F]

def rrfMerge (orders : MergeOrders F) (bm25 : List (Bytes × S)) (semantic : List (Bytes × S')) :
    List (Bytes × F) :=
  let scores := rrfLoop (rrfLoop ∅ bm25) semantic
  orders.sort (orders.visit scores.toList)

def rrfLog (F : Type) [One F] [Add F] [Div F] [NatCast F] (ranked : List (Bytes × S)) :
    List (Bytes × F) :=
  ranked.zipIdx.map fun p => (p.1.1, rrfTerm p.2)

omit [LT F] in
theorem rrfLoop_eq (scores : Std.ExtTreeMap Bytes F) (ranked : List (Bytes × S)) :
    rrfLoop scores ranked = (rrfLog F ranked).foldl (KeyedFold.accumulate (· + ·) 0) scores := by
  rw [rrfLoop, rrfLog, List.foldl_map]

omit [Zero F] [LT F] in
theorem map_fst_rrfLog (ranked : List (Bytes × S)) :
    (rrfLog F ranked).map Prod.fst = ranked.map Prod.fst := by
  have hfst : ∀ n, (ranked.zipIdx n).map (fun p => p.1.1) = ranked.map Prod.fst := by
    induction ranked with
    | nil => exact fun _ => rfl
    | cons p ranked ih => exact fun n => congrArg _ (ih (n + 1))
  rw [rrfLog, List.map_map]
  exact hfst 0

variable {orders : MergeOrders F} {bm25 : List (Bytes × S)} {semantic : List (Bytes × S')}

theorem nodup_rrfMerge : ((rrfMerge orders bm25 semantic).map Prod.fst).Nodup := by
  have hperm := (orders.sort_perm _).trans (orders.visit_perm
    (rrfLoop (rrfLoop (∅ : Std.ExtTreeMap Bytes F) bm25) semantic).toList)
  exact (hperm.map Prod.fst).nodup_iff.mpr (KeyedFold.nodup_keys _)

theorem mem_rrfMerge_iff {id : Bytes} {score : F} :
    (id, score) ∈ rrfMerge orders bm25 semantic ↔
      KeyedFold.under id (rrfLog F bm25 ++ rrfLog F semantic) ≠ [] ∧
        score = (KeyedFold.under id (rrfLog F bm25 ++ rrfLog F semantic)).foldl (· + ·) 0 := by
  rw [rrfMerge, (orders.sort_perm _).mem_iff, (orders.visit_perm _).mem_iff,
    Std.ExtTreeMap.mem_toList_iff_getElem?_eq_some, rrfLoop_eq, rrfLoop_eq, ← List.foldl_append,
    KeyedFold.getElem?_foldl_accumulate]
  rcases KeyedFold.under id (rrfLog F bm25 ++ rrfLog F semantic) with _ | ⟨x, xs⟩
  · simp
  · simp [eq_comm]

theorem mem_ids_rrfMerge {id : Bytes} :
    id ∈ (rrfMerge orders bm25 semantic).map Prod.fst ↔
      id ∈ bm25.map Prod.fst ∨ id ∈ semantic.map Prod.fst := by
  rw [List.mem_map]
  simp only [Prod.exists, mem_rrfMerge_iff, ne_eq, KeyedFold.under_eq_nil, List.map_append,
    map_fst_rrfLog, List.mem_append, not_not]
  constructor
  · rintro ⟨_, _, ⟨h, -⟩, rfl⟩
    exact h
  · exact fun h => ⟨id, _, ⟨h, rfl⟩, rfl⟩

theorem forall_ids_rrfMerge {P : Bytes → Prop} (hbm25 : ∀ p ∈ bm25, P p.1)
    (hsemantic : ∀ p ∈ semantic, P p.1) : ∀ p ∈ rrfMerge orders bm25 semantic, P p.1 := by
  intro p hp
  rcases mem_ids_rrfMerge.mp (List.mem_map_of_mem hp) with hid | hid
  · obtain ⟨q, hq, he⟩ := List.mem_map.mp hid
    exact he ▸ hbm25 q hq
  · obtain ⟨q, hq, he⟩ := List.mem_map.mp hid
    exact he ▸ hsemantic q hq

end Merge

/-- The sum of `1 / (60 + rank)` over the 1-based positions of `id`. -/
def rankScore (ids : List Bytes) (id : Bytes) : ℚ :=
  (((ids.zipIdx 1).filter (·.1 = id)).map fun p => 1 / (60 + (p.2 : ℚ))).sum

variable {S S' : Type} {ids : List Bytes} {a b : Bytes}

theorem rrfTerm_rat (i : ℕ) : (rrfTerm i : ℚ) = 1 / (60 + ((i + 1 : ℕ) : ℚ)) := by
  rw [rrfTerm, kRrfK]
  push_cast
  rw [add_assoc]

theorem under_rrfLog (ranked : List (Bytes × S)) (id : Bytes) :
    KeyedFold.under id (rrfLog ℚ ranked) =
      (((ranked.map Prod.fst).zipIdx 1).filter (·.1 = id)).map fun p => 1 / (60 + (p.2 : ℚ)) := by
  have hstart : ∀ n, KeyedFold.under id
      ((ranked.zipIdx n).map fun p => (p.1.1, (rrfTerm p.2 : ℚ))) =
      (((ranked.map Prod.fst).zipIdx (n + 1)).filter (·.1 = id)).map
        fun p => 1 / (60 + (p.2 : ℚ)) := by
    induction ranked with
    | nil => exact fun _ => rfl
    | cons p ranked ih =>
      intro n
      have htail := ih (n + 1)
      simp only [KeyedFold.under] at htail ⊢
      rw [List.map_cons, List.zipIdx_cons, List.zipIdx_cons, List.map_cons]
      by_cases hp : p.1 = id
      · rw [List.filter_cons_of_pos (by simpa using hp),
          List.filter_cons_of_pos (by simpa using hp), List.map_cons, List.map_cons, htail, rrfTerm_rat]
      · rw [List.filter_cons_of_neg (by simpa using hp),
          List.filter_cons_of_neg (by simpa using hp), htail]
  exact hstart 0

theorem score_rrfMerge {orders : MergeOrders ℚ} {bm25 : List (Bytes × S)}
    {semantic : List (Bytes × S')} {id : Bytes} {score : ℚ}
    (h : (id, score) ∈ rrfMerge orders bm25 semantic) :
    score = rankScore (bm25.map Prod.fst) id + rankScore (semantic.map Prod.fst) id := by
  rw [(mem_rrfMerge_iff.mp h).2, ← List.sum_eq_foldl, KeyedFold.under_append, List.sum_append,
    under_rrfLog, under_rrfLog]
  rfl

theorem ranked_rrfMerge (orders : MergeOrders ℚ) (bm25 : List (Bytes × S))
    (semantic : List (Bytes × S')) : Ranked (rrfMerge orders bm25 semantic) :=
  ⟨nodup_rrfMerge, (orders.sort_desc _).imp not_lt.mp⟩

theorem filter_zipIdx (hids : ids.Nodup) (ha : a ∈ ids) (n : ℕ) :
    (ids.zipIdx n).filter (·.1 = a) = [(a, n + ids.idxOf a)] := by
  induction ids generalizing n with
  | nil => cases ha
  | cons x ids ih =>
    rw [List.nodup_cons] at hids
    rw [List.zipIdx_cons]
    by_cases hx : x = a
    · subst hx
      have hnil : (ids.zipIdx (n + 1)).filter (·.1 = x) = [] := by
        rw [List.filter_eq_nil_iff]
        intro p hp he
        exact hids.1 (of_decide_eq_true he ▸ List.fst_mem_of_mem_zipIdx hp)
      rw [List.filter_cons_of_pos (by simp), hnil, List.idxOf_cons_self]
      rfl
    · have ha' : a ∈ ids := (List.mem_cons.mp ha).resolve_left (Ne.symm hx)
      rw [List.filter_cons_of_neg (by simpa using hx), ih hids.2 ha', List.idxOf_cons_ne _ hx]
      congr 2
      omega

theorem rankScore_of_mem (hids : ids.Nodup) (ha : a ∈ ids) :
    rankScore ids a = 1 / (61 + (ids.idxOf a : ℚ)) := by
  rw [rankScore, filter_zipIdx hids ha]
  norm_num [← add_assoc]

theorem rankScore_of_notMem (ha : a ∉ ids) : rankScore ids a = 0 := by
  have hnil : (ids.zipIdx 1).filter (·.1 = a) = [] := by
    rw [List.filter_eq_nil_iff]
    intro p hp he
    exact ha (of_decide_eq_true he ▸ List.fst_mem_of_mem_zipIdx hp)
  rw [rankScore, hnil]
  rfl

theorem rankScore_lt (hids : ids.Nodup) (h : ids.idxOf a < ids.idxOf b) :
    rankScore ids b < rankScore ids a := by
  have ha : a ∈ ids := List.idxOf_lt_length_iff.mp (h.trans_le List.idxOf_le_length)
  rw [rankScore_of_mem hids ha]
  by_cases hb : b ∈ ids
  · rw [rankScore_of_mem hids hb]
    apply one_div_lt_one_div_of_lt (by positivity)
    have hcast : (ids.idxOf a : ℚ) < ids.idxOf b := by exact_mod_cast h
    linarith
  · rw [rankScore_of_notMem hb]
    positivity

theorem rankScore_le (hids : ids.Nodup) (h : ¬ ids.idxOf b < ids.idxOf a) :
    rankScore ids b ≤ rankScore ids a := by
  rcases (not_lt.mp h).lt_or_eq with hlt | heq
  · exact (rankScore_lt hids hlt).le
  · by_cases ha : a ∈ ids
    · rw [(List.idxOf_inj ha).mp heq]
    · have hb : b ∉ ids := by
        rw [← List.idxOf_lt_length_iff] at ha ⊢
        rwa [← heq]
      rw [rankScore_of_notMem ha, rankScore_of_notMem hb]

variable {orders : MergeOrders ℚ} {bm25 : List (Bytes × S)} {semantic : List (Bytes × S')}

theorem position_rrfMerge_lt (ha : a ∈ bm25.map Prod.fst ∨ a ∈ semantic.map Prod.fst)
    (h : rankScore (bm25.map Prod.fst) b + rankScore (semantic.map Prod.fst) b <
      rankScore (bm25.map Prod.fst) a + rankScore (semantic.map Prod.fst) a) :
    position (rrfMerge orders bm25 semantic) a < position (rrfMerge orders bm25 semantic) b := by
  have hids : a ∈ (rrfMerge orders bm25 semantic).map Prod.fst := mem_ids_rrfMerge.mpr ha
  obtain ⟨⟨_, s⟩, hs, rfl⟩ := List.mem_map.mp hids
  apply position_lt (ranked_rrfMerge orders bm25 semantic).desc hs
  intro t ht
  rw [score_rrfMerge ht, score_rrfMerge hs]
  exact h

theorem position_rrfMerge_of_dominates (hbm25 : (bm25.map Prod.fst).Nodup)
    (hsemantic : (semantic.map Prod.fst).Nodup)
    (h : (position bm25 a < position bm25 b ∧ ¬ position semantic b < position semantic a) ∨
      (position semantic a < position semantic b ∧ ¬ position bm25 b < position bm25 a)) :
    position (rrfMerge orders bm25 semantic) a < position (rrfMerge orders bm25 semantic) b := by
  rcases h with ⟨h1, h2⟩ | ⟨h1, h2⟩
  · have hmem := List.idxOf_lt_length_iff.mp (h1.trans_le List.idxOf_le_length)
    exact position_rrfMerge_lt (Or.inl hmem)
      (add_lt_add_of_lt_of_le (rankScore_lt hbm25 h1) (rankScore_le hsemantic h2))
  · have hmem := List.idxOf_lt_length_iff.mp (h1.trans_le List.idxOf_le_length)
    exact position_rrfMerge_lt (Or.inr hmem)
      (add_lt_add_of_le_of_lt (rankScore_le hbm25 h2) (rankScore_lt hsemantic h1))

theorem rrfMerge_nil (hbm25 : (bm25.map Prod.fst).Nodup) :
    (rrfMerge orders bm25 ([] : List (Bytes × S'))).map Prod.fst = bm25.map Prod.fst := by
  have hranked := ranked_rrfMerge orders bm25 ([] : List (Bytes × S'))
  have hperm : ((rrfMerge orders bm25 ([] : List (Bytes × S'))).map Prod.fst).Perm
      (bm25.map Prod.fst) :=
    (List.perm_ext_iff_of_nodup hranked.nodup hbm25).mpr fun id => by simp [mem_ids_rrfMerge]
  -- both are in the order of the scores, and no two ids of the list have the same one
  have hmerged : ((rrfMerge orders bm25 ([] : List (Bytes × S'))).map Prod.fst).Pairwise
      fun a b => rankScore (bm25.map Prod.fst) b ≤ rankScore (bm25.map Prod.fst) a := by
    rw [List.pairwise_map]
    refine hranked.desc.imp_of_mem ?_
    rintro ⟨a, s⟩ ⟨b, t⟩ ha hb hle
    have hzero : ∀ id, rankScore (([] : List (Bytes × S')).map Prod.fst) id = 0 := fun _ => rfl
    have hs := score_rrfMerge ha
    have ht := score_rrfMerge hb
    rw [hzero, add_zero] at hs ht
    rw [← hs, ← ht]
    exact hle
  have hlist : (bm25.map Prod.fst).Pairwise
      fun a b => rankScore (bm25.map Prod.fst) b ≤ rankScore (bm25.map Prod.fst) a := by
    rw [List.pairwise_iff_getElem]
    intro i j hi hj hij
    apply (rankScore_lt hbm25 _).le
    rw [hbm25.idxOf_getElem i hi, hbm25.idxOf_getElem j hj]
    exact hij
  refine List.Perm.eq_of_pairwise ?_ hmerged hlist hperm
  intro a b _ hb hba hab
  by_contra hne
  rcases lt_or_gt_of_ne fun he => hne ((List.idxOf_inj hb).mp he.symm).symm with hlt | hlt
  · exact absurd (rankScore_lt hbm25 hlt) (not_lt.mpr hab)
  · exact absurd (rankScore_lt hbm25 hlt) (not_lt.mpr hba)

/-- The merged list has the ids of both lists once, with the sums of their reciprocal ranks, the
highest first. -/
theorem rrfMerge_fuses (orders : MergeOrders ℚ) (bm25 : List (Bytes × S))
    (semantic : List (Bytes × S')) :
    ((rrfMerge orders bm25 semantic).map Prod.fst).Nodup ∧
    (∀ id, id ∈ (rrfMerge orders bm25 semantic).map Prod.fst ↔
      id ∈ bm25.map Prod.fst ∨ id ∈ semantic.map Prod.fst) ∧
    (∀ id score, (id, score) ∈ rrfMerge orders bm25 semantic →
      score = rankScore (bm25.map Prod.fst) id + rankScore (semantic.map Prod.fst) id) ∧
    ((rrfMerge orders bm25 semantic).Pairwise fun a b => b.2 ≤ a.2) ∧
    ((bm25.map Prod.fst).Nodup → (semantic.map Prod.fst).Nodup →
      (∀ a b, ((position bm25 a < position bm25 b ∧ ¬ position semantic b < position semantic a) ∨
          (position semantic a < position semantic b ∧ ¬ position bm25 b < position bm25 a)) →
        position (rrfMerge orders bm25 semantic) a < position (rrfMerge orders bm25 semantic) b) ∧
      (rrfMerge orders bm25 ([] : List (Bytes × S'))).map Prod.fst = bm25.map Prod.fst) := by
  have hranked := ranked_rrfMerge orders bm25 semantic
  refine ⟨hranked.nodup, fun id => mem_ids_rrfMerge, fun id score => score_rrfMerge,
    hranked.desc, fun hbm25 hsemantic => ⟨fun a b => ?_, rrfMerge_nil hbm25⟩⟩
  exact position_rrfMerge_of_dominates hbm25 hsemantic

theorem rrfMerge_fuses_overlap :
    (rrfMerge (.stable : MergeOrders ℚ) [(text "a", 9), (text "b", 4)]
      [(text "b", 1), (text "c", 0)]).map Prod.fst = [text "b", text "a", text "c"] ∧
    (rrfMerge (.stable : MergeOrders ℚ) [(text "a", 9), (text "b", 4)]
      ([] : List (Bytes × ℕ))).map Prod.fst = [text "a", text "b"] :=
  ⟨by decide +kernel,
    ((rrfMerge_fuses (.stable : MergeOrders ℚ) [(text "a", 9), (text "b", 4)]
      [(text "b", 1), (text "c", 0)]).2.2.2.2 (by decide) (by decide)).2⟩

end SemanticSearch
