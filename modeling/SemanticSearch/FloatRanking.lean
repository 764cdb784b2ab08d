import SemanticSearch.SearchBody

namespace SemanticSearch

open Binary32

theorem rrfTerm_eq {i : ℕ} (h : i + 61 < 2 ^ 24) :
    (rrfTerm i : Binary32) = .ofRat false (1 / (61 + (i : ℚ))) := by
  have hone : (1 : Binary32) = ((1 : ℕ) : Binary32) := rfl
  have hcast : ((60 + i + 1 : ℕ) : ℚ) = 61 + i := by
    push_cast
    ring
  rw [rrfTerm, kRrfK, natCast_add (by omega)]
  nth_rewrite 2 [hone]
  rw [natCast_add (by omega), one_div_natCast (by omega) (by omega), hcast]

theorem exists_rrfTerm {i : ℕ} (h : i + 61 < 2 ^ 24) :
    ∃ m, (rrfTerm i : Binary32) = .finite false m ∧
      |m.1 - 1 / (61 + (i : ℚ))| ≤ 1 / (61 + (i : ℚ)) * 2 ^ (-24 : ℤ) ∧
      |m.1 - 1 / (61 + (i : ℚ))| ≤ 2 ^ (-30 : ℤ) := by
  have hpos : (0 : ℚ) < 1 / (61 + (i : ℚ)) := by positivity
  have hlarge : (2 : ℚ) ^ (-24 : ℤ) ≤ 1 / (61 + (i : ℚ)) := by
    have hle : 61 + (i : ℚ) ≤ 2 ^ 24 := by exact_mod_cast (by omega : 61 + i ≤ 2 ^ 24)
    rw [zpow_neg, ← one_div]
    exact one_div_le_one_div_of_le (by positivity) (by exact_mod_cast hle)
  have hsmall : 1 / (61 + (i : ℚ)) < 2 ^ (-5 : ℤ) := by
    have hle : 1 / (61 + (i : ℚ)) ≤ 1 / 61 :=
      one_div_le_one_div_of_le (by norm_num) (le_add_of_nonneg_right (Nat.cast_nonneg i))
    have hlt : (1 / 61 : ℚ) < 2 ^ (-5 : ℤ) := by norm_num
    exact hle.trans_lt hlt
  have hsize : |roundMagnitude (1 / (61 + (i : ℚ))) - 1 / (61 + (i : ℚ))| ≤
      1 / (61 + (i : ℚ)) * 2 ^ (-24 : ℤ) :=
    abs_roundTo_sub_le_mul (p := 24) (by norm_num) hlarge
  have hall : |roundMagnitude (1 / (61 + (i : ℚ))) - 1 / (61 + (i : ℚ))| ≤ 2 ^ (-30 : ℤ) := by
    have herror := abs_roundTo_sub_le_of_lt (p := 24) hpos hsmall (by norm_num : (-149 : ℤ) ≤ _)
    have hhalf : (2 : ℚ) ^ ((-5 : ℤ) - (24 : ℕ)) / 2 = 2 ^ (-30 : ℤ) := by norm_num
    rwa [hhalf] at herror
  have hrange : roundMagnitude (1 / (61 + (i : ℚ))) < 2 ^ 128 := by
    have hle := (abs_le.mp hall).2
    have hbound : (2 : ℚ) ^ (-5 : ℤ) + 2 ^ (-30 : ℤ) < 2 ^ 128 := by norm_num
    linarith
  obtain ⟨m, hm, hvalue⟩ := exists_ofRat hpos.le hrange
  exact ⟨m, (rrfTerm_eq h).trans hm, hvalue ▸ hsize, hvalue ▸ hall⟩

theorem key_rrfTerm_lt {i j : ℕ} (hij : i < j) (hj : j + 61 < 2 ^ 23) :
    (rrfTerm j : Binary32).key < (rrfTerm i : Binary32).key := by
  obtain ⟨m, hm, hmi, -⟩ := exists_rrfTerm (by omega : i + 61 < 2 ^ 24)
  obtain ⟨n, hn, hnj, -⟩ := exists_rrfTerm (by omega : j + 61 < 2 ^ 24)
  have hi : (0 : ℚ) < 61 + i := by positivity
  have hnext : 61 + (i : ℚ) + 1 ≤ 61 + j := by exact_mod_cast (by omega : 61 + i + 1 ≤ 61 + j)
  have hle : 1 / (61 + (j : ℚ)) ≤ 1 / (61 + (i : ℚ) + 1) :=
    one_div_le_one_div_of_le (by positivity) hnext
  have hstep : 1 / (61 + (i : ℚ)) - 1 / (61 + (i : ℚ) + 1) =
      1 / (61 + (i : ℚ)) * (1 / (61 + (i : ℚ) + 1)) := by
    field_simp
    ring
  -- the step between neighbours is more than both errors
  have hdistance : (2 : ℚ) ^ (-23 : ℤ) < 1 / (61 + (i : ℚ) + 1) := by
    have hlt : 61 + (i : ℚ) + 1 < 2 ^ 23 := by exact_mod_cast (by omega : 61 + i + 1 < 2 ^ 23)
    rw [zpow_neg, ← one_div]
    exact one_div_lt_one_div_of_lt (by positivity) (by exact_mod_cast hlt)
  have herrors : 1 / (61 + (i : ℚ)) * 2 ^ (-23 : ℤ) <
      1 / (61 + (i : ℚ)) * (1 / (61 + (i : ℚ) + 1)) :=
    mul_lt_mul_of_pos_left hdistance (by positivity)
  have hhalf : (2 : ℚ) ^ (-23 : ℤ) = 2 * 2 ^ (-24 : ℤ) := by norm_num
  have hsmaller : 1 / (61 + (j : ℚ)) * 2 ^ (-24 : ℤ) ≤ 1 / (61 + (i : ℚ)) * 2 ^ (-24 : ℤ) := by
    apply mul_le_mul_of_nonneg_right _ (by norm_num)
    exact one_div_le_one_div_of_le hi (by linarith)
  rw [hm, hn]
  change n.1 < m.1
  have h1 := (abs_le.mp hmi).1
  have h2 := (abs_le.mp hnj).2
  rw [hhalf] at herrors
  linarith

theorem exists_add_rrfTerm {i j : ℕ} (hi : i + 61 < 2 ^ 24) (hj : j + 61 < 2 ^ 24) :
    ∃ m, (rrfTerm i : Binary32) + rrfTerm j = .finite false m ∧
      |m.1 - (1 / (61 + (i : ℚ)) + 1 / (61 + (j : ℚ)))| ≤ 2 ^ (-28 : ℤ) := by
  obtain ⟨m, hm, -, hmi⟩ := exists_rrfTerm hi
  obtain ⟨n, hn, -, hnj⟩ := exists_rrfTerm hj
  have hterm : ∀ i : ℕ, 0 < 1 / (61 + (i : ℚ)) ∧ 1 / (61 + (i : ℚ)) ≤ 1 / 61 := fun i =>
    ⟨by positivity, one_div_le_one_div_of_le (by norm_num)
      (le_add_of_nonneg_right (Nat.cast_nonneg i))⟩
  have hsmall : m.1 + n.1 < 2 ^ (-4 : ℤ) := by
    have h1 := (abs_le.mp hmi).2
    have h2 := (abs_le.mp hnj).2
    have hbound : (1 / 61 : ℚ) + 1 / 61 + 2 * 2 ^ (-30 : ℤ) < 2 ^ (-4 : ℤ) := by norm_num
    refine lt_of_le_of_lt ?_ hbound
    linarith only [h1, h2, (hterm i).2, (hterm j).2]
  have hround : |roundMagnitude (m.1 + n.1) - (m.1 + n.1)| ≤ 2 ^ (-29 : ℤ) := by
    rcases (add_nonneg m.2.nonneg n.2.nonneg).eq_or_lt with h0 | hpos
    · rw [← h0, roundMagnitude_zero]
      norm_num
    · have herror := abs_roundTo_sub_le_of_lt (p := 24) hpos hsmall (by norm_num : (-149 : ℤ) ≤ _)
      have hhalf : (2 : ℚ) ^ ((-4 : ℤ) - (24 : ℕ)) / 2 = 2 ^ (-29 : ℤ) := by norm_num
      rwa [hhalf] at herror
  have hrange : roundMagnitude (m.1 + n.1) < 2 ^ 128 := by
    have hle := (abs_le.mp hround).2
    have hbound : (2 : ℚ) ^ (-4 : ℤ) + 2 ^ (-29 : ℤ) < 2 ^ 128 := by norm_num
    linarith
  obtain ⟨s, hs, hvalue⟩ := exists_ofRat (add_nonneg m.2.nonneg n.2.nonneg) hrange
  refine ⟨s, ?_, ?_⟩
  · rw [hm, hn, add_finite, hs]
  · have hsplit : s.1 - (1 / (61 + (i : ℚ)) + 1 / (61 + (j : ℚ))) =
        (roundMagnitude (m.1 + n.1) - (m.1 + n.1)) + (m.1 - 1 / (61 + (i : ℚ))) +
          (n.1 - 1 / (61 + (j : ℚ))) := by
      rw [hvalue]
      ring
    rw [hsplit]
    calc _ ≤ _ := abs_add_three _ _ _
      _ ≤ 2 ^ (-29 : ℤ) + 2 ^ (-30 : ℤ) + 2 ^ (-30 : ℤ) := add_le_add (add_le_add hround hmi) hnj
      _ = 2 ^ (-28 : ℤ) := by norm_num

section Scores

variable {F S S' : Type}

theorem under_rrfLog_once [One F] [Add F] [Div F] [NatCast F] {ranked : List (Bytes × S)}
    (hids : (ranked.map Prod.fst).Nodup) (id : Bytes) :
    KeyedFold.under id (rrfLog F ranked) =
      if id ∈ ranked.map Prod.fst then [rrfTerm ((ranked.map Prod.fst).idxOf id)] else [] := by
  split_ifs with hid
  · have hlog : rrfLog F ranked = ((ranked.map Prod.fst).zipIdx).map fun p => (p.1, rrfTerm p.2) := by
      rw [rrfLog, List.zipIdx_map, List.map_map]
      rfl
    have hplace := filter_zipIdx hids hid 0
    rw [KeyedFold.under, hlog, List.filter_map, List.map_map]
    change (((ranked.map Prod.fst).zipIdx.filter (·.1 = id)).map fun p => rrfTerm p.2) = _
    rw [hplace, List.map_singleton, zero_add]
  · rw [KeyedFold.under_eq_nil, map_fst_rrfLog]
    exact hid

variable {merges : MergeOrders Binary32} {bm25 : List (Bytes × S)} {semantic : List (Bytes × S')}

def exactScore (bm25 : List (Bytes × S)) (semantic : List (Bytes × S')) (id : Bytes) : ℚ :=
  rankScore (bm25.map Prod.fst) id + rankScore (semantic.map Prod.fst) id

theorem exists_score (hbm25 : (bm25.map Prod.fst).Nodup) (hsemantic : (semantic.map Prod.fst).Nodup)
    (hlen : bm25.length + 61 ≤ 2 ^ 24) (hlen' : semantic.length + 61 ≤ 2 ^ 24) {id : Bytes}
    {score : Binary32} (h : (id, score) ∈ rrfMerge merges bm25 semantic) :
    ∃ m, score = .finite false m ∧ |m.1 - exactScore bm25 semantic id| ≤ 2 ^ (-28 : ℤ) := by
  obtain ⟨hne, hscore⟩ := mem_rrfMerge_iff.mp h
  have hplace : ∀ {T : Type} {ranked : List (Bytes × T)}, ranked.length + 61 ≤ 2 ^ 24 →
      id ∈ ranked.map Prod.fst → (ranked.map Prod.fst).idxOf id + 61 < 2 ^ 24 := by
    intro T ranked hlen hid
    have hlt := List.idxOf_lt_length_iff.mpr hid
    rw [List.length_map] at hlt
    omega
  have hsmaller : (2 : ℚ) ^ (-30 : ℤ) ≤ 2 ^ (-28 : ℤ) := by norm_num
  rw [KeyedFold.under_append, under_rrfLog_once hbm25, under_rrfLog_once hsemantic] at hne hscore
  rw [exactScore]
  by_cases h1 : id ∈ bm25.map Prod.fst <;> by_cases h2 : id ∈ semantic.map Prod.fst
  · obtain ⟨m, hm, herror⟩ := exists_add_rrfTerm (hplace hlen h1) (hplace hlen' h2)
    obtain ⟨n, hn, -⟩ := exists_rrfTerm (hplace hlen h1)
    refine ⟨m, ?_, ?_⟩
    · rw [hscore, if_pos h1, if_pos h2, List.singleton_append, List.foldl_cons, List.foldl_cons,
        List.foldl_nil, hn, zero_add_finite, ← hn, hm]
    · rwa [rankScore_of_mem hbm25 h1, rankScore_of_mem hsemantic h2]
  · obtain ⟨m, hm, -, herror⟩ := exists_rrfTerm (hplace hlen h1)
    refine ⟨m, ?_, ?_⟩
    · rw [hscore, if_pos h1, if_neg h2, List.append_nil, List.foldl_cons, List.foldl_nil, hm,
        zero_add_finite]
    · rw [rankScore_of_mem hbm25 h1, rankScore_of_notMem h2, add_zero]
      exact herror.trans hsmaller
  · obtain ⟨m, hm, -, herror⟩ := exists_rrfTerm (hplace hlen' h2)
    refine ⟨m, ?_, ?_⟩
    · rw [hscore, if_neg h1, if_pos h2, List.nil_append, List.foldl_cons, List.foldl_nil, hm,
        zero_add_finite]
    · rw [rankScore_of_notMem h1, rankScore_of_mem hsemantic h2, zero_add]
      exact herror.trans hsmaller
  · rw [if_neg h1, if_neg h2] at hne
    exact absurd rfl hne

variable (hbm25 : (bm25.map Prod.fst).Nodup) (hsemantic : (semantic.map Prod.fst).Nodup)
  (hlen : bm25.length + 61 ≤ 2 ^ 24) (hlen' : semantic.length + 61 ≤ 2 ^ 24)

include hbm25 hsemantic hlen hlen'

theorem pairwise_key_rrfMerge :
    (rrfMerge merges bm25 semantic).Pairwise fun p q => q.2.key ≤ p.2.key := by
  refine (merges.sort_desc _).imp_of_mem ?_
  rintro ⟨a, s⟩ ⟨b, t⟩ hs ht hnot
  obtain ⟨m, rfl, -⟩ := exists_score hbm25 hsemantic hlen hlen' hs
  obtain ⟨n, rfl, -⟩ := exists_score hbm25 hsemantic hlen hlen' ht
  exact not_lt.mp fun hlt => hnot ⟨rfl, rfl, hlt⟩

theorem position_lt_of_exactScore {a b : Bytes}
    (h : exactScore bm25 semantic b + 2 ^ (-27 : ℤ) < exactScore bm25 semantic a) :
    position (rrfMerge merges bm25 semantic) a < position (rrfMerge merges bm25 semantic) b := by
  have hnonneg : ∀ ids : List Bytes, 0 ≤ rankScore ids b := by
    intro ids
    apply List.sum_nonneg
    intro x hx
    obtain ⟨p, -, rfl⟩ := List.mem_map.mp hx
    positivity
  have ha : a ∈ (rrfMerge merges bm25 semantic).map Prod.fst := by
    rw [mem_ids_rrfMerge]
    by_contra hnone
    obtain ⟨h1, h2⟩ := not_or.mp hnone
    have hzero : exactScore bm25 semantic a = 0 := by
      rw [exactScore, rankScore_of_notMem h1, rankScore_of_notMem h2, add_zero]
    have hb : 0 ≤ exactScore bm25 semantic b := add_nonneg (hnonneg _) (hnonneg _)
    have hgap : (0 : ℚ) < 2 ^ (-27 : ℤ) := two_zpow_pos _
    linarith
  obtain ⟨⟨_, score⟩, hs, rfl⟩ := List.mem_map.mp ha
  obtain ⟨m, rfl, hm⟩ := exists_score hbm25 hsemantic hlen hlen' hs
  set keys := (rrfMerge merges bm25 semantic).map fun p => (p.1, p.2.key) with hkeys
  have hposition : ∀ id, position (rrfMerge merges bm25 semantic) id = position keys id := by
    intro id
    rw [position, position, hkeys, List.map_map]
    rfl
  have hdesc : keys.Pairwise fun p q => q.2 ≤ p.2 :=
    List.pairwise_map.mpr (pairwise_key_rrfMerge hbm25 hsemantic hlen hlen')
  rw [hposition, hposition]
  apply position_lt hdesc (List.mem_map_of_mem hs)
  intro t ht
  obtain ⟨⟨b, score⟩, hb, he⟩ := List.mem_map.mp ht
  obtain ⟨rfl, rfl⟩ := Prod.mk.inj he
  obtain ⟨n, rfl, hn⟩ := exists_score hbm25 hsemantic hlen hlen' hb
  change n.1 < m.1
  have hlow := (abs_le.mp hm).1
  have hhigh := (abs_le.mp hn).2
  have hdouble : (2 : ℚ) ^ (-27 : ℤ) = 2 ^ (-28 : ℤ) + 2 ^ (-28 : ℤ) := by norm_num
  rw [hdouble] at h
  linarith

omit hbm25 hsemantic hlen hlen' in
theorem rankScore_gap {ids : List Bytes} (hids : ids.Nodup) (hlen : ids.length ≤ 11500)
    {a b : Bytes} (h : ids.idxOf a < ids.idxOf b) :
    rankScore ids b + 2 ^ (-27 : ℤ) < rankScore ids a := by
  have hi : ids.idxOf a < ids.length := h.trans_le List.idxOf_le_length
  have hb : rankScore ids b ≤ 1 / (61 + (ids.idxOf a : ℚ) + 1) := by
    by_cases hmem : b ∈ ids
    · rw [rankScore_of_mem hids hmem]
      apply one_div_le_one_div_of_le (by positivity)
      exact_mod_cast (by omega : 61 + ids.idxOf a + 1 ≤ 61 + ids.idxOf b)
    · rw [rankScore_of_notMem hmem]
      positivity
  rw [rankScore_of_mem hids (List.idxOf_lt_length_iff.mp hi)]
  set i := ids.idxOf a
  have hstep : 1 / (61 + (i : ℚ)) = 1 / (61 + (i : ℚ) + 1) +
      1 / ((61 + (i : ℚ)) * (61 + (i : ℚ) + 1)) := by
    field_simp
  have hproduct : (61 + (i : ℚ)) * (61 + (i : ℚ) + 1) < 2 ^ 27 := by
    have hle : (61 + i) * (61 + i + 1) ≤ 11560 * 11561 := Nat.mul_le_mul (by omega) (by omega)
    exact_mod_cast hle.trans_lt (by norm_num)
  have hlt : (2 : ℚ) ^ (-27 : ℤ) < 1 / ((61 + (i : ℚ)) * (61 + (i : ℚ) + 1)) := by
    rw [zpow_neg, ← one_div]
    exact one_div_lt_one_div_of_lt (by positivity) (by exact_mod_cast hproduct)
  linarith

omit hlen hlen' in
theorem position_lt_of_dominates (hshort : bm25.length ≤ 11500) (hshort' : semantic.length ≤ 11500)
    {a b : Bytes}
    (h : (position bm25 a < position bm25 b ∧ ¬ position semantic b < position semantic a) ∨
      (position semantic a < position semantic b ∧ ¬ position bm25 b < position bm25 a)) :
    position (rrfMerge merges bm25 semantic) a < position (rrfMerge merges bm25 semantic) b := by
  apply position_lt_of_exactScore hbm25 hsemantic (by omega) (by omega)
  rw [exactScore, exactScore]
  rcases h with ⟨h1, h2⟩ | ⟨h1, h2⟩
  · have hgap := rankScore_gap hbm25 (by rwa [List.length_map]) h1
    have hle := rankScore_le hsemantic h2
    linarith
  · have hgap := rankScore_gap hsemantic (by rwa [List.length_map]) h1
    have hle := rankScore_le hbm25 h2
    linarith

omit hsemantic hlen hlen' in
theorem map_fst_rrfMerge_nil (hlen : bm25.length + 61 < 2 ^ 23) :
    (rrfMerge merges bm25 ([] : List (Bytes × S'))).map Prod.fst = bm25.map Prod.fst := by
  set ids := bm25.map Prod.fst with hids
  set merged := rrfMerge merges bm25 ([] : List (Bytes × S')) with hmerged
  have hperm : (merged.map Prod.fst).Perm ids :=
    (List.perm_ext_iff_of_nodup nodup_rrfMerge hbm25).mpr fun id => by
      simp [mem_ids_rrfMerge, hids]
  have hscore : ∀ p ∈ merged, p.2 = rrfTerm (ids.idxOf p.1) ∧ ids.idxOf p.1 + 61 < 2 ^ 23 := by
    rintro ⟨id, score⟩ hp
    have hid : id ∈ ids := hperm.mem_iff.mp (List.mem_map_of_mem hp)
    have hlt : ids.idxOf id < bm25.length := by
      have h := List.idxOf_lt_length_iff.mpr hid
      rwa [hids, List.length_map] at h
    obtain ⟨m, hm, -⟩ := exists_rrfTerm (i := ids.idxOf id) (by omega)
    refine ⟨?_, by change ids.idxOf id + 61 < 2 ^ 23; omega⟩
    rw [(mem_rrfMerge_iff.mp hp).2, KeyedFold.under_append, under_rrfLog_once hbm25, if_pos hid]
    change ([rrfTerm (ids.idxOf id)] : List Binary32).foldl (· + ·) 0 = _
    rw [List.foldl_cons, List.foldl_nil, hm, zero_add_finite]
  have hfront : (merged.map Prod.fst).Pairwise fun a b => ids.idxOf a ≤ ids.idxOf b := by
    rw [List.pairwise_map]
    have hdesc : merged.Pairwise fun p q => q.2.key ≤ p.2.key :=
      pairwise_key_rrfMerge hbm25 List.nodup_nil (by omega) (Nat.le_of_ble_eq_true rfl)
    refine hdesc.imp_of_mem ?_
    intro p q hp hq hle
    obtain ⟨hps, hpi⟩ := hscore p hp
    obtain ⟨hqs, -⟩ := hscore q hq
    rw [hps, hqs] at hle
    exact not_lt.mp fun hlt => absurd (key_rrfTerm_lt hlt hpi) (not_lt.mpr hle)
  have hlist : ids.Pairwise fun a b => ids.idxOf a ≤ ids.idxOf b := by
    rw [List.pairwise_iff_getElem]
    intro i j hi hj hij
    rw [hbm25.idxOf_getElem i hi, hbm25.idxOf_getElem j hj]
    exact hij.le
  refine List.Perm.eq_of_pairwise ?_ hfront hlist hperm
  intro a b _ hb hab hba
  exact ((List.idxOf_inj hb).mp (le_antisymm hba hab)).symm

/-- The fusion in `float`: every score is finite and within `2 ^ -28` of the sum of the exact
reciprocal ranks, ids whose exact scores differ by more than `2 ^ -27` stand in the exact order,
which for lists of at most 11500 ids keeps every order that one list has and the other does not
contradict, and a keyword list without a semantic one stays as it is. -/
theorem floatMerge_agrees :
    (∀ id score, (id, score) ∈ rrfMerge merges bm25 semantic →
      ∃ m, score = .finite false m ∧ |m.1 - exactScore bm25 semantic id| ≤ 2 ^ (-28 : ℤ)) ∧
    (∀ a b, exactScore bm25 semantic b + 2 ^ (-27 : ℤ) < exactScore bm25 semantic a →
      position (rrfMerge merges bm25 semantic) a < position (rrfMerge merges bm25 semantic) b) ∧
    (bm25.length ≤ 11500 → semantic.length ≤ 11500 → ∀ a b,
      ((position bm25 a < position bm25 b ∧ ¬ position semantic b < position semantic a) ∨
        (position semantic a < position semantic b ∧ ¬ position bm25 b < position bm25 a)) →
      position (rrfMerge merges bm25 semantic) a < position (rrfMerge merges bm25 semantic) b) ∧
    (bm25.length + 61 < 2 ^ 23 →
      (rrfMerge merges bm25 ([] : List (Bytes × S'))).map Prod.fst = bm25.map Prod.fst) :=
  ⟨fun _ _ => exists_score hbm25 hsemantic hlen hlen',
    fun _ _ => position_lt_of_exactScore hbm25 hsemantic hlen hlen',
    fun hshort hshort' _ _ => position_lt_of_dominates hbm25 hsemantic hshort hshort',
    map_fst_rrfMerge_nil hbm25⟩

end Scores

theorem floatMerge_agrees_overlap :
    position (rrfMerge (.byKey : MergeOrders Binary32) [(text "a", (9 : ℤ)), (text "b", 4)]
        [(text "b", (1 : ℤ)), (text "c", 0)]) (text "b") <
      position (rrfMerge (.byKey : MergeOrders Binary32) [(text "a", (9 : ℤ)), (text "b", 4)]
        [(text "b", (1 : ℤ)), (text "c", 0)]) (text "a") := by
  refine (floatMerge_agrees (by decide) (by decide) (by decide) (by decide)).2.1 _ _ ?_
  have ha : exactScore [(text "a", (9 : ℤ)), (text "b", 4)] [(text "b", (1 : ℤ)), (text "c", 0)]
      (text "a") = 1 / 61 := by decide +kernel
  have hb : exactScore [(text "a", (9 : ℤ)), (text "b", 4)] [(text "b", (1 : ℤ)), (text "c", 0)]
      (text "b") = 1 / 62 + 1 / 61 := by decide +kernel
  rw [ha, hb]
  norm_num

end SemanticSearch
