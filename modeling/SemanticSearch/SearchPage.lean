import SemanticSearch.SearchMessages

namespace SemanticSearch

open FileSystem InvertedIndex Json VectorClient

theorem isSome_received {s : Bytes} :
    (received s).isSome ↔ s.any isRawControl = false ∧ (utf8Decode s).isSome := by
  unfold received
  split_ifs with h
  · simp [h]
  · simp [h]

theorem isFinite_printedScore {x : Binary32} (hx : isListed x) (h : x.isFinite) :
    (printedScore x).isFinite := by
  rcases x with ⟨_ | _, m⟩ | _ | _
  · exact isFinite_printed m.2
  · simp [isListed] at hx
  · cases h
  · cases h

variable {merges : MergeOrders Binary32} {underflows : ℚ → Bool} {terms : List Bytes}
  {bm25 : List (Bytes × ℤ)} {tsv : Bytes}

/-- The page gets the query and the three lists if a JSON reader accepts the texts and the scores. -/
theorem searchJson_conveys (hquery : (received (joinTerms terms)).isSome)
    (hbm25 : ∀ p ∈ bm25, (received p.1).isSome)
    (hsemantic : ∀ p ∈ parseTsv underflows tsv, (received p.1).isSome ∧ p.2.isFinite) :
    ∃ v, jsonValue (searchJson merges underflows terms bm25 tsv) = some v ∧
      Conveys v (joinTerms terms) (bm25.map Prod.fst) ((parseTsv underflows tsv).map Prod.fst)
        ((rrfMerge merges bm25 (parseTsv underflows tsv)).map Prod.fst) := by
  have hhybrid : ∀ p ∈ rrfMerge merges bm25 (parseTsv underflows tsv),
      (received p.1).isSome ∧ p.2.isFinite := fun p hp =>
    ⟨forall_ids_rrfMerge (P := fun id => (received id).isSome) hbm25
      (fun p hp => (hsemantic p hp).1) p hp, isFinite_of_mem_rrfMerge hp⟩
  obtain ⟨q, hq⟩ := Option.isSome_iff_exists.mp hquery
  have hq := utf8_of_received hq
  obtain ⟨b, rfl⟩ := exists_map_utf8 fun p hp => (isSome_received.mp (hbm25 p hp)).2
  obtain ⟨s, hs⟩ := exists_map_utf8 fun p hp => (isSome_received.mp (hsemantic p hp).1).2
  obtain ⟨m, hm⟩ := exists_map_utf8 fun p hp => (isSome_received.mp (hhybrid p hp).1).2
  rw [← hq] at hquery ⊢
  rw [searchJson_utf8 hq.symm hs hm, jsonValue, utf8Decode_utf8, Option.bind_some, hm, hs,
    map_fst_utf8, map_fst_utf8, map_fst_utf8]
  rw [hm] at hhybrid
  rw [hs] at hsemantic
  refine (conveys_answerMembers_iff q b s m).mpr
    ⟨(isSome_received.mp hquery).1, fun p hp => ?_, fun p hp => ?_, fun p hp => ?_⟩
  · exact (isSome_received.mp (hbm25 _ (List.mem_map_of_mem hp))).1
  · obtain ⟨hid, hscore⟩ := hsemantic _ (List.mem_map_of_mem hp)
    exact ⟨(isSome_received.mp hid).1, hscore⟩
  · obtain ⟨hid, hscore⟩ := hhybrid _ (List.mem_map_of_mem hp)
    exact ⟨(isSome_received.mp hid).1, hscore⟩

/-- The body of a GET of `/api/search` for the ranking of the keyword index, over the link to the
service. -/
def searchThrough (merges : MergeOrders Binary32) (underflows : ℚ → Bool) (l : Link)
    (terms : List Bytes) (bm25 : List (Bytes × ℤ)) : Bytes :=
  searchJson merges underflows terms bm25 (post l (text "/search") (searchBody (joinTerms terms) 10))

/-- Without the service the page gets the ranking of the keyword index alone, in its own order. -/
theorem searchThrough_down {l : Link} (hquery : (received (joinTerms terms)).isSome)
    (hids : ∀ p ∈ bm25, (received p.1).isSome) (hnodup : (bm25.map Prod.fst).Nodup)
    (hshort : bm25.length + 61 < 2 ^ 23)
    (h : l.connects = false ∨ (sendAll l.writes
      (postRequest (text "/search") (searchBody (joinTerms terms) 10))).ok = false) :
    ∃ v, jsonValue (searchThrough merges underflows l terms bm25) = some v ∧
      Conveys v (joinTerms terms) (bm25.map Prod.fst) [] (bm25.map Prod.fst) := by
  have hnil : parseTsv underflows
      (post l (text "/search") (searchBody (joinTerms terms) 10)) = [] := by
    rw [post, exchange_eq_nil h]
    rfl
  have hnone : ∀ p ∈ parseTsv underflows
      (post l (text "/search") (searchBody (joinTerms terms) 10)),
        (received p.1).isSome ∧ p.2.isFinite := by
    rw [hnil]
    simp
  obtain ⟨v, hv, hconveys⟩ := searchJson_conveys hquery hids hnone
  rw [hnil, map_fst_rrfMerge_nil hnodup hshort] at hconveys
  exact ⟨v, hv, hconveys⟩

def searchingCtx : ClientCtx Unit :=
  { plainCtx with
    searchJson := fun terms index _ =>
      searchThrough .byKey (fun q => decide (q < 2 ^ (-126 : ℤ))) (directLink oneDocument) terms
        (searchAndRank .int32 .stable index terms) }

def helloIndex : InvertedIndex := addFile smallTree.view (text "root/a") ∅

end SemanticSearch
