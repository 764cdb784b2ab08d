import SemanticSearch.EmbeddedText
import SemanticSearch.Evaluation
import SemanticSearch.ResponseFraming

namespace SemanticSearch

namespace Evaluation

open FileSystem InvertedIndex Json VectorClient

/-- The bytes that `quote_plus` escapes. -/
def inQuotedSet (c : Byte) : Bool := !(isAlnum c || (text "_.-~").contains c || c == space)

/-- `urllib.parse.quote_plus`. -/
def quotePlus (query : List Char) : Bytes :=
  (percentEncode inQuotedSet (utf8 query)).map fun c => if c = space then 43 else c

example : quotePlus "Who's the whale?".toList = text "Who%27s+the+whale%3F" := by decide +kernel

/-- The terms that the server takes from the request. -/
def sentTerms (q : Query) : List Bytes := splitTerms (text "q=" ++ quotePlus q.query)

/-- A GET of `query_api`, with any header lines that have a value. -/
structure QueryRequest (q : Query) extends WireRequest where
  get : method = text "GET"
  link : target = text "/api/search" ++ questionMark :: (text "q=" ++ quotePlus q.query)
  noLength : ∀ f ∈ fields, ¬ f.Named contentLength
  values : ∀ f ∈ fields, f.value ≠ []

theorem QueryRequest.parse {q : Query} (R : QueryRequest q) :
    ∃ req, parseRequest R.head = .ok req ∧ req.method = text "GET" ∧
      req.path = text "/api/search" ∧ req.query = text "q=" ++ quotePlus q.query := by
  obtain ⟨r, hr, hmethod, hsides⟩ := R.parseRequest_head R.values R.noLength
  have hpath : questionMark ∉ text "/api/search" := by decide
  rw [R.link] at hsides
  rcases hsides with ⟨hnone, -⟩ | ⟨hnot, htarget⟩
  · exact absurd (List.mem_append_right _ List.mem_cons_self) hnone
  · have hlen := congrArg (find [questionMark]) htarget
    rw [find_append_cons hpath, find_append_cons hnot] at hlen
    obtain ⟨h1, h2⟩ := List.append_inj htarget (Option.some.inj hlen)
    exact ⟨r, hr, hmethod.trans R.get, h1.symm, (List.cons.inj h2).2.symm⟩

/-- A byte of ASCII that is no control character. -/
def IsPrintable (c : Byte) : Prop := 32 ≤ c.toNat ∧ c.toNat < 127

instance (c : Byte) : Decidable (IsPrintable c) := inferInstanceAs (Decidable (_ ∧ _))

theorem isPrintable_quotePlus {query : List Char} {c : Byte} (h : c ∈ quotePlus query) :
    IsPrintable c ∧ c ≠ space := by
  have hplain : ∀ n < 256, inQuotedSet (UInt8.ofNat n) = false → 32 ≤ n ∧ n < 127 := by
    decide +kernel
  have hdigit : ∀ n < 16, IsPrintable (hexDigit n) := by decide
  obtain ⟨d, hd, rfl⟩ := List.mem_map.mp h
  have hprintable : IsPrintable d := by
    rcases mem_percentEncode hd with ⟨-, hset⟩ | rfl | ⟨n, hn, rfl⟩
    · have hlt : d.toNat < 256 := d.toNat_lt_size
      apply hplain d.toNat hlt
      rwa [UInt8.ofNat_toNat]
    · decide
    · exact hdigit n hn
  split_ifs with hspace
  · decide
  · exact ⟨hprintable, hspace⟩

theorem isSpace_quotePlus {query : List Char} {c : Byte} (h : c ∈ quotePlus query) :
    isSpace c = false := by
  obtain ⟨⟨hlow, -⟩, hspace⟩ := isPrintable_quotePlus h
  by_contra hs
  simp only [isSpace, Bool.not_eq_false, Bool.or_eq_true, beq_iff_eq, Bool.and_eq_true,
    decide_eq_true_eq, UInt8.le_iff_toNat_le] at hs
  have h13 : (13 : Byte).toNat = 13 := rfl
  rcases hs with hs | ⟨-, hs⟩
  · exact hspace hs
  · omega

theorem mem_unescapeSpaces {q : Bytes} {c : Byte} (h : c ∈ unescapeSpaces q) : c ∈ q ∨ c = 43 := by
  fun_induction unescapeSpaces q with
  | case1 cs ih =>
    rcases List.mem_cons.mp h with rfl | h
    · exact Or.inr rfl
    · exact (ih h).imp_left fun hc => by simp [hc]
  | case2 d cs _ ih =>
    rcases List.mem_cons.mp h with rfl | h
    · exact Or.inl List.mem_cons_self
    · exact (ih h).imp_left (List.mem_cons_of_mem _)
  | case3 => exact Or.inl h

theorem mem_splitTerms {query t : Bytes} {c : Byte} (ht : t ∈ splitTerms query) (hc : c ∈ t) :
    ∃ d, (d ∈ query ∨ d = 43) ∧ c = toLower d := by
  obtain ⟨piece, hpiece, rfl⟩ := List.mem_map.mp ht
  obtain ⟨d, hd, rfl⟩ := List.mem_map.mp hc
  have hmem := mem_of_mem_getlines (List.mem_filter.mp hpiece).1 hd
  refine ⟨d, ?_, rfl⟩
  refine (mem_unescapeSpaces hmem).imp_left fun h => ?_
  split at h
  · exact h
  · exact List.mem_of_mem_drop h

theorem isSome_received_sentTerms (q : Query) : (received (joinTerms (sentTerms q))).isSome := by
  have hlower : ∀ n < 127, 32 ≤ n → IsPrintable (toLower (UInt8.ofNat n)) := by decide +kernel
  have hquery : ∀ d, d ∈ text "q=" ++ quotePlus q.query ∨ d = 43 → IsPrintable d := by
    have hname : (text "q=").all fun d => decide (IsPrintable d) := by decide
    rintro d (hd | rfl)
    · rcases List.mem_append.mp hd with hd | hd
      · exact of_decide_eq_true (List.all_eq_true.mp hname d hd)
      · exact (isPrintable_quotePlus hd).1
    · decide
  have hall : ∀ c ∈ joinTerms (sentTerms q), IsPrintable c := by
    intro c hc
    rcases mem_of_mem_intercalate hc with hc | ⟨t, ht, hc⟩
    · obtain rfl := List.mem_singleton.mp hc
      decide
    · obtain ⟨d, hd, rfl⟩ := mem_splitTerms ht hc
      have hplain := hlower d.toNat (hquery d hd).2 (hquery d hd).1
      rwa [UInt8.ofNat_toNat] at hplain
  rw [isSome_received]
  constructor
  · rw [List.any_eq_false]
    intro c hc hcontrol
    have hprintable := (hall c hc).1
    simp only [isRawControl, Bool.and_eq_true, decide_eq_true_eq, UInt8.lt_iff_toNat_lt] at hcontrol
    have h32 : (32 : Byte).toNat = 32 := rfl
    omega
  · have hascii : ∀ c ∈ joinTerms (sentTerms q), c < 128 := by
      intro c hc
      have hprintable := (hall c hc).2
      rw [UInt8.lt_iff_toNat_lt]
      have h128 : (128 : Byte).toNat = 128 := rfl
      omega
    rw [← utf8_map_ofNat hascii, utf8Decode_utf8]
    rfl

/-- What `query_api` makes of the server's answer. A connection that ends without an answer and a
body that is no JSON are no `URLError`. -/
def replyOf (response : Except Exn Bytes) : Reply :=
  match response.toOption.bind SemanticSearch.readResponse with
  | none => .raised
  | some ((status, body), _) =>
    if 200 ≤ status ∧ status < 300 then
      match jsonValue body with
      | none => .raised
      | some v => .result v
    else .urlError

variable {V : Type}

def answerOf (ctx : ClientCtx V) (w : World V) (raw : Bytes) : Except Exn Bytes := do
  let r ← parseRequest raw
  let (response, _) ← respond ctx r w
  return response

theorem replyOf_json {body : Bytes} {v : Value} (hv : jsonValue body = some v)
    (hlen : body.length < ulongBound) :
    replyOf (.ok (makeResponse kHttpOk body (text "application/json") [])) = .result v := by
  have hread := (BuiltResponse.mk kHttpOk body (text "application/json") []
    (by unfold IsInt; decide) (by decide) (by decide) hlen).readResponse_append []
  rw [BuiltResponse.render, makeResponseInt_natCast, List.append_nil] at hread
  have hok : (200 : ℤ) ≤ (kHttpOk : ℕ) ∧ ((kHttpOk : ℕ) : ℤ) < 300 := by decide
  rw [replyOf, Except.toOption, Option.bind_some, hread]
  simp only [if_pos hok, hv]

/-- A ranking of the keyword index alone: nothing from the service, and the fused list is that of
the index. -/
def KeywordOnly (ranked : Method → List (List Char)) : Prop :=
  ranked .semantic = [] ∧ ranked .hybrid = ranked .bm25

theorem rankList_of_field {v : Value} {m : Method} {ids : List Bytes}
    (h : ((v.field m.name).bind idsOf).map (·.map utf8) = some ids) :
    ∃ list, rankList v m = some list ∧ list.map utf8 = ids := by
  obtain ⟨list, hlist, rfl⟩ := Option.map_eq_some_iff.mp h
  obtain ⟨field, hfield, hids⟩ := Option.bind_eq_some_iff.mp hlist
  refine ⟨list, ?_, rfl⟩
  cases v with
  | object members => simp only [rankList, hfield, hids]
  | _ => cases hfield

theorem rankings_of_conveys {v : Value} {query : Bytes} {ids : List Bytes}
    (h : Conveys v query ids [] ids) : ∃ ranked, rankings v = some ranked ∧ KeywordOnly ranked := by
  obtain ⟨bm25, hbm25, hids⟩ := rankList_of_field (m := .bm25) h.bm25
  obtain ⟨semantic, hsemantic, hnil⟩ := rankList_of_field (m := .semantic) h.semantic
  obtain ⟨hybrid, hhybrid, hsame⟩ := rankList_of_field (m := .hybrid) h.hybrid
  have hinjective : Function.Injective (List.map utf8) :=
    List.map_injective_iff.mpr fun _ _ h => utf8_injective h
  refine ⟨_, by simp only [rankings, hbm25, hsemantic, hhybrid]; rfl, ?_, ?_⟩
  · exact List.map_eq_nil_iff.mp hnil
  · exact hinjective (hsame.trans hids.symm)

theorem rankings_emptyQuery :
    ∃ v ranked, jsonValue (text "\x7b\"error\":\"empty query\"\x7d") = some v ∧
      rankings v = some ranked ∧ KeywordOnly ranked := by
  have hlists : ((jsonValue (text "\x7b\"error\":\"empty query\"\x7d")).bind rankings).map
      (fun ranked => (ranked .bm25, ranked .semantic, ranked .hybrid)) = some ([], [], []) := by
    decide +kernel
  obtain ⟨ranked, hranked, hnil⟩ := Option.map_eq_some_iff.mp hlists
  obtain ⟨v, hv, hrankings⟩ := Option.bind_eq_some_iff.mp hranked
  simp only [Prod.mk.injEq] at hnil
  exact ⟨v, ranked, hv, hrankings, hnil.2.1, hnil.2.2.trans hnil.1.symm⟩

variable {merges : MergeOrders Binary32} {underflows : ℚ → Bool} {ctx : ClientCtx V}
  {link : V → Link} {int : IntType} {orders : SearchOrders}

theorem reply_without_service
    (hctx : ∀ terms index vec, ctx.searchJson terms index vec =
      searchThrough merges underflows (link vec) terms (searchAndRank int orders index terms))
    {q : Query} {w : World V} (R : QueryRequest q)
    (hdown : (link w.vec).connects = false ∨ (sendAll (link w.vec).writes
      (postRequest (text "/search") (searchBody (joinTerms (sentTerms q)) 10))).ok = false)
    (hids : ∀ p ∈ searchAndRank int orders w.index (sentTerms q), (received p.1).isSome)
    (hshort : (searchAndRank int orders w.index (sentTerms q)).length + 61 < 2 ^ 23)
    (hfits : ∀ response, answerOf ctx w R.head = .ok response → response.length < ulongBound) :
    ∃ v ranked, replyOf (answerOf ctx w R.head) = .result v ∧ rankings v = some ranked ∧
      KeywordOnly ranked := by
  set bm25 := searchAndRank int orders w.index (sentTerms q)
  set tsv := post (link w.vec) (text "/search") (searchBody (joinTerms (sentTerms q)) 10)
  set query := text "q=" ++ quotePlus q.query
  have hanswer : answerOf ctx w R.head =
      .ok (makeResponse kHttpOk (apiSearch merges underflows query bm25 tsv)
        (text "application/json") []) := by
    obtain ⟨req, hreq, hmethod, hpath, hquery⟩ := R.parse
    have hget := handleGetRequest_search merges underflows
      (fun terms index => searchAndRank int orders index terms)
      (fun query vec => post (link vec) (text "/search") (searchBody query 10)) w hpath hctx
    rw [answerOf, hreq]
    simp only [bind, Except.bind, respond, if_pos hmethod, hget, hquery]
    rfl
  have hvalue : ∃ v ranked, jsonValue (apiSearch merges underflows query bm25 tsv) = some v ∧
      rankings v = some ranked ∧ KeywordOnly ranked := by
    rw [apiSearch]
    by_cases hnil : splitTerms query = []
    · rw [if_pos hnil]
      exact rankings_emptyQuery
    · rw [if_neg hnil]
      obtain ⟨v, hv, hconveys⟩ : ∃ v,
          jsonValue (searchThrough merges underflows (link w.vec) (sentTerms q) bm25) = some v ∧
            Conveys v (joinTerms (sentTerms q)) (bm25.map Prod.fst) [] (bm25.map Prod.fst) :=
        searchThrough_down (isSome_received_sentTerms q) hids (nodup_searchAndRank _) hshort hdown
      obtain ⟨ranked, hranked, honly⟩ := rankings_of_conveys hconveys
      exact ⟨v, ranked, hv, hranked, honly⟩
  obtain ⟨v, ranked, hv, hranked, honly⟩ := hvalue
  have hlen := hfits _ hanswer
  refine ⟨v, ranked, ?_, hranked, honly⟩
  rw [hanswer]
  apply replyOf_json hv
  simp only [makeResponse, List.length_append] at hlen
  omega

variable {R : Rounding}

theorem sum_zeros (l : List Answered) : R.sum (l.map fun _ => 0) = 0 := by
  have hstep : R.round (0 + 0) = 0 := by rw [add_zero, R.round_zero]
  unfold Rounding.sum
  induction l with
  | nil => rfl
  | cons a l ih => rw [List.map_cons, List.foldl_cons, hstep, ih]

theorem cell_avg_zeros (l : List Answered) : cell (avg R (l.map fun _ => 0)) = 0 := by
  rw [avg_map, sum_zeros, zero_div, R.round_zero, cell_zero]

/-- Whether a row has nothing from the service. -/
def KeywordRow (cells : Method → Cells) : Prop :=
  cells .semantic = ⟨0, 0, 0⟩ ∧ cells .hybrid = cells .bm25

theorem keywordRow_row {as : List Answered} (h : ∀ a ∈ as, KeywordOnly a.ranked) :
    KeywordRow (row R (scoresOf R as)) := by
  constructor
  · have hscores : scoresOf R as .semantic =
        ⟨as.map fun _ => 0, as.map fun _ => 0, as.map fun _ => 0⟩ := by
      simp only [scoresOf, Scores.mk.injEq]
      refine ⟨List.map_congr_left fun a ha => ?_, List.map_congr_left fun a ha => ?_,
        List.map_congr_left fun a ha => ?_⟩ <;> rw [(h a ha).1] <;> rfl
    rw [row, hscores]
    simp only [cell_avg_zeros]
  · have hscores : scoresOf R as .hybrid = scoresOf R as .bm25 := by
      simp only [scoresOf, Scores.mk.injEq]
      refine ⟨List.map_congr_left fun a ha => ?_, List.map_congr_left fun a ha => ?_,
        List.map_congr_left fun a ha => ?_⟩ <;> rw [(h a ha).2]
    rw [row, row, hscores]

theorem exists_answered {ps : List (Query × Reply)}
    (h : ∀ p ∈ ps, ∃ v ranked, p.2 = .result v ∧ rankings v = some ranked ∧ KeywordOnly ranked) :
    ∃ as : List Answered, ps.mapM outcomeOf = some (as.map some) ∧ as.length = ps.length ∧
      ∀ a ∈ as, KeywordOnly a.ranked := by
  induction ps with
  | nil => exact ⟨[], rfl, rfl, by simp⟩
  | cons p ps ih =>
    rw [List.forall_mem_cons] at h
    obtain ⟨v, ranked, hv, hranked, honly⟩ := h.1
    obtain ⟨as, has, hlen, hall⟩ := ih h.2
    refine ⟨⟨p.1, ranked⟩ :: as, ?_, by rw [List.length_cons, List.length_cons, hlen],
      List.forall_mem_cons.mpr ⟨honly, hall⟩⟩
    have hp : outcomeOf p = some (some ⟨p.1, ranked⟩) := by
      rw [outcomeOf, hv]
      simp only [hranked, Option.map_some]
    rw [List.mapM_cons, hp, has]
    rfl

theorem noSpace_get : text "GET" ≠ [] ∧ NoSpace (text "GET") := by decide

theorem noSpace_version : text "HTTP/1.1" ≠ [] ∧ NoSpace (text "HTTP/1.1") := by decide

theorem noSpace_queryTarget (query : List Char) :
    text "/api/search" ++ questionMark :: (text "q=" ++ quotePlus query) ≠ [] ∧
      NoSpace (text "/api/search" ++ questionMark :: (text "q=" ++ quotePlus query)) := by
  have hpath : NoSpace (text "/api/search" ++ questionMark :: text "q=") := by decide
  refine ⟨by simp, fun c hc => ?_⟩
  rw [← List.cons_append, ← List.append_assoc, List.mem_append] at hc
  rcases hc with hc | hc
  · exact hpath c hc
  · exact isSpace_quotePlus hc

/-- The request of `urllib` for a query, with the header lines `fields`. -/
def queryRequest (fields : List HeaderField) (hlength : ∀ f ∈ fields, ¬ f.Named contentLength)
    (hvalues : ∀ f ∈ fields, f.value ≠ []) (q : Query) : QueryRequest q where
  method := text "GET"
  target := text "/api/search" ++ questionMark :: (text "q=" ++ quotePlus q.query)
  version := text "HTTP/1.1"
  fields := fields
  body := []
  method_ok := noSpace_get
  target_ok := noSpace_queryTarget q.query
  version_ok := noSpace_version
  length_ok := Or.inl ⟨rfl, hlength⟩
  get := rfl
  link := rfl
  noLength := hlength
  values := hvalues

def noService : Unit → Link := fun _ => ⟨false, [], fun _ => []⟩

def aloneCtx : ClientCtx Unit :=
  { plainCtx with
    searchJson := fun terms index vec =>
      searchThrough .byKey (fun q => decide (q < 2 ^ (-126 : ℤ))) (noService vec) terms
        (searchAndRank .int32 .stable index terms) }

def helloQuery : Query := ⟨['h', 'e', 'l', 'l', 'o'], [['r', 'o', 'o', 't', '/', 'a']], none⟩

end Evaluation

end SemanticSearch
