import SemanticSearch.FloatText
import SemanticSearch.HttpServer
import SemanticSearch.JsonText
import SemanticSearch.RrfMerge
import SemanticSearch.SearchAndRank

namespace SemanticSearch

open Json

def MergeOrders.byKey : MergeOrders Binary32 where
  visit l := l
  sort l := l.insertionSort fun a b => b.2.key ≤ a.2.key
  visit_perm _ := List.Perm.refl _
  sort_perm l := l.perm_insertionSort _
  sort_desc l := by
    refine (pairwise_insertionSort_key (fun p => p.2.key) l).imp fun {a b} h => ?_
    rintro ⟨-, -, hlt⟩
    exact absurd hlt (not_lt.mpr h)

theorem within_rrfTerm (i : ℕ) : (rrfTerm i : Binary32).Within (-5) := by
  have hk : (kRrfK : Binary32).AtLeast (2 ^ (5 : ℤ)) :=
    Binary32.atLeast_ofRat (by norm_num) (by decide)
  have hi : (kRrfK + (i : Binary32)).AtLeast (2 ^ (5 : ℤ)) :=
    hk.add Binary32.atLeast_zero_ofRat (by decide)
  have hrank : (kRrfK + (i : Binary32) + 1).AtLeast (2 ^ (5 : ℤ)) :=
    hi.add Binary32.atLeast_zero_ofRat (by decide)
  exact hrank.one_div (by decide) (by decide)

theorem within_foldl_add {xs : List Binary32} (h : ∀ x ∈ xs, x.Within (-5)) :
    (xs.foldl (· + ·) 0).Within 20 := by
  have hstart : ∀ a : Binary32, a.Within 20 → (xs.foldl (· + ·) a).Within 20 := by
    induction xs with
    | nil => exact fun a ha => ha
    | cons x xs ih =>
      intro a ha
      rw [List.forall_mem_cons] at h
      exact ih h.2 _ (ha.add h.1 (by decide) (by decide) (by decide))
  exact hstart 0 (Binary32.within_ofRat_of_le (by norm_num) (by norm_num) (by decide) (by decide))

theorem isFinite_of_mem_rrfMerge {S S' : Type} {merges : MergeOrders Binary32}
    {bm25 : List (Bytes × S)} {semantic : List (Bytes × S')} {p : Bytes × Binary32}
    (h : p ∈ rrfMerge merges bm25 semantic) : p.2.isFinite := by
  obtain ⟨id, score⟩ := p
  have hlog : ∀ {T : Type} {ranked : List (Bytes × T)}, ∀ x ∈ (rrfLog Binary32 ranked).map Prod.snd,
      x.Within (-5) := by
    intro T ranked x hx
    simp only [rrfLog, List.map_map, List.mem_map, Function.comp] at hx
    obtain ⟨q, -, rfl⟩ := hx
    exact within_rrfTerm q.2
  have hterms : ∀ x ∈ KeyedFold.under id (rrfLog Binary32 bm25 ++ rrfLog Binary32 semantic),
      x.Within (-5) := by
    intro x hx
    rw [KeyedFold.under, List.mem_map] at hx
    obtain ⟨q, hq, rfl⟩ := hx
    rcases List.mem_append.mp (List.mem_of_mem_filter hq) with hq | hq
    · exact hlog _ (List.mem_map_of_mem hq)
    · exact hlog _ (List.mem_map_of_mem hq)
  rw [(mem_rrfMerge_iff.mp h).2]
  exact (within_foldl_add hterms).isFinite

def tab : Byte := 9

/-- The id of a line and the text of its score, at the first tab. -/
def tsvFields (line : Bytes) : Option (Bytes × Bytes) :=
  if line = [] then none
  else (find [tab] line).map fun i => (line.take i, line.drop (i + 1))

/-- `VectorClient::ParseTsv`. -/
def parseTsv (underflows : ℚ → Bool) (body : Bytes) : List (Bytes × Binary32) :=
  (getlines newline body).filterMap fun line =>
    (tsvFields line).bind fun f => (stof underflows f.2).toOption.map fun score => (f.1, score)

variable {T : Type}

/-- `RankedToJson`, with the text that `operator<<` prints for a score. -/
def rankedToJson (print : T → List Char) (v : List (Bytes × T)) : Bytes :=
  text "[" ++ (text ",").intercalate (v.map fun p =>
    text "\x7b\"id\":\"" ++ jsonStr p.1 ++ text "\",\"score\":" ++ utf8 (print p.2) ++
      text "\x7d") ++ text "]"

/-- The answer for `terms` where the keyword index gives `bm25` and the vector service returns
`tsv`. -/
def searchJson (merges : MergeOrders Binary32) (underflows : ℚ → Bool) (terms : List Bytes)
    (bm25 : List (Bytes × ℤ)) (tsv : Bytes) : Bytes :=
  let query_str := joinTerms terms
  let semantic := parseTsv underflows tsv
  let hybrid := rrfMerge merges bm25 semantic
  text "\x7b\"query\":\"" ++ jsonStr query_str ++ text "\"," ++
    text "\"bm25\":" ++ rankedToJson intText bm25 ++ text "," ++
    text "\"semantic\":" ++ rankedToJson floatText semantic ++ text "," ++
    text "\"hybrid\":" ++ rankedToJson floatText hybrid ++ text "\x7d"

def apiSearch (merges : MergeOrders Binary32) (underflows : ℚ → Bool) (query : Bytes)
    (bm25 : List (Bytes × ℤ)) (tsv : Bytes) : Bytes :=
  let terms := splitTerms query
  if terms = [] then text "\x7b\"error\":\"empty query\"\x7d"
  else searchJson merges underflows terms bm25 tsv

/-- The server answers with this body. -/
theorem handleGetRequest_search {V : Type} (merges : MergeOrders Binary32) (underflows : ℚ → Bool)
    (search : List Bytes → InvertedIndex → List (Bytes × ℤ)) (service : Bytes → V → Bytes)
    {ctx : ClientCtx V} {r : Request} (w : World V) (hpath : r.path = text "/api/search")
    (hctx : ∀ terms m_count vec, ctx.searchJson terms m_count vec =
      searchJson merges underflows terms (search terms m_count) (service (joinTerms terms) vec)) :
    handleGetRequest ctx r w = .ok (makeResponse kHttpOk
      (apiSearch merges underflows r.query (search (splitTerms r.query) w.index)
        (service (joinTerms (splitTerms r.query)) w.vec)) (text "application/json") []) := by
  have h1 : text "/api/search" ≠ text "/" ∧ text "/api/search" ≠ [] ∧
      text "/api/search" ≠ text "/query" := by decide
  rw [handleGetRequest, hpath, if_neg (by simp [h1]), if_neg h1.2.2, if_pos rfl, apiSearch]
  simp only
  split_ifs
  · rfl
  · rw [hctx]

/-- The value of a body that is a JSON text. -/
def jsonValue (body : Bytes) : Option Value := (utf8Decode body).bind parse

def idsOf (list : Value) : Option (List (List Char)) :=
  list.asArray.bind (·.mapM fun entry => (entry.field ['i', 'd']).bind Value.asString)

/-- The query of an answer, and its three lists of ids in their order. -/
structure Conveys (v : Value) (query : Bytes) (bm25 semantic hybrid : List Bytes) : Prop where
  query : ((v.field ['q', 'u', 'e', 'r', 'y']).bind Value.asString).map utf8 = some query
  bm25 : ((v.field ['b', 'm', '2', '5']).bind idsOf).map (·.map utf8) = some bm25
  semantic : ((v.field ['s', 'e', 'm', 'a', 'n', 't', 'i', 'c']).bind idsOf).map (·.map utf8) =
    some semantic
  hybrid : ((v.field ['h', 'y', 'b', 'r', 'i', 'd']).bind idsOf).map (·.map utf8) = some hybrid

structure ScoreText (T : Type) where
  print : T → List Char
  value : T → Option Value
  reads : ∀ x, Reads 1 (print x) (value x)

def intScores : ScoreText ℤ where
  print := intText
  value n := some (.number (intText n))
  reads n := reads_number (isNumber_intText n)

def floatScores : ScoreText Binary32 where
  print := floatText
  value := floatValue
  reads := reads_floatText

def entryMembers (F : ScoreText T) (p : List Char × T) : Members :=
  [(['i', 'd'], quoted (escape p.1), (received (utf8 p.1)).map .string),
    (['s', 'c', 'o', 'r', 'e'], F.print p.2, F.value p.2)]

def rankedText (F : ScoreText T) (v : List (List Char × T)) : List Char :=
  arrayText (v.map fun p => objectText (entryMembers F p).texts)

def rankedValue (F : ScoreText T) (v : List (List Char × T)) : Option Value :=
  (v.mapM fun p => (entryMembers F p).values.map .object).map .array

variable {F : ScoreText T}

theorem reads_entry (p : List Char × T) :
    Reads 2 (objectText (entryMembers F p).texts) ((entryMembers F p).values.map .object) := by
  apply reads_object (d := 1)
  · intro m hm
    simp only [entryMembers, List.mem_cons, List.not_mem_nil, or_false] at hm
    rcases hm with rfl | rfl <;> exact isPlain_of_all rfl
  · intro m hm
    simp only [entryMembers, List.mem_cons, List.not_mem_nil, or_false] at hm
    rcases hm with rfl | rfl
    · exact reads_string (standsFor_escape p.1)
    · exact F.reads p.2

theorem reads_ranked (v : List (List Char × T)) : Reads 3 (rankedText F v) (rankedValue F v) := by
  set ts := v.map fun p =>
    (objectText (entryMembers F p).texts, (entryMembers F p).values.map Value.object) with hts
  have hreads : ∀ t ∈ ts, Reads 2 t.1 t.2 := by
    intro t ht
    obtain ⟨p, -, rfl⟩ := List.mem_map.mp ht
    exact reads_entry p
  have hopen : ∀ t ∈ ts, Opens t.1 := by
    intro t ht
    obtain ⟨p, -, rfl⟩ := List.mem_map.mp ht
    exact ⟨'\x7b', _, rfl, by decide, by decide⟩
  have harray := reads_array hreads hopen
  rw [hts, List.map_map, List.mapM_map] at harray
  exact harray

theorem intercalate_utf8 (sep : List Char) (ts : List (List Char)) :
    (utf8 sep).intercalate (ts.map utf8) = utf8 (sep.intercalate ts) :=
  (flatMap_intercalate String.utf8EncodeChar sep ts).symm

theorem rankedToJson_utf8 (v : List (List Char × T)) :
    rankedToJson F.print (v.map fun p => (utf8 p.1, p.2)) = utf8 (rankedText F v) := by
  have hopen : text "\x7b\"id\":\"" = utf8 ['\x7b', '"', 'i', 'd', '"', ':', '"'] :=
    text_ofList rfl
  have hmiddle : text "\",\"score\":" =
      utf8 ['"', ',', '"', 's', 'c', 'o', 'r', 'e', '"', ':'] := text_ofList rfl
  have hclose : text "\x7d" = utf8 ['\x7d'] := text_ofList rfl
  have hlist : text "[" = utf8 ['['] ∧ text "," = utf8 [','] ∧ text "]" = utf8 [']'] :=
    ⟨text_ofList rfl, text_ofList rfl, text_ofList rfl⟩
  have hentry : ∀ p : List Char × T, text "\x7b\"id\":\"" ++ jsonStr (utf8 p.1) ++
      text "\",\"score\":" ++ utf8 (F.print p.2) ++ text "\x7d" =
        utf8 (objectText (entryMembers F p).texts) := by
    intro p
    rw [hopen, hmiddle, hclose, jsonStr_utf8, ← utf8_append, ← utf8_append, ← utf8_append,
      ← utf8_append]
    simp [entryMembers, Members.texts, memberText, objectText, quoted]
  rw [rankedToJson, List.map_map]
  have hmap : ((fun p : Bytes × T => text "\x7b\"id\":\"" ++ jsonStr p.1 ++ text "\",\"score\":" ++
      utf8 (F.print p.2) ++ text "\x7d") ∘ fun p : List Char × T => (utf8 p.1, p.2)) =
        fun p => utf8 (objectText (entryMembers F p).texts) := funext hentry
  rw [hmap, ← Function.comp_def utf8, ← List.map_map, hlist.1, hlist.2.1, hlist.2.2,
    intercalate_utf8, ← utf8_append, ← utf8_append, rankedText, arrayText]
  rfl

theorem entry_values_iff {p : List Char × T} {entry : Value} :
    (entryMembers F p).values.map Value.object = some entry ↔
      (utf8 p.1).any isRawControl = false ∧ ∃ x, F.value p.2 = some x ∧
        entry = .object [(['i', 'd'], .string p.1), (['s', 'c', 'o', 'r', 'e'], x)] := by
  rcases hraw : (utf8 p.1).any isRawControl with _ | _
  · have hid := received_of_clean hraw
    rcases hx : F.value p.2 with _ | x
    · simp [entryMembers, Members.values, hid, hx]
    · simp [entryMembers, Members.values, hid, hx, eq_comm]
  · have hid := received_of_raw hraw
    simp [entryMembers, Members.values, hid]

theorem rankedValue_eq_some {v : List (List Char × T)} {list : Value}
    (h : rankedValue F v = some list) :
    (∀ p ∈ v, (utf8 p.1).any isRawControl = false ∧ (F.value p.2).isSome) ∧
      idsOf list = some (v.map Prod.fst) := by
  obtain ⟨entries, hentries, rfl⟩ := Option.map_eq_some_iff.mp h
  have hids : idsOf (.array entries) =
      entries.mapM fun entry => (entry.field ['i', 'd']).bind Value.asString := rfl
  rw [hids]
  clear h hids
  induction v generalizing entries with
  | nil =>
    obtain rfl : [] = entries := Option.some.inj hentries
    exact ⟨by simp, rfl⟩
  | cons p v ih =>
    rw [List.mapM_cons] at hentries
    simp only [Option.bind_eq_bind, Option.bind_eq_some_iff, Option.pure_def,
      Option.some.injEq] at hentries
    obtain ⟨entry, hentry, rest, hrest, rfl⟩ := hentries
    obtain ⟨hraw, x, hx, rfl⟩ := entry_values_iff.mp hentry
    obtain ⟨hall, hids⟩ := ih rest hrest
    refine ⟨List.forall_mem_cons.mpr ⟨⟨hraw, by simp [hx]⟩, hall⟩, ?_⟩
    rw [List.mapM_cons, hids]
    simp [Value.field, Value.asString, List.lookup_cons]

theorem isSome_rankedValue {v : List (List Char × T)}
    (h : ∀ p ∈ v, (utf8 p.1).any isRawControl = false ∧ (F.value p.2).isSome) :
    (rankedValue F v).isSome := by
  rw [rankedValue, Option.isSome_map]
  induction v with
  | nil => rfl
  | cons p v ih =>
    rw [List.forall_mem_cons] at h
    obtain ⟨x, hx⟩ := Option.isSome_iff_exists.mp h.1.2
    obtain ⟨entries, hentries⟩ := Option.isSome_iff_exists.mp (ih h.2)
    rw [List.mapM_cons, entry_values_iff.mpr ⟨h.1.1, x, hx, rfl⟩, hentries]
    rfl

def answerMembers (query : List Char) (bm25 : List (List Char × ℤ))
    (semantic hybrid : List (List Char × Binary32)) : Members :=
  [(['q', 'u', 'e', 'r', 'y'], quoted (escape query), (received (utf8 query)).map .string),
    (['b', 'm', '2', '5'], rankedText intScores bm25, rankedValue intScores bm25),
    (['s', 'e', 'm', 'a', 'n', 't', 'i', 'c'], rankedText floatScores semantic,
      rankedValue floatScores semantic),
    (['h', 'y', 'b', 'r', 'i', 'd'], rankedText floatScores hybrid,
      rankedValue floatScores hybrid)]

theorem parse_answerMembers (query : List Char) (bm25 : List (List Char × ℤ))
    (semantic hybrid : List (List Char × Binary32)) :
    parse (objectText (answerMembers query bm25 semantic hybrid).texts) =
      (answerMembers query bm25 semantic hybrid).values.map .object := by
  apply parse_object (d := 3)
  · intro m hm
    simp only [answerMembers, List.mem_cons, List.not_mem_nil, or_false] at hm
    rcases hm with rfl | rfl | rfl | rfl <;> exact isPlain_of_all rfl
  · intro m hm
    simp only [answerMembers, List.mem_cons, List.not_mem_nil, or_false] at hm
    rcases hm with rfl | rfl | rfl | rfl
    · exact fun n hn => reads_string (standsFor_escape query) n (by omega)
    · exact reads_ranked bm25
    · exact reads_ranked semantic
    · exact reads_ranked hybrid
  · simp [objectText, answerMembers, Members.texts, memberText, quoted]

theorem answer_values_iff {query : List Char} {bm25 : List (List Char × ℤ)}
    {semantic hybrid : List (List Char × Binary32)} {answer : Value} :
    (answerMembers query bm25 semantic hybrid).values.map Value.object = some answer ↔
      (utf8 query).any isRawControl = false ∧
      ∃ b s h, rankedValue intScores bm25 = some b ∧ rankedValue floatScores semantic = some s ∧
        rankedValue floatScores hybrid = some h ∧
        answer = .object [(['q', 'u', 'e', 'r', 'y'], .string query), (['b', 'm', '2', '5'], b),
          (['s', 'e', 'm', 'a', 'n', 't', 'i', 'c'], s), (['h', 'y', 'b', 'r', 'i', 'd'], h)] := by
  rcases hq : (utf8 query).any isRawControl with _ | _
  · have hsome := received_of_clean hq
    rcases hb : rankedValue intScores bm25 with _ | b
    · simp [answerMembers, Members.values, hb]
    rcases hs : rankedValue floatScores semantic with _ | s
    · simp [answerMembers, Members.values, hs]
    rcases hh : rankedValue floatScores hybrid with _ | h
    · simp [answerMembers, Members.values, hh]
    · simp [answerMembers, Members.values, hsome, hb, hs, hh, eq_comm]
  · have hnone := received_of_raw hq
    simp [answerMembers, Members.values, hnone]

theorem isSome_floatValue (x : Binary32) : (floatScores.value x).isSome = x.isFinite := by
  change (floatValue x).isSome = _
  unfold floatValue
  rcases x.isFinite with _ | _ <;> rfl

/-- A reader gets the answer if no string has a raw control character and all scores are
numbers. -/
theorem conveys_answerMembers_iff (query : List Char) (bm25 : List (List Char × ℤ))
    (semantic hybrid : List (List Char × Binary32)) :
    (∃ v, parse (objectText (answerMembers query bm25 semantic hybrid).texts) = some v ∧
      Conveys v (utf8 query) (bm25.map fun p => utf8 p.1) (semantic.map fun p => utf8 p.1)
        (hybrid.map fun p => utf8 p.1)) ↔
    (utf8 query).any isRawControl = false ∧
      (∀ p ∈ bm25, (utf8 p.1).any isRawControl = false) ∧
      (∀ p ∈ semantic, (utf8 p.1).any isRawControl = false ∧ p.2.isFinite) ∧
      ∀ p ∈ hybrid, (utf8 p.1).any isRawControl = false ∧ p.2.isFinite := by
  simp only [← isSome_floatValue]
  rw [parse_answerMembers]
  constructor
  · rintro ⟨v, hv, -⟩
    obtain ⟨hq, b, s, h, hb, hs, hh, -⟩ := answer_values_iff.mp hv
    exact ⟨hq, fun p hp => ((rankedValue_eq_some hb).1 p hp).1, (rankedValue_eq_some hs).1,
      (rankedValue_eq_some hh).1⟩
  · rintro ⟨hq, hb, hs, hh⟩
    obtain ⟨b, hb⟩ := Option.isSome_iff_exists.mp
      (isSome_rankedValue (F := intScores) fun p hp => ⟨hb p hp, rfl⟩)
    obtain ⟨s, hs⟩ := Option.isSome_iff_exists.mp (isSome_rankedValue hs)
    obtain ⟨h, hh⟩ := Option.isSome_iff_exists.mp (isSome_rankedValue hh)
    refine ⟨_, answer_values_iff.mpr ⟨hq, b, s, h, hb, hs, hh, rfl⟩, ?_, ?_, ?_, ?_⟩
    · simp [Value.field, Value.asString, List.lookup_cons]
    · simp [Value.field, List.lookup_cons, (rankedValue_eq_some hb).2]
    · simp [Value.field, List.lookup_cons, (rankedValue_eq_some hs).2]
    · simp [Value.field, (rankedValue_eq_some hh).2]

theorem exists_map_utf8 {v : List (Bytes × T)} (h : ∀ p ∈ v, (utf8Decode p.1).isSome) :
    ∃ v' : List (List Char × T), v = v'.map fun p => (utf8 p.1, p.2) := by
  induction v with
  | nil => exact ⟨[], rfl⟩
  | cons p v ih =>
    rw [List.forall_mem_cons] at h
    obtain ⟨cs, hcs⟩ := Option.isSome_iff_exists.mp h.1
    obtain ⟨v', rfl⟩ := ih h.2
    exact ⟨(cs, p.2) :: v', by rw [List.map_cons, ← utf8Decode_eq_some_iff.mp hcs]⟩

theorem map_fst_utf8 (v : List (List Char × T)) :
    (v.map fun p => (utf8 p.1, p.2)).map Prod.fst = v.map fun p => utf8 p.1 := List.map_map

theorem exists_joinTerms_utf8 {terms : List Bytes} (h : ∀ t ∈ terms, (utf8Decode t).isSome) :
    ∃ q, joinTerms terms = utf8 q := by
  obtain ⟨ts, hts⟩ := exists_map_utf8 (v := terms.map fun t => (t, ())) (by simpa using h)
  have hterms : terms = (ts.map Prod.fst).map utf8 := by
    have := congrArg (List.map Prod.fst) hts
    simpa [Function.comp_def] using this
  have hspace : [space] = utf8 [' '] := by decide
  exact ⟨_, by rw [joinTerms, hterms, hspace, intercalate_utf8]⟩

theorem any_joinTerms (terms : List Bytes) :
    (joinTerms terms).any isRawControl = terms.any (·.any isRawControl) := by
  rw [joinTerms]
  induction terms with
  | nil => rfl
  | cons t terms ih =>
    by_cases hterms : terms = []
    · simp [hterms]
    · have hspace : isRawControl space = false := by decide
      rw [List.intercalate_cons_of_ne_nil hterms, List.any_append, List.any_append, ih]
      simp [hspace]

theorem mem_parseTsv_iff {underflows : ℚ → Bool} {tsv : Bytes} {p : Bytes × Binary32} :
    p ∈ parseTsv underflows tsv ↔ ∃ line ∈ getlines newline tsv, ∃ f ∈ tsvFields line,
      f.1 = p.1 ∧ stof underflows f.2 = .ok p.2 := by
  have hstof : ∀ s x, (stof underflows s).toOption = some x ↔ stof underflows s = .ok x := by
    intro s x
    rcases stof underflows s with e | y <;> simp [Except.toOption]
  simp only [parseTsv, List.mem_filterMap, Option.bind_eq_some_iff, Option.map_eq_some_iff, hstof,
    Option.mem_def]
  constructor
  · rintro ⟨line, hline, f, hf, x, hx, rfl⟩
    exact ⟨line, hline, f, hf, rfl, hx⟩
  · rintro ⟨line, hline, f, hf, hid, hx⟩
    exact ⟨line, hline, f, hf, p.2, hx, Prod.ext hid rfl⟩

theorem forall_parseTsv_iff {underflows : ℚ → Bool} {tsv : Bytes} :
    (∀ p ∈ parseTsv underflows tsv, p.1.any isRawControl = false ∧ p.2.isFinite) ↔
      ∀ line ∈ getlines newline tsv, ∀ f ∈ tsvFields line, (stof underflows f.2).isOk →
        f.1.any isRawControl = false ∧ namesNonFinite f.2 = false := by
  constructor
  · intro h line hline f hf hok
    rcases hx : stof underflows f.2 with e | x
    · rw [hx] at hok
      cases hok
    · obtain ⟨hraw, hfin⟩ := h (f.1, x) (mem_parseTsv_iff.mpr ⟨line, hline, f, hf, rfl, hx⟩)
      rw [isFinite_of_stof hx, Bool.not_eq_true'] at hfin
      exact ⟨hraw, hfin⟩
  · intro h p hp
    obtain ⟨line, hline, f, hf, hid, hx⟩ := mem_parseTsv_iff.mp hp
    obtain ⟨hraw, hname⟩ := h line hline f hf (by rw [hx]; rfl)
    rw [isFinite_of_stof hx, hname, ← hid]
    exact ⟨hraw, rfl⟩

theorem searchJson_utf8 {merges : MergeOrders Binary32} {underflows : ℚ → Bool}
    {terms : List Bytes} {tsv : Bytes} {query : List Char} {bm25 : List (List Char × ℤ)}
    {semantic hybrid : List (List Char × Binary32)} (hquery : joinTerms terms = utf8 query)
    (hsemantic : parseTsv underflows tsv = semantic.map fun p => (utf8 p.1, p.2))
    (hhybrid : rrfMerge merges (bm25.map fun p => (utf8 p.1, p.2)) (parseTsv underflows tsv) =
      hybrid.map fun p => (utf8 p.1, p.2)) :
    searchJson merges underflows terms (bm25.map fun p => (utf8 p.1, p.2)) tsv =
      utf8 (objectText (answerMembers query bm25 semantic hybrid).texts) := by
  have hopen : text "\x7b\"query\":\"" =
        utf8 ['\x7b', '"', 'q', 'u', 'e', 'r', 'y', '"', ':', '"'] ∧
      text "\"," = utf8 ['"', ','] ∧ text "," = utf8 [','] ∧ text "\x7d" = utf8 ['\x7d'] :=
    ⟨text_ofList rfl, text_ofList rfl, text_ofList rfl, text_ofList rfl⟩
  have hnames : text "\"bm25\":" = utf8 ['"', 'b', 'm', '2', '5', '"', ':'] ∧
      text "\"semantic\":" = utf8 ['"', 's', 'e', 'm', 'a', 'n', 't', 'i', 'c', '"', ':'] ∧
      text "\"hybrid\":" = utf8 ['"', 'h', 'y', 'b', 'r', 'i', 'd', '"', ':'] :=
    ⟨text_ofList rfl, text_ofList rfl, text_ofList rfl⟩
  have hint := rankedToJson_utf8 (F := intScores) bm25
  have hfloat : ∀ v : List (List Char × Binary32),
      rankedToJson floatText (v.map fun p => (utf8 p.1, p.2)) = utf8 (rankedText floatScores v) :=
    rankedToJson_utf8 (F := floatScores)
  rw [searchJson, hquery, hhybrid, hsemantic, hfloat, hfloat, jsonStr_utf8, hopen.1, hopen.2.1,
    hopen.2.2.1, hopen.2.2.2, hnames.1, hnames.2.1, hnames.2.2]
  rw [show rankedToJson intText (bm25.map fun p => (utf8 p.1, p.2)) = _ from hint]
  simp only [← utf8_append]
  simp [answerMembers, Members.texts, memberText, objectText, quoted]

theorem not_conveys_error {v : Value}
    (hv : jsonValue (text "\x7b\"error\":\"empty query\"\x7d") = some v)
    {query : Bytes} {bm25 semantic hybrid : List Bytes} :
    ¬ Conveys v query bm25 semantic hybrid := by
  have hfield : ((jsonValue (text "\x7b\"error\":\"empty query\"\x7d")).bind fun v =>
      v.field ['q', 'u', 'e', 'r', 'y']).isNone := by decide +kernel
  rw [hv, Option.bind_some, Option.isNone_iff_eq_none] at hfield
  intro h
  have hquery := h.query
  rw [hfield] at hquery
  cases hquery

/-- The answer to a search is JSON, and a reader gets the terms and the three lists from it, if and
only if there is a term, no term and no id has a control character that is not escaped, and no
score that the service returns is infinite or no number. -/
theorem apiSearch_conveys_iff (merges : MergeOrders Binary32) (underflows : ℚ → Bool)
    (query : Bytes) (bm25 : List (Bytes × ℤ)) (tsv : Bytes)
    (hterms : ∀ t ∈ splitTerms query, (utf8Decode t).isSome)
    (hbm25 : ∀ p ∈ bm25, (utf8Decode p.1).isSome)
    (htsv : ∀ p ∈ parseTsv underflows tsv, (utf8Decode p.1).isSome) :
    (∃ v, jsonValue (apiSearch merges underflows query bm25 tsv) = some v ∧
      Conveys v (joinTerms (splitTerms query)) (bm25.map Prod.fst)
        ((parseTsv underflows tsv).map Prod.fst)
        ((rrfMerge merges bm25 (parseTsv underflows tsv)).map Prod.fst)) ↔
    splitTerms query ≠ [] ∧ (∀ t ∈ splitTerms query, t.any isRawControl = false) ∧
      (∀ p ∈ bm25, p.1.any isRawControl = false) ∧
      ∀ line ∈ getlines newline tsv, ∀ f ∈ tsvFields line, (stof underflows f.2).isOk →
        f.1.any isRawControl = false ∧ namesNonFinite f.2 = false := by
  rw [apiSearch]
  split_ifs with hnil
  · exact iff_of_false (fun ⟨v, hv, h⟩ => not_conveys_error hv h) fun h => h.1 hnil
  obtain ⟨q, hq⟩ := exists_joinTerms_utf8 hterms
  obtain ⟨b, hb⟩ := exists_map_utf8 hbm25
  obtain ⟨s, hs⟩ := exists_map_utf8 htsv
  obtain ⟨m, hm⟩ := exists_map_utf8 (v := rrfMerge merges bm25 (parseTsv underflows tsv))
    (forall_ids_rrfMerge (P := fun id => (utf8Decode id).isSome) hbm25 htsv)
  have hbody : searchJson merges underflows (splitTerms query) bm25 tsv =
      utf8 (objectText (answerMembers q b s m).texts) := by
    rw [hb]
    exact searchJson_utf8 hq hs (hb ▸ hm)
  have hvalue : jsonValue (utf8 (objectText (answerMembers q b s m).texts)) =
      parse (objectText (answerMembers q b s m).texts) := by
    rw [jsonValue, utf8Decode_utf8, Option.bind_some]
  have hraw : (∀ t ∈ splitTerms query, t.any isRawControl = false) ↔
      (utf8 q).any isRawControl = false := by
    rw [← hq, any_joinTerms, List.any_eq_false]
    simp only [Bool.not_eq_true]
  have hlists : bm25.map Prod.fst = (b.map fun p => utf8 p.1) ∧
      (parseTsv underflows tsv).map Prod.fst = (s.map fun p => utf8 p.1) ∧
      (rrfMerge merges bm25 (parseTsv underflows tsv)).map Prod.fst = m.map fun p => utf8 p.1 := by
    refine ⟨?_, ?_, ?_⟩
    · rw [hb, map_fst_utf8]
    · rw [hs, map_fst_utf8]
    · rw [hm, map_fst_utf8]
  rw [hbody, hvalue, hlists.1, hlists.2.1, hlists.2.2, hq, conveys_answerMembers_iff,
    ← forall_parseTsv_iff, hraw]
  constructor
  · rintro ⟨hq, hbm25, htsv, -⟩
    refine ⟨hnil, hq, ?_, ?_⟩
    · rwa [hb, List.forall_mem_map]
    · rwa [hs, List.forall_mem_map]
  · rintro ⟨-, hq, hbm25, htsv⟩
    have hmerged : ∀ p ∈ rrfMerge merges bm25 (parseTsv underflows tsv),
        p.1.any isRawControl = false ∧ p.2.isFinite := fun p hp =>
      ⟨forall_ids_rrfMerge (P := fun id => id.any isRawControl = false) hbm25
        (fun p hp => (htsv p hp).1) p hp, isFinite_of_mem_rrfMerge hp⟩
    refine ⟨hq, ?_, ?_, ?_⟩
    · rwa [hb, List.forall_mem_map] at hbm25
    · rwa [hs, List.forall_mem_map] at htsv
    · rwa [hm, List.forall_mem_map] at hmerged

/-- A control character in the query or in an id, or a score that is no number, and the answer is
no JSON. -/
theorem apiSearch_not_json :
    (∀ t ∈ splitTerms (text "q=\x01"), (utf8Decode t).isSome) ∧
    (jsonValue (apiSearch .byKey (fun _ => false) (text "q=\x01") [] [])).isNone ∧
    (utf8Decode (text "root/\x01")).isSome ∧
    (jsonValue (apiSearch .byKey (fun _ => false) (text "q=hat") [(text "root/\x01", 1)]
      [])).isNone ∧
    (∀ p ∈ parseTsv (fun _ => false) (text "root/a\tinf"), (utf8Decode p.1).isSome) ∧
    (jsonValue (apiSearch .byKey (fun _ => false) (text "q=hat") []
      (text "root/a\tinf"))).isNone := by
  refine ⟨?_, ?_, ?_, ?_, ?_, ?_⟩ <;> decide +kernel

theorem apiSearch_conveys_hat :
    ∃ v, jsonValue (apiSearch .byKey (fun _ => false) (text "q=hat") [(text "root/a", 2)]
        (text "root/b\t0.81")) = some v ∧
      Conveys v (text "hat") [text "root/a"] [text "root/b"]
        ((rrfMerge .byKey [(text "root/a", 2)]
          (parseTsv (fun _ => false) (text "root/b\t0.81"))).map Prod.fst) := by
  have hquery : joinTerms (splitTerms (text "q=hat")) = text "hat" := by decide +kernel
  have htsv : (parseTsv (fun _ => false) (text "root/b\t0.81")).map Prod.fst = [text "root/b"] := by
    decide +kernel
  have h := (apiSearch_conveys_iff .byKey (fun _ => false) (text "q=hat") [(text "root/a", 2)]
    (text "root/b\t0.81") (by decide +kernel) (by decide +kernel) (by decide +kernel)).mpr
    ⟨by decide +kernel, by decide +kernel, by decide +kernel, by decide +kernel⟩
  rwa [hquery, htsv] at h

end SemanticSearch
