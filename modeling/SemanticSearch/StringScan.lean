import SemanticSearch.EmbedMessages
import SemanticSearch.SearchBody

namespace SemanticSearch

open Json EmbedService

def quote : Byte := 34
def backslash : Byte := 92

/-- What stands behind an opening quote: the bytes up to the first quote that is not escaped, and
what follows it. A backslash and the next byte are one escape. -/
def scanString : Bytes → Option (Bytes × Bytes)
  | 34 :: s => some ([], s)
  | 92 :: d :: s => (scanString s).map fun p => (92 :: d :: p.1, p.2)
  | c :: s => (scanString s).map fun p => (c :: p.1, p.2)
  | [] => none

/-- The byte that is escaped by a letter, or by itself. -/
def unescapeByte (d : Byte) : Byte :=
  if d = 110 then 10 else if d = 114 then 13 else if d = 116 then 9 else d

def unescapeString : Bytes → Bytes
  | 92 :: d :: s => unescapeByte d :: unescapeString s
  | c :: s => c :: unescapeString s
  | [] => []

variable {c : Byte} {s t : Bytes}

theorem scanString_cons (h1 : c ≠ quote) (h2 : c ≠ backslash) (s : Bytes) :
    scanString (c :: s) = (scanString s).map fun p => (c :: p.1, p.2) := by
  rw [scanString]
  · exact h1
  · exact fun _ _ h _ => h2 h

theorem unescapeString_cons (h : c ≠ backslash) (s : Bytes) :
    unescapeString (c :: s) = c :: unescapeString s := by
  rw [unescapeString]
  exact fun _ _ hc _ => h hc

theorem jsonByte_cases (c : Byte) :
    (jsonByte c = [c] ∧ c ≠ quote ∧ c ≠ backslash) ∨
      ∃ d, jsonByte c = [backslash, d] ∧ unescapeByte d = c := by
  by_cases hc : IsEscaped c
  · right
    rcases hc with rfl | rfl | rfl | rfl | rfl
    · exact ⟨34, by decide, by decide⟩
    · exact ⟨92, by decide, by decide⟩
    · exact ⟨110, by decide, by decide⟩
    · exact ⟨114, by decide, by decide⟩
    · exact ⟨116, by decide, by decide⟩
  · left
    have hne : ∀ d, IsEscaped d → c ≠ d := by
      rintro d hd rfl
      exact hc hd
    exact ⟨jsonByte_of_not hc, hne quote (Or.inl rfl), hne backslash (Or.inr (Or.inl rfl))⟩

theorem scanString_flatMap (s t : Bytes) :
    scanString (s.flatMap jsonByte ++ quote :: t) = some (s.flatMap jsonByte, t) := by
  induction s with
  | nil => rfl
  | cons c s ih =>
    rw [List.flatMap_cons, List.append_assoc]
    rcases jsonByte_cases c with ⟨hbyte, h1, h2⟩ | ⟨d, hbyte, -⟩
    · rw [hbyte, List.singleton_append, scanString_cons h1 h2, ih]
      rfl
    · rw [hbyte, List.cons_append, List.singleton_append]
      change (scanString _).map _ = _
      rw [ih]
      rfl

theorem unescapeString_flatMap (s : Bytes) : unescapeString (s.flatMap jsonByte) = s := by
  induction s with
  | nil => rfl
  | cons c s ih =>
    rw [List.flatMap_cons]
    rcases jsonByte_cases c with ⟨hbyte, -, h2⟩ | ⟨d, hbyte, hd⟩
    · rw [hbyte, List.singleton_append, unescapeString_cons h2, ih]
    · rw [hbyte, List.cons_append, List.singleton_append]
      change unescapeByte d :: unescapeString _ = _
      rw [ih, hd]

theorem length_scanString {p : Bytes × Bytes} (h : scanString s = some p) :
    p.2.length < s.length := by
  fun_induction scanString s generalizing p with
  | case1 s =>
    obtain rfl := Option.some.inj h
    exact Nat.lt_succ_self _
  | case2 d s ih =>
    obtain ⟨q, hq, rfl⟩ := Option.map_eq_some_iff.mp h
    have hlt := ih hq
    simp only [List.length_cons]
    omega
  | case3 c s _ _ ih =>
    obtain ⟨q, hq, rfl⟩ := Option.map_eq_some_iff.mp h
    have hlt := ih hq
    simp only [List.length_cons]
    omega
  | case4 => cases h

/-- What a reader sees: the texts of the strings, and every other byte. -/
inductive Token
  | str (s : Bytes)
  | byte (c : Byte)
  deriving DecidableEq, Repr

/-- The tokens of a message, or nothing when a string does not end. -/
def tokens : Bytes → Option (List Token)
  | [] => some []
  | c :: s =>
    if c = quote then
      match _h : scanString s with
      | none => none
      | some p => (tokens p.2).map (.str (unescapeString p.1) :: ·)
    else (tokens s).map (.byte c :: ·)
termination_by s => s.length
decreasing_by
  · exact (length_scanString _h).trans (Nat.lt_succ_self _)
  · exact Nat.lt_succ_self _

theorem tokens_string (s t : Bytes) :
    tokens (quote :: (s.flatMap jsonByte ++ quote :: t)) = (tokens t).map (.str s :: ·) := by
  rw [tokens, if_pos rfl]
  split
  · rename_i h
    rw [scanString_flatMap] at h
    cases h
  · rename_i p h
    rw [scanString_flatMap] at h
    obtain rfl := Option.some.inj h
    rw [unescapeString_flatMap]

theorem tokens_append (h : quote ∉ s) (t : Bytes) :
    tokens (s ++ t) = (tokens t).map (s.map .byte ++ ·) := by
  induction s with
  | nil => simp
  | cons c s ih =>
    rw [List.mem_cons, not_or] at h
    rw [List.cons_append, tokens, if_neg (Ne.symm h.1), ih h.2, Option.map_map]
    rfl

/-- Whatever follows, a reader takes `w` for the tokens `ts`. -/
def Writes (w : Bytes) (ts : List Token) : Prop :=
  ∀ t, tokens (w ++ t) = (tokens t).map (ts ++ ·)

theorem Writes.tokens_eq {w : Bytes} {ts : List Token} (h : Writes w ts) : tokens w = some ts := by
  have hend := h []
  rwa [List.append_nil, tokens, Option.map_some, List.append_nil] at hend

theorem writes_nil : Writes [] [] := by
  intro t
  simp

theorem Writes.append {v w : Bytes} {ts us : List Token} (hv : Writes v ts) (hw : Writes w us) :
    Writes (v ++ w) (ts ++ us) := by
  intro t
  rw [List.append_assoc, hv, hw, Option.map_map]
  congr 1
  funext l
  simp

theorem writes_fixed (h : quote ∉ s) : Writes s (s.map .byte) := tokens_append h

theorem Writes.intercalate {α : Type} {sep : Bytes} {seps : List Token} (hsep : Writes sep seps)
    {l : List α} {w : α → Bytes} {ts : α → List Token} (h : ∀ x ∈ l, Writes (w x) (ts x)) :
    Writes (sep.intercalate (l.map w)) (seps.intercalate (l.map ts)) := by
  induction l with
  | nil => exact writes_nil
  | cons x l ih =>
    rw [List.forall_mem_cons] at h
    cases l with
    | nil => simpa using h.1
    | cons y l =>
      simp only [List.map_cons, List.intercalate_cons_cons] at ih ⊢
      exact (h.1.append hsep).append (ih h.2)

def stringBytes (s : Bytes) : Bytes := quote :: (jsonStr s ++ [quote])

theorem writes_string (s : Bytes) : Writes (stringBytes s) [.str s] := by
  intro t
  have h := tokens_string s t
  rwa [List.append_cons, ← List.cons_append] at h

def objectBytes (members : List (Bytes × Bytes)) : Bytes :=
  text "\x7b" ++ (text ",").intercalate (members.map fun m => stringBytes m.1 ++ text ":" ++ m.2) ++
    text "\x7d"

def objectTokens (members : List (Bytes × List Token)) : List Token :=
  (text "\x7b").map .byte ++ ((text ",").map Token.byte).intercalate
    (members.map fun m => .str m.1 :: (text ":").map .byte ++ m.2) ++ (text "\x7d").map .byte

def arrayBytes (items : List Bytes) : Bytes :=
  text "[" ++ (text ",").intercalate items ++ text "]"

def arrayTokens (items : List (List Token)) : List Token :=
  (text "[").map .byte ++ ((text ",").map Token.byte).intercalate items ++ (text "]").map .byte

theorem writes_object {members : List (Bytes × Bytes × List Token)}
    (h : ∀ m ∈ members, Writes m.2.1 m.2.2) :
    Writes (objectBytes (members.map fun m => (m.1, m.2.1)))
      (objectTokens (members.map fun m => (m.1, m.2.2))) := by
  rw [objectBytes, objectTokens, List.map_map, List.map_map]
  have hcomma : Writes (text ",") ((text ",").map .byte) := writes_fixed (by decide)
  refine ((writes_fixed (by decide)).append (hcomma.intercalate fun m hm => ?_)).append
    (writes_fixed (by decide))
  exact ((writes_string m.1).append (writes_fixed (by decide))).append (h m hm)

theorem writes_array {α : Type} {l : List α} {w : α → Bytes} {ts : α → List Token}
    (h : ∀ x ∈ l, Writes (w x) (ts x)) : Writes (arrayBytes (l.map w)) (arrayTokens (l.map ts)) := by
  have hcomma : Writes (text ",") ((text ",").map .byte) := writes_fixed (by decide)
  exact ((writes_fixed (by decide)).append (hcomma.intercalate h)).append (writes_fixed (by decide))

/-- The body that `VectorClient::Search` posts. -/
def searchBody (query : Bytes) (k : ℤ) : Bytes :=
  text "\x7b\"query\":\"" ++ jsonEscape query ++ text "\",\"k\":" ++ utf8 (intText k) ++ text "\x7d"

/-- The body that `VectorClient::Ask` posts. -/
def questionBody (question : Bytes) (k : ℤ) : Bytes :=
  text "\x7b\"question\":\"" ++ jsonEscape question ++ text "\",\"k\":" ++ utf8 (intText k) ++
    text "\x7d"

def answerJson (answer : Bytes) (sources : List Bytes) : Bytes :=
  text "\x7b\"answer\":\"" ++ jsonStr answer ++ text "\",\"sources\":[" ++
    (text ",").intercalate (sources.map fun source => text "\"" ++ jsonStr source ++ text "\"") ++
    text "]\x7d"

theorem quote_notMem_number {lit : List Char} (h : IsNumber lit) : quote ∉ utf8 lit := by
  have hdigit : ∀ ds : List Char, IsDigits ds → '"' ∉ ds := by
    intro ds hds hmem
    exact absurd (hds.2 _ hmem) (by decide)
  have hquote : quote = UInt8.ofNat '"'.toNat := rfl
  rw [hquote, mem_utf8_iff (by decide)]
  obtain ⟨minus, int, frac, exp, hminus, hint, hfrac, hexp, rfl⟩ := h
  have h1 : '"' ∉ minus := by rcases hminus with rfl | rfl <;> decide
  have h2 : '"' ∉ frac := by
    rcases hfrac with rfl | ⟨ds, hds, rfl⟩
    · exact List.not_mem_nil
    · simpa using hdigit ds hds
  have h3 : '"' ∉ exp := by
    rcases hexp with rfl | ⟨sign, ds, hsign, hds, rfl⟩
    · exact List.not_mem_nil
    · have hne : '"' ≠ sign := by rcases hsign with rfl | rfl <;> decide
      simpa [hne] using hdigit ds hds
  simp [h1, h2, h3, hdigit int hint.1]

theorem quote_notMem_intText (n : ℤ) : quote ∉ utf8 (intText n) :=
  quote_notMem_number (isNumber_intText n)

theorem quote_notMem_floatText (x : Binary32) : quote ∉ utf8 (floatText x) := by
  rcases x with ⟨neg, x⟩ | neg | neg
  · exact quote_notMem_number (isNumber_magnitudeText x.2.nonneg (signText_cases neg))
  · cases neg <;> decide
  · cases neg <;> decide

theorem objectBytes_pair (a v b w : Bytes) :
    objectBytes [(a, v), (b, w)] = text "\x7b" ++ stringBytes a ++ text ":" ++ v ++ text "," ++
      stringBytes b ++ text ":" ++ w ++ text "\x7d" := by
  rw [objectBytes, List.map_cons, List.map_singleton, List.intercalate_cons_cons,
    List.intercalate_singleton]
  simp only [List.append_assoc]

theorem text_id : text "\x7b\"id\":\"" =
    text "\x7b" ++ stringBytes (text "id") ++ text ":" ++ [quote] := by decide

theorem text_query : text "\x7b\"query\":\"" =
    text "\x7b" ++ stringBytes (text "query") ++ text ":" ++ [quote] := by decide

theorem text_k : text "\",\"k\":" =
    [quote] ++ text "," ++ stringBytes (text "k") ++ text ":" := by decide

theorem addBody_eq (docId content : Bytes) :
    addBody docId content = objectBytes [(text "id", stringBytes docId),
      (text "text", stringBytes (content.take EmbedConfig.kTextLimit))] := by
  have htext : text "\",\"text\":\"" =
      [quote] ++ text "," ++ stringBytes (text "text") ++ text ":" ++ [quote] := by decide
  have hend : text "\"\x7d" = [quote] ++ text "\x7d" := by decide
  rw [addBody, objectBytes_pair, text_id, htext, hend]
  simp [stringBytes, jsonEscape, jsonStr]

theorem searchBody_eq (query : Bytes) (k : ℤ) :
    searchBody query k = objectBytes [(text "query", stringBytes query),
      (text "k", utf8 (intText k))] := by
  rw [searchBody, objectBytes_pair, text_query, text_k]
  simp [stringBytes, jsonEscape, jsonStr]

theorem questionBody_eq (question : Bytes) (k : ℤ) :
    questionBody question k = objectBytes [(text "question", stringBytes question),
      (text "k", utf8 (intText k))] := by
  have hquestion : text "\x7b\"question\":\"" =
      text "\x7b" ++ stringBytes (text "question") ++ text ":" ++ [quote] := by decide
  rw [questionBody, objectBytes_pair, hquestion, text_k]
  simp [stringBytes, jsonEscape, jsonStr]

theorem answerJson_eq (answer : Bytes) (sources : List Bytes) :
    answerJson answer sources = objectBytes [(text "answer", stringBytes answer),
      (text "sources", arrayBytes (sources.map stringBytes))] := by
  have hanswer : text "\x7b\"answer\":\"" =
      text "\x7b" ++ stringBytes (text "answer") ++ text ":" ++ [quote] := by decide
  have hsources : text "\",\"sources\":[" =
      [quote] ++ text "," ++ stringBytes (text "sources") ++ text ":" ++ text "[" := by decide
  have hend : text "]\x7d" = text "]" ++ text "\x7d" := by decide
  have hitem : (fun source => text "\"" ++ jsonStr source ++ text "\"") = stringBytes := rfl
  rw [answerJson, objectBytes_pair, hanswer, hsources, hend, hitem, arrayBytes]
  simp [stringBytes]

theorem rankedToJson_eq {T : Type} (print : T → List Char) (v : List (Bytes × T)) :
    rankedToJson print v = arrayBytes (v.map fun p => objectBytes [(text "id", stringBytes p.1),
      (text "score", utf8 (print p.2))]) := by
  have hscore : text "\",\"score\":" =
      [quote] ++ text "," ++ stringBytes (text "score") ++ text ":" := by decide
  rw [rankedToJson, arrayBytes]
  simp only [objectBytes_pair, text_id, hscore]
  simp [stringBytes]

def rankedTokens {T : Type} (print : T → List Char) (v : List (Bytes × T)) : List Token :=
  arrayTokens (v.map fun p => objectTokens [(text "id", [.str p.1]),
    (text "score", (utf8 (print p.2)).map .byte)])

theorem writes_rankedToJson {T : Type} {print : T → List Char}
    (hprint : ∀ x, quote ∉ utf8 (print x)) (v : List (Bytes × T)) :
    Writes (rankedToJson print v) (rankedTokens print v) := by
  rw [rankedToJson_eq]
  apply writes_array
  intro p _
  refine @writes_object [(text "id", stringBytes p.1, [.str p.1]),
    (text "score", utf8 (print p.2), (utf8 (print p.2)).map .byte)] ?_
  simp [writes_string, writes_fixed (hprint p.2)]

theorem searchJson_eq (merges : MergeOrders Binary32) (underflows : ℚ → Bool)
    (terms : List Bytes) (bm25 : List (Bytes × ℤ)) (tsv : Bytes) :
    searchJson merges underflows terms bm25 tsv =
      objectBytes [(text "query", stringBytes (joinTerms terms)),
        (text "bm25", rankedToJson intText bm25),
        (text "semantic", rankedToJson floatText (parseTsv underflows tsv)),
        (text "hybrid", rankedToJson floatText (rrfMerge merges bm25 (parseTsv underflows tsv)))] := by
  have hcomma : text "\"," = [quote] ++ text "," := by decide
  have hlists : text "\"bm25\":" = stringBytes (text "bm25") ++ text ":" ∧
      text "\"semantic\":" = stringBytes (text "semantic") ++ text ":" ∧
      text "\"hybrid\":" = stringBytes (text "hybrid") ++ text ":" := by decide
  rw [searchJson, text_query, hcomma, hlists.1, hlists.2.1, hlists.2.2]
  simp [objectBytes, stringBytes]

theorem writes_addBody (docId content : Bytes) :
    Writes (addBody docId content) (objectTokens [(text "id", [.str docId]),
      (text "text", [.str (content.take EmbedConfig.kTextLimit)])]) := by
  rw [addBody_eq]
  refine @writes_object [(text "id", stringBytes docId, [.str docId]),
    (text "text", stringBytes (content.take EmbedConfig.kTextLimit),
      [.str (content.take EmbedConfig.kTextLimit)])] ?_
  simp [writes_string]

theorem writes_searchBody (query : Bytes) (k : ℤ) :
    Writes (searchBody query k) (objectTokens [(text "query", [.str query]),
      (text "k", (utf8 (intText k)).map .byte)]) := by
  rw [searchBody_eq]
  refine @writes_object [(text "query", stringBytes query, [.str query]),
    (text "k", utf8 (intText k), (utf8 (intText k)).map .byte)] ?_
  simp [writes_string, writes_fixed (quote_notMem_intText k)]

theorem writes_questionBody (question : Bytes) (k : ℤ) :
    Writes (questionBody question k) (objectTokens [(text "question", [.str question]),
      (text "k", (utf8 (intText k)).map .byte)]) := by
  rw [questionBody_eq]
  refine @writes_object [(text "question", stringBytes question, [.str question]),
    (text "k", utf8 (intText k), (utf8 (intText k)).map .byte)] ?_
  simp [writes_string, writes_fixed (quote_notMem_intText k)]

theorem writes_answerJson (answer : Bytes) (sources : List Bytes) :
    Writes (answerJson answer sources) (objectTokens [(text "answer", [.str answer]),
      (text "sources", arrayTokens (sources.map fun source => [.str source]))]) := by
  rw [answerJson_eq]
  refine @writes_object [(text "answer", stringBytes answer, [.str answer]),
    (text "sources", arrayBytes (sources.map stringBytes),
      arrayTokens (sources.map fun source => [.str source]))] ?_
  simp [writes_string, writes_array fun source _ => writes_string source]

theorem writes_searchJson (merges : MergeOrders Binary32) (underflows : ℚ → Bool)
    (terms : List Bytes) (bm25 : List (Bytes × ℤ)) (tsv : Bytes) :
    Writes (searchJson merges underflows terms bm25 tsv)
      (objectTokens [(text "query", [.str (joinTerms terms)]),
        (text "bm25", rankedTokens intText bm25),
        (text "semantic", rankedTokens floatText (parseTsv underflows tsv)),
        (text "hybrid",
          rankedTokens floatText (rrfMerge merges bm25 (parseTsv underflows tsv)))]) := by
  rw [searchJson_eq]
  refine @writes_object [(text "query", stringBytes (joinTerms terms), [.str (joinTerms terms)]),
    (text "bm25", rankedToJson intText bm25, rankedTokens intText bm25),
    (text "semantic", rankedToJson floatText (parseTsv underflows tsv),
      rankedTokens floatText (parseTsv underflows tsv)),
    (text "hybrid", rankedToJson floatText (rrfMerge merges bm25 (parseTsv underflows tsv)),
      rankedTokens floatText (rrfMerge merges bm25 (parseTsv underflows tsv)))] ?_
  simp [writes_string, writes_rankedToJson quote_notMem_intText,
    writes_rankedToJson quote_notMem_floatText]

/-- **The end of a string.** Behind an opening quote a reader consumes what was written for `s` and
the closing quote, and finds `s` in it, whatever `s` is and whatever follows. So it sees the members
that were written in each message, and each text as one string. -/
theorem json_strings_closed :
    (∀ s t, scanString (jsonStr s ++ quote :: t) = some (jsonStr s, t) ∧
      unescapeString (jsonStr s) = s) ∧
    (∀ s t, scanString (jsonEscape s ++ quote :: t) = some (jsonEscape s, t) ∧
      unescapeString (jsonEscape s) = s) ∧
    (∀ docId content, tokens (addBody docId content) = some (objectTokens
      [(text "id", [.str docId]),
        (text "text", [.str (content.take EmbedConfig.kTextLimit)])])) ∧
    (∀ query k, tokens (searchBody query k) = some (objectTokens
      [(text "query", [.str query]), (text "k", (utf8 (intText k)).map .byte)])) ∧
    (∀ question k, tokens (questionBody question k) = some (objectTokens
      [(text "question", [.str question]), (text "k", (utf8 (intText k)).map .byte)])) ∧
    (∀ answer sources, tokens (answerJson answer sources) = some (objectTokens
      [(text "answer", [.str answer]),
        (text "sources", arrayTokens (sources.map fun source => [.str source]))])) ∧
    ∀ merges underflows terms bm25 tsv,
      tokens (searchJson merges underflows terms bm25 tsv) = some (objectTokens
        [(text "query", [.str (joinTerms terms)]), (text "bm25", rankedTokens intText bm25),
          (text "semantic", rankedTokens floatText (parseTsv underflows tsv)),
          (text "hybrid",
            rankedTokens floatText (rrfMerge merges bm25 (parseTsv underflows tsv)))]) := by
  refine ⟨fun s t => ?_, fun s t => ?_, fun docId content => ?_, fun query k => ?_,
    fun question k => ?_, fun answer sources => ?_, fun merges underflows terms bm25 tsv => ?_⟩
  · exact ⟨scanString_flatMap s t, unescapeString_flatMap s⟩
  · exact ⟨scanString_flatMap s t, unescapeString_flatMap s⟩
  · exact (writes_addBody docId content).tokens_eq
  · exact (writes_searchBody query k).tokens_eq
  · exact (writes_questionBody question k).tokens_eq
  · exact (writes_answerJson answer sources).tokens_eq
  · exact (writes_searchJson merges underflows terms bm25 tsv).tokens_eq

end SemanticSearch
