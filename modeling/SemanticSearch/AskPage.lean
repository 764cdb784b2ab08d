import SemanticSearch.SearchMessages

namespace SemanticSearch

open FileSystem Json

def textsOf (list : Value) : Option (List (List Char)) :=
  list.asArray.bind (·.mapM Value.asString)

structure ConveysAnswer (v : Value) (answer : Bytes) (sources : List Bytes) : Prop where
  answer : ((v.field ['a', 'n', 's', 'w', 'e', 'r']).bind Value.asString).map utf8 = some answer
  sources : ((v.field ['s', 'o', 'u', 'r', 'c', 'e', 's']).bind textsOf).map (·.map utf8) =
    some sources

def textsText (ts : List (List Char)) : List Char := arrayText (ts.map fun t => quoted (escape t))

def textsValue (ts : List (List Char)) : Option Value :=
  (ts.mapM fun t => (received (utf8 t)).map Value.string).map .array

def askMembers (answer : List Char) (sources : List (List Char)) : Members :=
  [(['a', 'n', 's', 'w', 'e', 'r'], quoted (escape answer), (received (utf8 answer)).map .string),
    (['s', 'o', 'u', 'r', 'c', 'e', 's'], textsText sources, textsValue sources)]

theorem reads_texts (ts : List (List Char)) : Reads 2 (textsText ts) (textsValue ts) := by
  set items := ts.map fun t => (quoted (escape t), (received (utf8 t)).map Value.string) with hitems
  have hreads : ∀ p ∈ items, Reads 1 p.1 p.2 := by
    intro p hp
    obtain ⟨t, -, rfl⟩ := List.mem_map.mp hp
    exact reads_string (standsFor_escape t)
  have hopen : ∀ p ∈ items, Opens p.1 := by
    intro p hp
    obtain ⟨t, -, rfl⟩ := List.mem_map.mp hp
    exact opens_quote _
  have harray := reads_array hreads hopen
  rw [hitems, List.map_map, List.mapM_map] at harray
  exact harray

theorem parse_askMembers (answer : List Char) (sources : List (List Char)) :
    parse (objectText (askMembers answer sources).texts) =
      (askMembers answer sources).values.map .object := by
  apply parse_object (d := 2)
  · intro m hm
    simp only [askMembers, List.mem_cons, List.not_mem_nil, or_false] at hm
    rcases hm with rfl | rfl <;> exact isPlain_of_all rfl
  · intro m hm
    simp only [askMembers, List.mem_cons, List.not_mem_nil, or_false] at hm
    rcases hm with rfl | rfl
    · exact fun n hn => reads_string (standsFor_escape answer) n (by omega)
    · exact reads_texts sources
  · simp [objectText, askMembers, Members.texts, memberText, quoted]

theorem answerJson_utf8 (answer : List Char) (sources : List (List Char)) :
    answerJson (utf8 answer) (sources.map utf8) =
      utf8 (objectText (askMembers answer sources).texts) := by
  have h1 : text "\x7b\"answer\":\"" =
      utf8 ['\x7b', '"', 'a', 'n', 's', 'w', 'e', 'r', '"', ':', '"'] := text_ofList rfl
  have h2 : text "\",\"sources\":[" =
      utf8 ['"', ',', '"', 's', 'o', 'u', 'r', 'c', 'e', 's', '"', ':', '['] := text_ofList rfl
  have h3 : text "," = utf8 [','] ∧ text "\"" = utf8 ['"'] ∧ text "]\x7d" = utf8 [']', '\x7d'] :=
    ⟨text_ofList rfl, text_ofList rfl, text_ofList rfl⟩
  have hitem : ((fun source : Bytes => text "\"" ++ jsonStr source ++ text "\"") ∘ utf8) =
      fun t => utf8 (quoted (escape t)) := by
    funext t
    rw [Function.comp, h3.2.1, jsonStr_utf8, ← utf8_append, ← utf8_append]
    rfl
  rw [answerJson, List.map_map, hitem, ← Function.comp_def utf8, ← List.map_map, h1, h2, h3.1,
    h3.2.2, jsonStr_utf8, intercalate_utf8]
  simp only [← utf8_append]
  simp [askMembers, Members.texts, memberText, objectText, quoted, textsText, arrayText]

theorem textsValue_eq_some {ts : List (List Char)} {list : Value} (h : textsValue ts = some list) :
    (∀ t ∈ ts, received (utf8 t) = some t) ∧ textsOf list = some ts := by
  obtain ⟨items, hitems, rfl⟩ := Option.map_eq_some_iff.mp h
  have htexts : textsOf (.array items) = items.mapM Value.asString := rfl
  rw [htexts]
  clear h htexts
  induction ts generalizing items with
  | nil =>
    obtain rfl : [] = items := Option.some.inj hitems
    exact ⟨by simp, rfl⟩
  | cons t ts ih =>
    rw [List.mapM_cons] at hitems
    simp only [Option.bind_eq_bind, Option.bind_eq_some_iff, Option.map_eq_some_iff,
      Option.pure_def, Option.some.injEq] at hitems
    obtain ⟨_, ⟨u, hu, rfl⟩, rest, hrest, rfl⟩ := hitems
    obtain rfl : u = t := utf8_injective (VectorClient.utf8_of_received hu)
    obtain ⟨hall, htexts⟩ := ih rest hrest
    refine ⟨List.forall_mem_cons.mpr ⟨hu, hall⟩, ?_⟩
    rw [List.mapM_cons, htexts]
    rfl

theorem isSome_textsValue {ts : List (List Char)} (h : ∀ t ∈ ts, (received (utf8 t)).isSome) :
    (textsValue ts).isSome := by
  rw [textsValue, Option.isSome_map]
  induction ts with
  | nil => rfl
  | cons t ts ih =>
    rw [List.forall_mem_cons] at h
    obtain ⟨u, hu⟩ := Option.isSome_iff_exists.mp h.1
    obtain ⟨items, hitems⟩ := Option.isSome_iff_exists.mp (ih h.2)
    rw [List.mapM_cons, hu, hitems]
    rfl

theorem answerJson_conveys_iff (answer : Bytes) (sources : List Bytes) :
    (∃ v, jsonValue (answerJson answer sources) = some v ∧ ConveysAnswer v answer sources) ↔
      (received answer).isSome ∧ ∀ source ∈ sources, (received source).isSome := by
  have hvalue : ∀ a ts, jsonValue (answerJson (utf8 a) (ts.map utf8)) =
      (askMembers a ts).values.map .object := by
    intro a ts
    rw [answerJson_utf8, jsonValue, utf8Decode_utf8, Option.bind_some, parse_askMembers]
  constructor
  · rintro ⟨v, hv, ⟨hanswer, hsources⟩⟩
    obtain ⟨a, ha, rfl⟩ := Option.map_eq_some_iff.mp hanswer
    obtain ⟨ts, hts, rfl⟩ := Option.map_eq_some_iff.mp hsources
    rw [hvalue] at hv
    rcases hreceived : received (utf8 a) with _ | u
    · simp [askMembers, Members.values, hreceived] at hv
    rcases hlist : textsValue ts with _ | list
    · simp [askMembers, Members.values, hlist] at hv
    refine ⟨rfl, fun source hsource => ?_⟩
    obtain ⟨t, ht, rfl⟩ := List.mem_map.mp hsource
    rw [(textsValue_eq_some hlist).1 t ht]
    rfl
  · rintro ⟨hanswer, hsources⟩
    obtain ⟨a, ha⟩ := Option.isSome_iff_exists.mp hanswer
    obtain rfl := VectorClient.utf8_of_received ha
    obtain ⟨ts, rfl⟩ : ∃ ts : List (List Char), ts.map utf8 = sources := by
      have hall : ∀ source ∈ sources, ∃ t, utf8 t = source := fun source hsource => by
        obtain ⟨t, ht⟩ := Option.isSome_iff_exists.mp (hsources source hsource)
        exact ⟨t, VectorClient.utf8_of_received ht⟩
      have hrange : sources ∈ Set.range (List.map utf8) := by
        rw [Set.range_list_map]
        exact hall
      exact hrange
    obtain ⟨list, hlist⟩ := Option.isSome_iff_exists.mp
      (isSome_textsValue fun t ht => hsources _ (List.mem_map_of_mem ht))
    refine ⟨.object [(['a', 'n', 's', 'w', 'e', 'r'], .string a),
      (['s', 'o', 'u', 'r', 'c', 'e', 's'], list)], ?_, ?_, ?_⟩
    · rw [hvalue]
      simp [askMembers, Members.values, ha, hlist]
    · simp [Value.field, Value.asString, List.lookup_cons]
    · simp [Value.field, (textsValue_eq_some hlist).2]

open VectorClient

/-- The body of a GET of `/api/ask` with a question, over the link to the service. -/
def askThrough (l : Link) (question : Bytes) : Bytes :=
  answerJson (ask l question 5).1 (ask l question 5).2

def oneLink : Unit → Link := fun _ => directLink oneDocument

def askingCtx : ClientCtx Unit :=
  { plainCtx with askJson := fun question vec => askThrough (oneLink vec) question }

end SemanticSearch
