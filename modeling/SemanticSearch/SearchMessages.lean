import SemanticSearch.EmbedMessages
import SemanticSearch.ServiceCall

namespace SemanticSearch

open Json

def Json.intLiteral : List Char → Option ℤ
  | [] => none
  | '-' :: ds => if ds ≠ [] ∧ ds.all Char.isDigit then some (-(Nat.ofDigitChars 10 ds 0 : ℤ)) else none
  | ds => if ds.all Char.isDigit then some (Nat.ofDigitChars 10 ds 0 : ℤ) else none

def Json.Value.asInt : Value → Option ℤ
  | .number literal => intLiteral literal
  | _ => none

theorem intLiteral_intText (n : ℤ) : intLiteral (intText n) = some n := by
  have hdigits : (Nat.toDigits 10 n.natAbs).all Char.isDigit :=
    List.all_eq_true.mpr fun _ => Nat.isDigit_of_mem_toDigits (by decide) (by decide)
  have hvalue : Nat.ofDigitChars 10 (Nat.toDigits 10 n.natAbs) 0 = n.natAbs :=
    Nat.ofDigitChars_ten_toDigits
  by_cases hn : n < 0
  · have htext : intText n = '-' :: Nat.toDigits 10 n.natAbs := by simp [intText, signText, hn]
    rw [htext, intLiteral, if_pos ⟨Nat.toDigits_ne_nil, hdigits⟩, hvalue]
    congr 1
    omega
  · have htext : intText n = Nat.toDigits 10 n.natAbs := by simp [intText, signText, hn]
    obtain ⟨c, cs, hc⟩ := List.exists_cons_of_ne_nil (Nat.toDigits_ne_nil (b := 10) (n := n.natAbs))
    rw [hc] at hdigits hvalue htext
    have hminus : c ≠ '-' := by
      rintro rfl
      simp at hdigits
    have hliteral : intLiteral (c :: cs) = if (c :: cs).all Char.isDigit then
        some (Nat.ofDigitChars 10 (c :: cs) 0 : ℤ) else none := by
      unfold intLiteral
      split
      · next h => cases h
      · next h => exact absurd (List.cons.inj h).1 hminus
      · rfl
    rw [htext, hliteral, if_pos hdigits, hvalue]
    congr 1
    omega

/-- The message of `/search` or `/ask`, which call the text `query` and `question`. -/
def textMessage (name : List Char) (t : Bytes) (k : ℤ) : Bytes :=
  utf8 (['\x7b', '"'] ++ name ++ ['"', ':', '"']) ++ jsonEscape t ++
    utf8 (['"', ',', '"', 'k', '"', ':'] ++ intText k ++ ['\x7d'])

theorem searchBody_eq_textMessage (query : Bytes) (k : ℤ) :
    searchBody query k = textMessage ['q', 'u', 'e', 'r', 'y'] query k := by
  have h1 : text "\x7b\"query\":\"" = utf8 (['\x7b', '"'] ++ ['q', 'u', 'e', 'r', 'y'] ++
      ['"', ':', '"']) := text_ofList rfl
  have h2 : text "\",\"k\":" = utf8 ['"', ',', '"', 'k', '"', ':'] := text_ofList rfl
  have h3 : text "\x7d" = utf8 ['\x7d'] := text_ofList rfl
  rw [searchBody, textMessage, h1, h2, h3]
  simp only [utf8_append, List.append_assoc]

theorem questionBody_eq_textMessage (question : Bytes) (k : ℤ) :
    questionBody question k =
      textMessage ['q', 'u', 'e', 's', 't', 'i', 'o', 'n'] question k := by
  have h1 : text "\x7b\"question\":\"" = utf8 (['\x7b', '"'] ++
      ['q', 'u', 'e', 's', 't', 'i', 'o', 'n'] ++ ['"', ':', '"']) := text_ofList rfl
  have h2 : text "\",\"k\":" = utf8 ['"', ',', '"', 'k', '"', ':'] := text_ofList rfl
  have h3 : text "\x7d" = utf8 ['\x7d'] := text_ofList rfl
  rw [questionBody, textMessage, h1, h2, h3]
  simp only [utf8_append, List.append_assoc]

def messageMembers (name t : List Char) (k : ℤ) : Members :=
  [(name, quoted (escape t), (received (utf8 t)).map .string),
    (['k'], intText k, some (.number (intText k)))]

theorem parse_messageMembers {name : List Char} (hname : ∀ c ∈ name, IsPlain c) (t : List Char)
    (k : ℤ) : parse (objectText (messageMembers name t k).texts) =
      (messageMembers name t k).values.map .object := by
  apply parse_object (d := 1)
  · intro m hm
    simp only [messageMembers, List.mem_cons, List.not_mem_nil, or_false] at hm
    rcases hm with rfl | rfl
    · exact hname
    · exact isPlain_of_all rfl
  · intro m hm
    simp only [messageMembers, List.mem_cons, List.not_mem_nil, or_false] at hm
    rcases hm with rfl | rfl
    · exact reads_string (standsFor_escape t)
    · exact reads_number (isNumber_intText k)
  · simp [objectText]

/-- What `SearchReq` and `AskReq` take from a body, or nothing when the request is rejected. -/
def textReq (name : List Char) (body : Bytes) : Option (List Char × ℤ) := do
  let v ← parse (← utf8Decode body)
  let t ← (← v.field name).asString
  let k ← (← v.field ['k']).asInt
  return (t, k)

theorem utf8Decode_textMessage (name : List Char) (t : Bytes) (k : ℤ) :
    utf8Decode (textMessage name t k) =
      (utf8Decode t).map fun cs => objectText (messageMembers name cs k).texts := by
  have hescape : utf8Decode (jsonEscape t) = (utf8Decode t).map escape :=
    utf8Decode_flatMap_jsonByte t
  have hne : ['"', ',', '"', 'k', '"', ':'] ++ intText k ++ ['\x7d'] ≠ [] := by simp
  have hdecode := utf8Decode_append (jsonEscape t) [] hne
  rw [List.append_nil, hescape, show utf8Decode [] = some [] from utf8Decode_utf8 []] at hdecode
  rw [textMessage, List.append_assoc, utf8Decode_utf8_append, hdecode]
  rcases utf8Decode t with _ | cs
  · rfl
  · simp [messageMembers, Members.texts, memberText, objectText, quoted]

theorem textReq_textMessage {name : List Char} (hname : ∀ c ∈ name, IsPlain c) (hk : name ≠ ['k'])
    (t : Bytes) (k : ℤ) :
    textReq name (textMessage name t k) = (received t).map fun cs => (cs, k) := by
  rw [textReq, utf8Decode_textMessage]
  rcases ht : utf8Decode t with _ | cs
  · simp [received, ht]
  · rw [utf8Decode_eq_some_iff.mp ht]
    simp only [Option.bind_some, Option.map_some, Option.bind_eq_bind, parse_messageMembers hname]
    have hne : (name == ['k']) = false := by simpa using hk
    rcases hc : received (utf8 cs) with _ | u
    · simp [messageMembers, Members.values, hc]
    · simp [messageMembers, Members.values, hc, Value.field, Value.asString, Value.asInt,
        List.lookup_cons, hne, intLiteral_intText]

namespace VectorClient

def postHeaders (json_body : Bytes) : List (Bytes × Bytes) :=
  [(text "Host", text "localhost"), (text "Content-Type", text "application/json"),
    (text "Content-Length", decimal json_body.length), (text "Connection", text "close")]

theorem isSendable_postHeaders {json_body : Bytes} {h : Bytes × Bytes}
    (hh : h ∈ postHeaders json_body) : IsSendable h := by
  simp only [postHeaders, List.mem_cons, List.not_mem_nil, or_false] at hh
  rcases hh with rfl | rfl | rfl | rfl
  · decide
  · decide
  · exact ⟨(by decide : IsSendable (text "Content-Length", [])).1,
      notMem_of_isSpace (noSpace_decimal _) (by decide),
      notMem_of_isSpace (noSpace_decimal _) (by decide)⟩
  · decide

theorem sendable_post : text "POST" ≠ [] ∧ NoSpace (text "POST") := by decide

theorem sendable_version : text "HTTP/1.1" ≠ [] ∧ NoSpace (text "HTTP/1.1") := by decide

def postHead {path : Bytes} (hpath : path ≠ [] ∧ NoSpace path) (json_body : Bytes) :
    RequestHead where
  method := text "POST"
  target := path
  version := text "HTTP/1.1"
  fields := (postHeaders json_body).pmap sentField fun _ => isSendable_postHeaders
  method_ok := sendable_post
  target_ok := hpath
  version_ok := sendable_version

theorem render_postHead {path : Bytes} (hpath : path ≠ [] ∧ NoSpace path) (json_body : Bytes) :
    (postHead hpath json_body).render ++ json_body = postRequest path json_body := by
  have h1 : text "POST " = text "POST" ++ [space] := by decide
  have h2 : text " HTTP/1.1\r\nHost: localhost\r\nContent-Type: application/json\r\nContent-Length: " =
      space :: (text "HTTP/1.1" ++ crlf ++ (text "Host" ++ colon :: space :: text "localhost" ++ crlf) ++
        (text "Content-Type" ++ colon :: space :: text "application/json" ++ crlf) ++
          text "Content-Length" ++ [colon, space]) := by decide
  have h3 : text "\r\nConnection: close\r\n\r\n" =
      crlf ++ (text "Connection" ++ colon :: space :: text "close" ++ crlf) ++ crlf := by decide
  rw [postRequest, h1, h2, h3]
  simp [RequestHead.render, RequestHead.requestLine, postHead, postHeaders, sentField,
    HeaderField.line]

theorem parseRequest_postRequest {path json_body : Bytes} (hpath : path ≠ [] ∧ NoSpace path)
    (hmark : questionMark ∉ path) (hbody : json_body.length < ulongBound) :
    ∃ r, parseRequest (postRequest path json_body) = .ok r ∧ r.method = text "POST" ∧
      r.path = path ∧ r.body = json_body := by
  set R := postHead hpath json_body with hR
  obtain ⟨r, hr, hmethod, hsides, -, hkeys⟩ := R.parseHead_render fun f hf => by
    obtain ⟨h, -, rfl⟩ := List.mem_pmap.mp hf
    simp [sentField]
  have hkey : r.headers[contentLength]? = some (decimal json_body.length) := by
    rw [hkeys]
    rfl
  have hread := stoul_decimal hbody (t := []) (by simp [EndsNumber])
  rw [List.append_nil] at hread
  have hlength : declaredLength r = .ok (some json_body.length) := by
    rw [declaredLength, hkey]
    simp only [hread, Except.map]
  have hpathEq : r.path = path := by
    rcases hsides with ⟨-, h, -⟩ | ⟨-, h⟩
    · exact h
    · have htarget : path = r.path ++ questionMark :: r.query := h
      exact absurd (by rw [htarget]; simp) hmark
  refine ⟨withBody r (some json_body.length) json_body, ?_, hmethod, hpathEq, ?_⟩
  · rw [← render_postHead hpath]
    have hparse := R.isHeaderBlock.parseRequest_append json_body
    rw [hr] at hparse
    simp only [bind, Except.bind, hlength] at hparse
    exact hparse
  · simp [withBody]

/-- What the service is besides this repository: how HTTP requests are read and responses begin, the
body of a rejection, the engine behind `/search` and the answers behind `/ask`. -/
structure Service where
  http : Bytes → Option (Bytes × Bytes)
  head : Bytes → Bytes
  rejection : Bytes
  engine : List Char → ℤ → List (Bytes × Binary32)
  answer : List Char → ℤ → Bytes × List Bytes

/-- The body of the response to a request, if it can be encoded. -/
def Service.respond (S : Service) (request : Bytes) : Option Bytes := do
  let (path, body) ← S.http request
  if path = text "/search" then
    match textReq ['q', 'u', 'e', 'r', 'y'] body with
    | none => return S.rejection
    | some (query, k) => searchText (S.engine query k)
  else if path = text "/ask" then
    match textReq ['q', 'u', 'e', 's', 't', 'i', 'o', 'n'] body with
    | none => return S.rejection
    | some (question, k) => return askBody (S.answer question k).1 (S.answer question k).2
  else none

/-- What the service relies on outside of the repository: requests that a server parses are read as
they are meant, a response has a head, and a rejection is a JSON text on one line. -/
structure Service.Sound (S : Service) : Prop where
  reads : ∀ path json_body r, parseRequest (postRequest path json_body) = .ok r →
    S.http (postRequest path json_body) = some (r.path, r.body)
  head : ∀ body, IsHeaderBlock (S.head body)
  rejection : S.rejection ≠ [] ∧ tab ∉ S.rejection ∧ newline ∉ S.rejection

/-- The link is made, the whole request goes out, and the whole response comes back. -/
structure Serves (S : Service) (l : Link) (request : Bytes) : Prop where
  connects : l.connects
  sent : (sendAll l.writes request).ok
  comes : ∀ body, S.respond request = some body →
    arrived (l.answer request) = S.head body ++ body

variable {S : Service} {l : Link}

theorem Serves.exchange {request body : Bytes} (h : Serves S l request) (hS : S.Sound)
    (hrespond : S.respond request = some body) : VectorClient.exchange l request = body :=
  Intact.exchange ⟨hS.head body, h.connects, h.sent, h.comes body hrespond⟩

theorem Service.Sound.http (hS : S.Sound) {path json_body : Bytes}
    (hpath : path ≠ [] ∧ NoSpace path) (hmark : questionMark ∉ path)
    (hbody : json_body.length < ulongBound) :
    S.http (postRequest path json_body) = some (path, json_body) := by
  obtain ⟨r, hr, -, hpathEq, hbodyEq⟩ := parseRequest_postRequest hpath hmark hbody
  rw [hS.reads path json_body r hr, hpathEq, hbodyEq]

theorem respond_search (hS : S.Sound) {query : Bytes} {k : ℤ}
    (hlen : (searchBody query k).length < ulongBound) :
    S.respond (postRequest (text "/search") (searchBody query k)) =
      match received query with
      | none => some S.rejection
      | some cs => searchText (S.engine cs k) := by
  have hname : ∀ c ∈ ['q', 'u', 'e', 'r', 'y'], IsPlain c := isPlain_of_all rfl
  rw [Service.respond, hS.http (by decide) (by decide) hlen]
  simp only [Option.bind_eq_bind, Option.bind_some, if_true]
  rw [searchBody_eq_textMessage, textReq_textMessage hname (by decide)]
  rcases received query with _ | cs <;> rfl

theorem respond_ask (hS : S.Sound) {question : Bytes} {k : ℤ}
    (hlen : (questionBody question k).length < ulongBound) :
    S.respond (postRequest (text "/ask") (questionBody question k)) =
      match received question with
      | none => some S.rejection
      | some cs => some (askBody (S.answer cs k).1 (S.answer cs k).2) := by
  have hname : ∀ c ∈ ['q', 'u', 'e', 's', 't', 'i', 'o', 'n'], IsPlain c := isPlain_of_all rfl
  have hother : text "/ask" ≠ text "/search" := by decide
  rw [Service.respond, hS.http (by decide) (by decide) hlen]
  simp only [Option.bind_eq_bind, Option.bind_some, if_neg hother, if_true]
  rw [questionBody_eq_textMessage, textReq_textMessage hname (by decide)]
  rcases received question with _ | cs <;> rfl

theorem parseTsv_of_noTab {underflows : ℚ → Bool} {body : Bytes} (h : tab ∉ body) :
    parseTsv underflows body = [] := by
  rw [parseTsv, List.filterMap_eq_nil_iff]
  intro line hline
  have hline' : tab ∉ line := fun hc => h (mem_of_mem_getlines hline hc)
  have hfields : tsvFields line = none := by
    rw [tsvFields, find_eq_none hline']
    split_ifs <;> rfl
  rw [hfields, Option.bind_none]

/-- A search of a text that a JSON reader accepts. -/
theorem search_of_received (hS : S.Sound) {underflows : ℚ → Bool}
    (hu : ∀ q, 2 ^ (-126 : ℤ) ≤ q → underflows q = false) {query : Bytes} {k : ℤ}
    (hlen : (searchBody query k).length < ulongBound)
    (hserves : Serves S l (postRequest (text "/search") (searchBody query k))) {cs : List Char}
    (hq : received query = some cs) (hplain : ∀ p ∈ listed (S.engine cs k), IsPlainId p.1) :
    search l underflows query k = hits (S.engine cs k) := by
  have hrespond := respond_search hS hlen
  rw [hq] at hrespond
  have hencoded := searchText_eq fun p hp => (hplain p hp).1
  have hlines := lineEntry_lines hu hplain hencoded
  rw [search, post, hserves.exchange hS (hrespond.trans hencoded)]
  exact parseTsv_of_lines hlines

/-- A search of any query over an intact link: what the service finds for the text, in its order,
with the scores that it prints; and nothing when the text cannot be put into JSON. -/
theorem search_served (hS : S.Sound) {underflows : ℚ → Bool}
    (hu : ∀ q, 2 ^ (-126 : ℤ) ≤ q → underflows q = false) {query : Bytes} {k : ℤ}
    (hlen : (searchBody query k).length < ulongBound)
    (hserves : Serves S l (postRequest (text "/search") (searchBody query k)))
    (hplain : ∀ cs, received query = some cs → ∀ p ∈ listed (S.engine cs k), IsPlainId p.1) :
    search l underflows query k =
      match received query with
      | none => []
      | some cs => hits (S.engine cs k) := by
  rcases hq : received query with _ | cs
  · have hrespond := respond_search hS hlen
    rw [hq] at hrespond
    rw [search, post, hserves.exchange hS hrespond]
    exact parseTsv_of_noTab hS.rejection.2.1
  · exact search_of_received hS hu hlen hserves hq (hplain cs hq)

theorem ask_served (hS : S.Sound) {question : Bytes} {k : ℤ}
    (hlen : (questionBody question k).length < ulongBound)
    (hserves : Serves S l (postRequest (text "/ask") (questionBody question k)))
    (hplain : ∀ cs, received question = some cs →
      ¬ kSep <:+: (S.answer cs k).1 ++ [newline] ∧
        ∀ source ∈ (S.answer cs k).2, source ≠ [] ∧ newline ∉ source) :
    ask l question k =
      match received question with
      | none => (S.rejection, [])
      | some cs => S.answer cs k := by
  have hrespond := respond_ask hS hlen
  rcases hq : received question with _ | cs
  · rw [hq] at hrespond
    rw [ask, hserves.exchange hS hrespond]
    obtain ⟨h0, -, hline⟩ := hS.rejection
    have hnone : find kSep S.rejection = none := by
      by_contra hne
      obtain ⟨i, hi⟩ := Option.ne_none_iff_exists'.mp hne
      have hbegins : kSep <+: S.rejection.drop i := find_some_prefix hi
      have hmem : newline ∈ S.rejection.drop i := hbegins.subset (by decide)
      exact hline (List.mem_of_mem_drop hmem)
    simp [parseAsk, h0, hnone]
  · rw [hq] at hrespond
    obtain ⟨hanswer, hsources⟩ := hplain cs hq
    rw [ask, hserves.exchange hS hrespond, parseAsk_askBody hanswer hsources]

def oneDocument : Service where
  http request := (parseRequest request).toOption.map fun r => (r.path, r.body)
  head _ := okHead
  rejection := text "\x7b\"detail\":[]\x7d"
  engine _ _ := [(text "root/a", half)]
  answer _ _ := (text "yes", [text "root/a"])

def directLink (S : Service) : Link where
  connects := true
  writes := [.took 99, .took 999]
  answer request := push (S.head [] ++ (S.respond request).getD []) []

theorem sound_oneDocument : oneDocument.Sound where
  reads path json_body r hr := by
    simp [oneDocument, hr, Except.toOption]
  head _ := (by decide : IsHeaderBlock okHead)
  rejection := by decide

theorem serves_directLink {request : Bytes}
    (h : (sendAll [.took 99, .took 999] request).ok) :
    Serves oneDocument (directLink oneDocument) request where
  connects := rfl
  sent := h
  comes body hbody := by
    change arrived (push (okHead ++ (oneDocument.respond request).getD []) []) = okHead ++ body
    rw [hbody, arrived_push]
    simp [arrived]

theorem search_served_oneDocument :
    search (directLink oneDocument) (fun q => decide (q < 2 ^ (-126 : ℤ))) (text "hat") 10 =
      hits [(text "root/a", half)] := by
  have hu : ∀ q : ℚ, 2 ^ (-126 : ℤ) ≤ q → decide (q < 2 ^ (-126 : ℤ)) = false := by
    intro q hq
    simpa using hq
  have hplain : IsPlainId (text "root/a") := by decide
  have hreceived : (received (text "hat")).isSome := by decide +kernel
  obtain ⟨cs, hcs⟩ := Option.isSome_iff_exists.mp hreceived
  have hserves : Serves oneDocument (directLink oneDocument)
      (postRequest (text "/search") (searchBody (text "hat") 10)) :=
    serves_directLink (by decide +kernel)
  have hserved := search_served sound_oneDocument hu (by decide +kernel) hserves fun _ _ p hp => by
    obtain rfl := List.mem_singleton.mp (List.mem_filter.mp hp).1
    exact hplain
  rw [hcs] at hserved
  exact hserved

-- a question that is no UTF-8 is answered with the rejection
example : ask (directLink oneDocument) [200] 5 = (text "\x7b\"detail\":[]\x7d", []) := by
  decide +kernel

end VectorClient

end SemanticSearch
