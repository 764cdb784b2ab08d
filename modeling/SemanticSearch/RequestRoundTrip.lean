import SemanticSearch.Decimal
import SemanticSearch.KeepAlive
import SemanticSearch.SearchClient

namespace SemanticSearch

def questionMark : Byte := 63

/-- The two sides of the first `?`, or the whole and nothing. -/
def SidesOfQuery (target path query : Bytes) : Prop :=
  (questionMark ∉ target ∧ path = target ∧ query = []) ∨
    (questionMark ∉ path ∧ target = path ++ questionMark :: query)

theorem splitQuery_sides (target : Bytes) :
    SidesOfQuery target (splitQuery target).1 (splitQuery target).2 := by
  have hmark : text "?" = [questionMark] := rfl
  by_cases hq : questionMark ∈ target
  · obtain ⟨path, query, rfl, hpath⟩ := List.eq_append_cons_of_mem hq
    rw [splitQuery, hmark, find_append_cons hpath]
    simp [SidesOfQuery, hpath]
  · rw [splitQuery, hmark, find_eq_none hq]
    exact Or.inl ⟨hq, rfl, rfl⟩

namespace WireRequest

/-- Name and value of a header line, as the parser keeps them. -/
def parsedField (f : HeaderField) : Bytes × Bytes := (f.name.map toLower, f.value.drop 1)

end WireRequest

namespace RequestHead

theorem linesOf_render (R : RequestHead) : linesOf R.render = R.fields.map HeaderField.line := by
  have hn : ∀ {t : Bytes}, (∀ c ∈ t, isSpace c = false) → newline ∉ t := fun h hc =>
    absurd (h _ hc) (by decide)
  have hfirst : newline ∉ R.requestLine := by
    have h1 : newline ≠ space := by decide
    simp [RequestHead.requestLine, hn R.method_ok.2, hn R.target_ok.2, hn R.version_ok.2, h1]
  have hlines : ∀ l ∈ R.fields.map HeaderField.line, l ≠ [] ∧ newline ∉ l := by
    intro l hl
    obtain ⟨f, -, rfl⟩ := List.mem_map.mp hl
    have h1 : newline ≠ colon := by decide
    exact ⟨by simp [HeaderField.line],
      by simp [HeaderField.line, hn f.name_ok.2.2, f.value_ok.2, h1]⟩
  rw [R.render_eq, linesOf_blockText hfirst hlines]

theorem headerField_line (f : HeaderField) :
    headerField f.line = some (WireRequest.parsedField f) :=
  headerField_colon f.name_ok.2.1 f.value

theorem headerValue_render (R : RequestHead) (key : Bytes) :
    headerValue (linesOf R.render) key =
      (R.fields.map WireRequest.parsedField).reverse.lookup key := by
  have hcomp : (headerField ∘ HeaderField.line) = some ∘ WireRequest.parsedField := by
    funext f
    exact headerField_line f
  rw [linesOf_render, headerValue, List.filterMap_map, hcomp, List.filterMap_eq_map]

theorem parseHead_render (R : RequestHead) (hvalue : ∀ f ∈ R.fields, f.value ≠ []) :
    ∃ r, parseHead R.render = .ok r ∧ r.method = R.method ∧
      SidesOfQuery R.target r.path r.query ∧ r.body = [] ∧
      ∀ key, r.headers[key]? = (R.fields.map WireRequest.parsedField).reverse.lookup key := by
  obtain ⟨hmethod, htarget⟩ := R.requestLine_render
  have hlines : ∀ l ∈ linesOf R.render, HeaderOk l := by
    rw [linesOf_render]
    intro l hl
    obtain ⟨f, hf, rfl⟩ := List.mem_map.mp hl
    intro c hc
    rw [HeaderField.line, find_append_cons f.name_ok.2.1] at hc
    obtain rfl := Option.some.inj hc
    have hpos := List.length_pos_iff.mpr (hvalue f hf)
    simp [HeaderField.line]
    omega
  obtain ⟨r, hr⟩ := parseHead_ok_iff.mpr (Or.inr hlines)
  rcases parseHead_ok hr with ⟨h0, -⟩ | ⟨-, h1, h2, h3, h4, h5⟩
  · rw [hmethod, htarget] at h0
    exact absurd h0 (by simp [R.method_ok.1, R.target_ok.1])
  · refine ⟨r, hr, h1.trans hmethod, ?_, h4, fun key => (h5 key).trans (R.headerValue_render key)⟩
    rw [h2, h3, htarget]
    exact splitQuery_sides R.target

end RequestHead

theorem WireRequest.parseHead_head (R : WireRequest) (hvalue : ∀ f ∈ R.fields, f.value ≠ []) :
    ∃ r, parseHead R.head = .ok r ∧ r.method = R.method ∧
      SidesOfQuery R.target r.path r.query ∧ r.body = [] ∧
      ∀ key, r.headers[key]? = (R.fields.map WireRequest.parsedField).reverse.lookup key :=
  R.parseHead_render hvalue

theorem WireRequest.parseRequest_head (R : WireRequest) (hvalue : ∀ f ∈ R.fields, f.value ≠ [])
    (hlength : ∀ f ∈ R.fields, ¬ f.Named contentLength) :
    ∃ r, parseRequest R.head = .ok r ∧ r.method = R.method ∧
      SidesOfQuery R.target r.path r.query := by
  obtain ⟨r, hr, hmethod, hsides, -, hkeys⟩ := R.parseHead_head hvalue
  have hnone : (R.fields.map WireRequest.parsedField).reverse.lookup contentLength = none := by
    rw [List.lookup_eq_none_iff]
    intro p hp
    obtain ⟨f, hf, rfl⟩ := List.mem_map.mp (List.mem_reverse.mp hp)
    exact bne_iff_ne.mpr fun he => hlength f hf he.symm
  have hdeclared : declaredLength r = .ok none := by rw [declaredLength, hkeys, hnone]
  have hparse := R.isHeaderBlock.parseRequest_append []
  rw [hr, List.append_nil] at hparse
  simp only [bind, Except.bind, hdeclared] at hparse
  exact ⟨withBody r none [], hparse, hmethod, hsides⟩

def NoSpace (t : Bytes) : Prop := ∀ c ∈ t, isSpace c = false

instance (t : Bytes) : Decidable (NoSpace t) := List.decidableBAll (fun c => isSpace c = false) t

def clientMethods : List Bytes := [text "GET", text "PUT", text "POST", text "DELETE"]

/-- The headers that `SendHttpRequest` sends. -/
def sentHeaders (host port body : Bytes) : List (Bytes × Bytes) :=
  [(text "Host", host ++ text ":" ++ port), (text "User-Agent", text "searchclient/1.0")] ++
    (if body ≠ [] then
      [(text "Content-Length", decimal body.length),
        (text "Content-Type", text "application/octet-stream")]
    else []) ++
    [(text "Connection", text "close")]

/-- A header that is one line `Name: value`. -/
def IsSendable (h : Bytes × Bytes) : Prop :=
  (h.1 ≠ [] ∧ colon ∉ h.1 ∧ NoSpace h.1) ∧ carriageReturn ∉ h.2 ∧ newline ∉ h.2

instance (h : Bytes × Bytes) : Decidable (IsSendable h) := inferInstanceAs (Decidable (_ ∧ _))

def sentField (h : Bytes × Bytes) (hh : IsSendable h) : HeaderField where
  name := h.1
  value := space :: h.2
  name_ok := hh.1
  value_ok := by
    have h1 : carriageReturn ≠ space := by decide
    have h2 : newline ≠ space := by decide
    simp [hh.2, h1, h2]

theorem noSpace_decimal (n : ℕ) : NoSpace (decimal n) := by
  intro c hc
  exact isSpace_of_isDigit (isDigit_of_mem_decimal hc)

theorem isSendable_of_mem {host port body : Bytes} (hhost : NoSpace host) (hport : NoSpace port)
    {h : Bytes × Bytes} (hh : h ∈ sentHeaders host port body) : IsSendable h := by
  have hvalue : carriageReturn ∉ host ++ text ":" ++ port ∧ newline ∉ host ++ text ":" ++ port := by
    have h1 : carriageReturn ∉ text ":" := by decide
    have h2 : newline ∉ text ":" := by decide
    have h3 : isSpace carriageReturn := by decide
    have h4 : isSpace newline := by decide
    simp [notMem_of_isSpace hhost h3, notMem_of_isSpace hport h3, notMem_of_isSpace hhost h4,
      notMem_of_isSpace hport h4, h1, h2]
  have hlength : carriageReturn ∉ decimal body.length ∧ newline ∉ decimal body.length :=
    ⟨notMem_of_isSpace (noSpace_decimal _) (by decide),
      notMem_of_isSpace (noSpace_decimal _) (by decide)⟩
  simp only [sentHeaders, List.mem_append, List.mem_cons, List.not_mem_nil, or_false] at hh
  rcases hh with ((rfl | rfl) | hh) | rfl
  · exact ⟨(by decide : IsSendable (text "Host", [])).1, hvalue⟩
  · decide
  · split_ifs at hh
    · simp only [List.mem_cons, List.not_mem_nil, or_false] at hh
      rcases hh with rfl | rfl
      · exact ⟨(by decide : IsSendable (text "Content-Length", [])).1, hlength⟩
      · decide
    · simp at hh
  · decide

theorem trim_of_noSpace {v : Bytes} (hv : NoSpace v) : trim (space :: v) = v := by
  have hblank : ∀ c ∈ v, isBlank c = false := by
    intro c hc
    have hspace := hv c hc
    simp only [isSpace, Bool.or_eq_false_iff, Bool.and_eq_false_iff, decide_eq_false_iff_not] at hspace
    have hne : c ≠ 9 := by
      rintro rfl
      exact absurd hspace.2 (by decide)
    simp [isBlank, hspace.1, hne]
  have hdrop : ∀ u : Bytes, (∀ c ∈ u, isBlank c = false) → u.dropWhile isBlank = u := by
    intro u hu
    cases u with
    | nil => rfl
    | cons c u => rw [List.dropWhile_cons_of_neg (by simp [hu c List.mem_cons_self])]
  rw [trim, List.dropWhile_cons_of_pos (by decide), hdrop v hblank,
    hdrop v.reverse fun c hc => hblank c (List.mem_reverse.mp hc), List.reverse_reverse]

section Client

variable {host port method path body : Bytes}

def sentFields (hhost : NoSpace host) (hport : NoSpace port) (body : Bytes) : List HeaderField :=
  (sentHeaders host port body).pmap sentField fun _ => isSendable_of_mem hhost hport

theorem mem_sentFields (hhost : NoSpace host) (hport : NoSpace port) {f : HeaderField}
    (hf : f ∈ sentFields hhost hport body) :
    ∃ h ∈ sentHeaders host port body, f.name = h.1 ∧ f.value = space :: h.2 := by
  obtain ⟨h, hh, rfl⟩ := List.mem_pmap.mp hf
  exact ⟨h, hh, rfl, rfl⟩

theorem contentLength_of_mem {h : Bytes × Bytes} (hh : h ∈ sentHeaders host port body)
    (hname : h.1.map toLower = contentLength) : body ≠ [] ∧ h.2 = decimal body.length := by
  simp only [sentHeaders, List.mem_append, List.mem_cons, List.not_mem_nil, or_false] at hh
  rcases hh with ((rfl | rfl) | hh) | rfl
  · exact absurd hname (by decide : (text "Host").map toLower ≠ contentLength)
  · exact absurd hname (by decide)
  · split_ifs at hh with hbody
    · simp only [List.mem_cons, List.not_mem_nil, or_false] at hh
      rcases hh with rfl | rfl
      · exact ⟨hbody, rfl⟩
      · exact absurd hname (by decide)
    · simp at hh
  · exact absurd hname (by decide)

/-- The client's request as one of those that a connection answers one by one. -/
def clientRequest (hhost : NoSpace host) (hport : NoSpace port) (hmethod : method ∈ clientMethods)
    (hpath : path ≠ [] ∧ NoSpace path) (body : Bytes) : WireRequest where
  method := method
  target := path
  version := text "HTTP/1.1"
  fields := sentFields hhost hport body
  body := body
  method_ok := by
    have hall : ∀ m ∈ clientMethods, m ≠ [] ∧ NoSpace m := by decide
    exact hall method hmethod
  target_ok := hpath
  version_ok := (by decide : text "HTTP/1.1" ≠ [] ∧ NoSpace (text "HTTP/1.1"))
  length_ok := by
    by_cases hbody : body = []
    · left
      refine ⟨hbody, fun f hf hnamed => ?_⟩
      obtain ⟨h, hh, hname, -⟩ := mem_sentFields hhost hport hf
      rw [HeaderField.Named, hname] at hnamed
      exact (contentLength_of_mem hh hnamed).1 hbody
    · right
      constructor
      · have hmem : (text "Content-Length", decimal body.length) ∈ sentHeaders host port body := by
          simp [sentHeaders, hbody]
        exact ⟨_, List.mem_pmap.mpr ⟨_, hmem, rfl⟩, (by decide :
          (text "Content-Length").map toLower = contentLength)⟩
      · intro f hf hnamed
        obtain ⟨h, hh, hname, hvalue⟩ := mem_sentFields hhost hport hf
        rw [HeaderField.Named, hname] at hnamed
        rw [hvalue, (contentLength_of_mem hh hnamed).2]
        exact trim_of_noSpace (noSpace_decimal _)

theorem render_clientRequest (hhost : NoSpace host) (hport : NoSpace port)
    (hmethod : method ∈ clientMethods) (hpath : path ≠ [] ∧ NoSpace path) (body : Bytes) :
    (clientRequest hhost hport hmethod hpath body).render =
      sendHttpRequest host port method path body := by
  have hfields : (sentFields hhost hport body).flatMap (fun f => f.line ++ crlf) =
      (sentHeaders host port body).flatMap fun h => h.1 ++ text ": " ++ h.2 ++ crlf := by
    rw [sentFields, List.flatMap_def, List.flatMap_def, List.map_pmap]
    change (List.pmap (fun (h : Bytes × Bytes) _ => (h.1 ++ colon :: space :: h.2) ++ crlf) _
      _).flatten = _
    rw [List.pmap_eq_map]
    have hcolon : text ": " = [colon, space] := rfl
    simp [hcolon]
  have htexts : text " HTTP/1.1" = space :: text "HTTP/1.1" ∧ text "Host: " = text "Host" ++ text ": " ∧
      text "User-Agent: searchclient/1.0" =
        text "User-Agent" ++ text ": " ++ text "searchclient/1.0" ∧
      text "Content-Length: " = text "Content-Length" ++ text ": " ∧
      text "Content-Type: application/octet-stream" =
        text "Content-Type" ++ text ": " ++ text "application/octet-stream" ∧
      text "Connection: close" = text "Connection" ++ text ": " ++ text "close" ∧
      text " " = [space] := by decide
  obtain ⟨h1, h2, h3, h4, h5, h6, h7⟩ := htexts
  unfold sendHttpRequest
  simp only [WireRequest.render, WireRequest.head, RequestHead.render, RequestHead.requestLine,
    clientRequest, hfields, sentHeaders, h1, h2, h3, h4, h5, h6, h7]
  split_ifs with hbody <;> simp

/-- The names lower-cased, as the parser keeps them. -/
def lowerNames (headers : List (Bytes × Bytes)) : List (Bytes × Bytes) :=
  headers.map fun h => (h.1.map toLower, h.2)

theorem map_parsedField (hhost : NoSpace host) (hport : NoSpace port) (body : Bytes) :
    (sentFields hhost hport body).map WireRequest.parsedField =
      lowerNames (sentHeaders host port body) := by
  rw [sentFields, List.map_pmap]
  change List.pmap (fun (h : Bytes × Bytes) _ => (h.1.map toLower, h.2)) _ _ = _
  exact List.pmap_eq_map _

theorem lookup_reverse {l : List (Bytes × Bytes)} (h : (l.map Prod.fst).Nodup) (key : Bytes) :
    l.reverse.lookup key = l.lookup key := by
  induction l with
  | nil => rfl
  | cons p l ih =>
    obtain ⟨hp, hl⟩ := List.nodup_cons.mp h
    rw [List.reverse_cons, List.lookup_append, ih hl, List.lookup_cons, List.lookup_cons,
      List.lookup_nil]
    by_cases hk : key = p.1
    · have hnone : l.lookup key = none := by
        rw [List.lookup_eq_none_iff]
        intro q hq
        simpa [hk] using fun he : p.1 = q.1 => hp (he ▸ List.mem_map_of_mem hq)
      rw [hnone, Option.none_or]
    · have hbeq : (key == p.1) = false := by simpa using hk
      rw [hbeq, Option.or_none]

theorem nodup_lowerNames (host port body : Bytes) :
    ((lowerNames (sentHeaders host port body)).map Prod.fst).Nodup := by
  by_cases hbody : body = []
  · have hnames : (lowerNames (sentHeaders host port body)).map Prod.fst =
        [text "host", text "user-agent", text "connection"] := by
      rw [sentHeaders, if_neg (not_not.mpr hbody)]
      rfl
    rw [hnames]
    decide
  · have hnames : (lowerNames (sentHeaders host port body)).map Prod.fst =
        [text "host", text "user-agent", contentLength, text "content-type", connection] := by
      rw [sentHeaders, if_pos hbody]
      rfl
    rw [hnames]
    decide

end Client

theorem staticPath_ok {server_path : Bytes} (h : NoSpace server_path) :
    staticPath server_path ≠ [] ∧ NoSpace (staticPath server_path) := by
  refine ⟨by simp [staticPath, text], fun c hc => ?_⟩
  rcases List.mem_append.mp hc with hc | hc
  · exact (by decide : NoSpace (text "/static/")) c hc
  · exact h c hc

/-- Whatever the client sends the server parses to the same method, the two sides of the first
`?` of the path, the headers sent and the same body. The length of a `std::string` is below the
bound of `unsigned long`. -/
theorem parseRequest_sendHttpRequest {host port method server_path body : Bytes}
    (hmethod : method ∈ clientMethods) (hhost : NoSpace host) (hport : NoSpace port)
    (hpath : server_path ≠ [] ∧ NoSpace server_path) (hbody : body.length < ulongBound) :
    ∃ r, parseRequest (sendHttpRequest host port method (staticPath server_path) body) = .ok r ∧
      r.method = method ∧ SidesOfQuery (staticPath server_path) r.path r.query ∧
      (∀ key, r.headers[key]? = (lowerNames (sentHeaders host port body)).lookup key) ∧
      r.body = body := by
  have hwhole := staticPath_ok hpath.2
  rw [← render_clientRequest hhost hport hmethod hwhole body]
  set R := clientRequest hhost hport hmethod hwhole body with hR
  obtain ⟨r, hr, hm, hsides, hb, hkeys⟩ := R.parseHead_head fun f hf => by
    obtain ⟨h, -, -, hvalue⟩ := mem_sentFields hhost hport hf
    simp [hvalue]
  have hheaders : ∀ key,
      r.headers[key]? = (lowerNames (sentHeaders host port body)).lookup key := by
    intro key
    rw [hkeys, ← lookup_reverse (nodup_lowerNames host port body), ← map_parsedField hhost hport]
    rfl
  have hlength : ∃ n, declaredLength r = .ok n ∧ body.take (n.getD 0) = body := by
    have hkey := hheaders contentLength
    by_cases hempty : body = []
    · refine ⟨none, ?_, by simp [hempty]⟩
      have hnone : (lowerNames (sentHeaders host port body)).lookup contentLength = none := by
        rw [sentHeaders, if_neg (not_not.mpr hempty)]
        rfl
      rw [declaredLength, hkey, hnone]
    · refine ⟨some body.length, ?_, by simp⟩
      have hsome : (lowerNames (sentHeaders host port body)).lookup contentLength =
          some (decimal body.length) := by
        rw [sentHeaders, if_pos hempty]
        rfl
      have hread := stoul_decimal hbody (t := []) (by simp [EndsNumber])
      rw [List.append_nil] at hread
      rw [declaredLength, hkey, hsome]
      simp only [hread, Except.map]
  obtain ⟨n, hn, htake⟩ := hlength
  refine ⟨withBody r n body, ?_, hm, hsides, hheaders, htake⟩
  have hparse := R.isHeaderBlock.parseRequest_append body
  rw [hr] at hparse
  simp only [bind, Except.bind, hn] at hparse
  exact hparse

theorem parseRequest_sendHttpRequest_upload :
    ∃ r, parseRequest (sendHttpRequest (text "localhost") (text "5950") (text "POST")
        (staticPath (text "notes?draft")) (text "a\r\n\r\nb")) = .ok r ∧
      r.method = text "POST" ∧
      SidesOfQuery (staticPath (text "notes?draft")) r.path r.query ∧
      (∀ key, r.headers[key]? = (lowerNames (sentHeaders (text "localhost") (text "5950")
        (text "a\r\n\r\nb"))).lookup key) ∧ r.body = text "a\r\n\r\nb" :=
  parseRequest_sendHttpRequest (by decide) (by decide) (by decide) (by decide) (by decide)

end SemanticSearch
