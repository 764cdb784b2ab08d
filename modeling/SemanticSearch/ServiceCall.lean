import SemanticSearch.AskAnswer
import SemanticSearch.FloatRanking
import SemanticSearch.ReadingStream
import SemanticSearch.SearchTsv
import SemanticSearch.Sending
import SemanticSearch.StringScan

namespace SemanticSearch.VectorClient

open Binary32

/-- A connection to the service: whether it is made, what its writes take, and what arrives when
the service has received the bytes. -/
structure Link where
  connects : Bool
  writes : List Wrote
  answer : Bytes → Socket

/-- `RecvAll`. Every read without bytes ends it, also one that is interrupted or times out. -/
def recvAll (s : Socket) (raw : Bytes) : Bytes :=
  match _h : read bufSize s with
  | (.got buf, s') => recvAll s' (raw ++ buf)
  | (.again _, _) => raw
  | (.failed, _) => raw
  | (.eof, _) => raw
termination_by size s
decreasing_by exact size_of_read (by decide) _h (by simp)

def readResponse (s : Socket) : Bytes :=
  let raw := recvAll s []
  match find headerEnd raw with
  | none => []
  | some sep => raw.drop (sep + 4)

/-- What `Post` and `Ask` do with a request. -/
def exchange (l : Link) (request : Bytes) : Bytes :=
  if l.connects then
    let sent := sendAll l.writes request
    if sent.ok then readResponse (l.answer sent.bytes) else []
  else []

def postRequest (path json_body : Bytes) : Bytes :=
  text "POST " ++ path ++
    text " HTTP/1.1\r\nHost: localhost\r\nContent-Type: application/json\r\nContent-Length: " ++
    decimal json_body.length ++ text "\r\nConnection: close\r\n\r\n" ++ json_body

def post (l : Link) (path json_body : Bytes) : Bytes := exchange l (postRequest path json_body)

/-- `VectorClient::Search`. -/
def search (l : Link) (underflows : ℚ → Bool) (query : Bytes) (k : ℤ) : List (Bytes × Binary32) :=
  parseTsv underflows (post l (text "/search") (searchBody query k))

/-- `VectorClient::Ask`. -/
def ask (l : Link) (question : Bytes) (k : ℤ) : Bytes × List Bytes :=
  parseAsk (exchange l (postRequest (text "/ask") (questionBody question k)))

def arrived : Socket → Bytes
  | .chunk c cs :: s => c :: cs ++ arrived s
  | _ => []

theorem arrived_push (b : Bytes) (s : Socket) : arrived (push b s) = b ++ arrived s := by
  cases b <;> rfl

theorem recvAll_eq (s : Socket) (raw : Bytes) : recvAll s raw = raw ++ arrived s := by
  induction hn : size s using Nat.strong_induction_on generalizing s raw with
  | _ n ih =>
    subst hn
    rw [recvAll]
    match s with
    | [] => simp [read, arrived]
    | .again done :: s => simp [read, arrived]
    | .failed :: s => simp [read, arrived]
    | .chunk c cs :: s =>
      have hlt : size (push ((c :: cs).drop bufSize) s) < size (.chunk c cs :: s) :=
        size_read (k := bufSize) (by decide) (s := .chunk c cs :: s) (by simp [read])
      have htext : (c :: cs).take bufSize ++ arrived (push ((c :: cs).drop bufSize) s) =
          arrived (.chunk c cs :: s) := by
        rw [arrived_push, ← List.append_assoc, List.take_append_drop]
        rfl
      simp only [read]
      rw [ih _ hlt _ _ rfl, List.append_assoc, htext]

variable {l : Link} {request H body : Bytes}

/-- The service answers `request` with a head and `body`, and what arrives of it may end early. -/
structure Replies (l : Link) (request H body : Bytes) : Prop where
  head : IsHeaderBlock H
  comes : arrived (l.answer request) <+: H ++ body

/-- The connection is made, the request goes out and the whole answer arrives. -/
structure Intact (l : Link) (request H body : Bytes) : Prop where
  head : IsHeaderBlock H
  connects : l.connects
  sent : (sendAll l.writes request).ok
  whole : arrived (l.answer request) = H ++ body

theorem Intact.replies (h : Intact l request H body) : Replies l request H body :=
  ⟨h.head, h.whole ▸ List.prefix_refl _⟩

theorem readResponse_eq {s : Socket} (hH : IsHeaderBlock H) (h : arrived s <+: H ++ body) :
    readResponse s = body.take ((arrived s).length - H.length) := by
  have hlen := hH.four_le
  rw [readResponse, recvAll_eq, List.nil_append]
  by_cases hle : H.length ≤ (arrived s).length
  · obtain ⟨t, ht⟩ := List.prefix_of_prefix_length_le (List.prefix_append H body) h hle
    rw [← ht] at h ⊢
    have hbody : t <+: body := (List.prefix_append_right_inj H).mp h
    simp only [hH.find_append]
    rw [show H.length - 4 + 4 = H.length by omega, List.drop_left, List.length_append,
      Nat.add_sub_cancel_left]
    exact List.prefix_iff_eq_take.mp hbody
  · -- the blank line is not there
    have hnone : find headerEnd (arrived s) = none := by
      by_contra hne
      obtain ⟨i, hi⟩ := Option.ne_none_iff_exists'.mp hne
      have hbound := find_add_length_le hi
      obtain ⟨u, hu⟩ := h
      have hwhole := find_append hi u
      rw [hu, hH.find_append] at hwhole
      have h4 : headerEnd.length = 4 := rfl
      rw [← Option.some.inj hwhole, h4] at hbound
      omega
    simp only [hnone]
    rw [show (arrived s).length - H.length = 0 by omega, List.take_zero]

theorem exchange_eq (l : Link) (request : Bytes) :
    exchange l request = if l.connects ∧ (sendAll l.writes request).ok then
      readResponse (l.answer request) else [] := by
  unfold exchange
  by_cases hconnects : l.connects
  · by_cases hok : (sendAll l.writes request).ok
    · simp [hconnects, hok, (ok_sendAll_iff _ _).mp hok]
    · simp [hok]
  · simp [hconnects]

theorem Replies.exchange (h : Replies l request H body) :
    VectorClient.exchange l request <+: body := by
  rw [exchange_eq]
  split_ifs
  · rw [readResponse_eq h.head h.comes]
    exact List.take_prefix _ _
  · exact List.nil_prefix

theorem Intact.exchange (h : Intact l request H body) : VectorClient.exchange l request = body := by
  rw [exchange_eq, if_pos ⟨h.connects, h.sent⟩, readResponse_eq h.head h.replies.comes, h.whole,
    List.length_append, Nat.add_sub_cancel_left, List.take_length]

theorem exchange_eq_nil (h : l.connects = false ∨ (sendAll l.writes request).ok = false) :
    VectorClient.exchange l request = [] := by
  rw [exchange_eq, if_neg]
  rintro ⟨hconnects, hok⟩
  rcases h with h | h
  · simp [hconnects] at h
  · simp [hok] at h

section Search

variable {underflows : ℚ → Bool}

/-- What `ParseTsv` takes from one line. -/
def lineEntry (underflows : ℚ → Bool) (line : Bytes) : Option (Bytes × Binary32) :=
  (tsvFields line).bind fun f => (stof underflows f.2).toOption.map fun score => (f.1, score)

theorem id_of_lineEntry {line : Bytes} {p : Bytes × Binary32}
    (h : lineEntry underflows line = some p) : ∃ i, find [tab] line = some i ∧ p.1 = line.take i := by
  obtain ⟨f, hf, hscore⟩ := Option.bind_eq_some_iff.mp h
  obtain ⟨score, -, rfl⟩ := Option.map_eq_some_iff.mp hscore
  unfold tsvFields at hf
  split_ifs at hf
  obtain ⟨i, hi, rfl⟩ := Option.map_eq_some_iff.mp hf
  exact ⟨i, hi, rfl⟩

theorem id_of_prefix {line cut : Bytes} {p q : Bytes × Binary32} (h : cut <+: line)
    (hp : lineEntry underflows line = some p) (hq : lineEntry underflows cut = some q) :
    q.1 = p.1 := by
  obtain ⟨rest, rfl⟩ := h
  obtain ⟨i, hi, hpi⟩ := id_of_lineEntry hp
  obtain ⟨j, hj, hqj⟩ := id_of_lineEntry hq
  obtain rfl : j = i := Option.some.inj ((find_append hj rest).symm.trans hi)
  have hle := find_add_length_le hj
  rw [hqj, hpi, List.take_append_of_le_length (by omega)]

theorem filterMap_of_map {α β : Type} {f : α → Option β} {l : List α} {full : List β}
    (h : l.map f = full.map some) : l.filterMap f = full := by
  have hsome := congrArg (List.filterMap id) h
  simpa only [List.filterMap_map, Function.comp_def, List.filterMap_some, id_eq] using hsome

theorem parseTsv_of_lines {tsv : Bytes} {full : List (Bytes × Binary32)}
    (hfull : (getlines newline tsv).map (lineEntry underflows) = full.map some) :
    parseTsv underflows tsv = full := filterMap_of_map hfull

theorem parseTsv_prefix {tsv cut : Bytes} {full : List (Bytes × Binary32)}
    (hfull : (getlines newline tsv).map (lineEntry underflows) = full.map some) (h : cut <+: tsv) :
    (parseTsv underflows cut).map Prod.fst <+: full.map Prod.fst ∧
      (parseTsv underflows cut).dropLast <+: full := by
  obtain ⟨k, part, hlines, hpart⟩ := getlines_prefix (d := newline) h
  have hwhole : ((getlines newline tsv).take k).filterMap (lineEntry underflows) = full.take k :=
    filterMap_of_map (by rw [List.map_take, hfull, ← List.map_take])
  have hparse : parseTsv underflows cut = full.take k ++ part.filterMap (lineEntry underflows) := by
    rw [← hwhole, ← List.filterMap_append, ← hlines]
    rfl
  have hcomplete : part.filterMap (lineEntry underflows) = [] →
      (parseTsv underflows cut).map Prod.fst <+: full.map Prod.fst ∧
        (parseTsv underflows cut).dropLast <+: full := by
    intro hnil
    rw [hparse, hnil, List.append_nil]
    exact ⟨(List.take_prefix k full).map Prod.fst,
      (List.dropLast_prefix _).trans (List.take_prefix k full)⟩
  rcases hpart with rfl | ⟨line', line, rfl, hline', hline⟩
  · exact hcomplete rfl
  · rcases hq : lineEntry underflows line' with _ | q
    · exact hcomplete (by simp [hq])
    · have hentry : full[k]?.map some = some (lineEntry underflows line) := by
        rw [← List.getElem?_map, ← hfull, List.getElem?_map, hline]
        rfl
      obtain ⟨p, hp, hpline⟩ := Option.map_eq_some_iff.mp hentry
      have hcut : parseTsv underflows cut = full.take k ++ [q] := by
        rw [hparse]
        simp [hq]
      rw [hcut]
      constructor
      · have hnext : full.take (k + 1) = full.take k ++ [p] := by
          rw [List.take_add_one, hp]
          rfl
        have hid : ((full.take k ++ [q]).map Prod.fst) = (full.take (k + 1)).map Prod.fst := by
          rw [hnext, List.map_append, List.map_append, List.map_singleton, List.map_singleton,
            id_of_prefix hline' hpline.symm hq]
        rw [hid]
        exact (List.take_prefix (k + 1) full).map Prod.fst
      · rw [List.dropLast_concat]
        exact List.take_prefix k full

/-- What the client gets for a ranking when nothing goes wrong. -/
def hits (ranked : List (Bytes × Binary32)) : List (Bytes × Binary32) :=
  (listed ranked).map fun p => (p.1, printedScore p.2)

theorem lineEntry_lines (hu : ∀ q, 2 ^ (-126 : ℤ) ≤ q → underflows q = false)
    {ranked : List (Bytes × Binary32)} (hplain : ∀ p ∈ listed ranked, IsPlainId p.1) {tsv : Bytes}
    (htsv : searchText ranked = some tsv) :
    (getlines newline tsv).map (lineEntry underflows) = (hits ranked).map some := by
  rw [searchText_eq fun p hp => (hplain p hp).1] at htsv
  obtain rfl := Option.some.inj htsv
  have hscore : ∀ p ∈ listed ranked, stof underflows (fixedText p.2) = .ok (printedScore p.2) ∧
      newline ∉ fixedText p.2 := fun p hp => stof_fixedText hu (List.mem_filter.mp hp).2
  have hlines : ∀ line ∈ (listed ranked).map fun p => p.1 ++ tab :: fixedText p.2,
      line ≠ [] ∧ newline ∉ line := by
    intro line hline
    obtain ⟨p, hp, rfl⟩ := List.mem_map.mp hline
    have hne : newline ≠ tab := by decide
    exact ⟨by simp, by simp [(hplain p hp).2.2, (hscore p hp).2, hne]⟩
  rw [getlines_intercalate hlines, hits, List.map_map, List.map_map]
  apply List.map_congr_left
  intro p hp
  simp only [Function.comp, lineEntry, tsvFields_line (hplain p hp).2.1, Option.bind_some,
    (hscore p hp).1]
  rfl

end Search

def okHead : Bytes := text "HTTP/1.1 200 OK\r\n\r\n"

/-- A service that sends `answer` whatever it is asked, and then nothing more. -/
def stalled (answer : Bytes) : Link where
  connects := true
  writes := [.took 9, .took 1000]
  answer _ := push answer [.again false]

theorem replies_stalled {request body cut : Bytes} (h : cut <+: body) :
    Replies (stalled (okHead ++ cut)) request okHead body := by
  refine ⟨by decide, ?_⟩
  have harrived : arrived ((stalled (okHead ++ cut)).answer request) = okHead ++ cut := by
    simp [stalled, arrived_push, arrived]
  rw [harrived]
  exact (List.prefix_append_right_inj okHead).mpr h

section Ask

variable {answer : Bytes} {sources : List Bytes}

theorem sources_prefix (hsources : ∀ s ∈ sources, s ≠ [] ∧ newline ∉ s) {cut : Bytes}
    (h : cut <+: [newline].intercalate sources) :
    ((getlines newline cut).filter fun line => !line.isEmpty).dropLast <+: sources ∧
      ∀ s ∈ (getlines newline cut).filter fun line => !line.isEmpty,
        ∃ source ∈ sources, s <+: source := by
  obtain ⟨k, part, hlines, hpart⟩ := getlines_prefix (d := newline) h
  rw [getlines_intercalate hsources] at hlines hpart
  have hwhole : (sources.take k).filter (fun line => !line.isEmpty) = sources.take k := by
    rw [List.filter_eq_self]
    intro s hs
    simpa using (hsources s (List.mem_of_mem_take hs)).1
  rw [hlines, List.filter_append, hwhole]
  have hfirst : ∀ s ∈ sources.take k, ∃ source ∈ sources, s <+: source := fun s hs =>
    ⟨s, List.mem_of_mem_take hs, List.prefix_refl s⟩
  have hnone : part.filter (fun line => !line.isEmpty) = [] →
      (sources.take k ++ part.filter fun line => !line.isEmpty).dropLast <+: sources ∧
        ∀ s ∈ sources.take k ++ part.filter fun line => !line.isEmpty,
          ∃ source ∈ sources, s <+: source := by
    intro hnil
    rw [hnil, List.append_nil]
    exact ⟨(List.dropLast_prefix _).trans (List.take_prefix k sources), hfirst⟩
  rcases hpart with rfl | ⟨line', line, rfl, hline', hline⟩
  · exact hnone rfl
  · by_cases hempty : line' = []
    · exact hnone (by simp [hempty])
    · have hkept : [line'].filter (fun line => !line.isEmpty) = [line'] := by simp [hempty]
      rw [hkept, List.dropLast_concat]
      refine ⟨List.take_prefix k sources, fun s hs => ?_⟩
      rcases List.mem_append.mp hs with hs | hs
      · exact hfirst s hs
      · rw [List.mem_singleton.mp hs]
        exact ⟨line, List.mem_of_getElem? hline, hline'⟩

theorem find_separator (hanswer : ¬ kSep <:+: answer ++ [newline]) (tail : Bytes) :
    find kSep (answer ++ kSep ++ tail) = some answer.length :=
  (find_append_self_iff (by decide) kSep_overlap answer tail).mpr hanswer

theorem parseAsk_append (hanswer : ¬ kSep <:+: answer ++ [newline]) (tail : Bytes) :
    parseAsk (answer ++ kSep ++ tail) =
      (answer, (getlines newline tail).filter fun line => !line.isEmpty) := by
  have hbody : (answer ++ kSep ++ tail).isEmpty = false := by simp [kSep]
  simp only [parseAsk, hbody, Bool.false_eq_true, if_false, find_separator hanswer]
  rw [← List.length_append, List.drop_left, List.append_assoc, List.take_left]

theorem parseAsk_askBody (hanswer : ¬ kSep <:+: answer ++ [newline])
    (hsources : ∀ s ∈ sources, s ≠ [] ∧ newline ∉ s) :
    parseAsk (askBody answer sources) = (answer, sources) := by
  have hkept : sources.filter (fun line => !line.isEmpty) = sources := by
    rw [List.filter_eq_self]
    intro s hs
    simpa using (hsources s hs).1
  rw [askBody, parseAsk_append hanswer, getlines_intercalate hsources, hkept]

theorem parseAsk_prefix (hsources : ∀ s ∈ sources, s ≠ [] ∧ newline ∉ s)
    (hanswer : ¬ kSep <:+: answer ++ [newline]) {cut : Bytes} (h : cut <+: askBody answer sources) :
    (parseAsk cut).1 <+: answer ++ kSep ∧
    ((parseAsk cut).2 ≠ [] → (parseAsk cut).1 = answer) ∧
    (parseAsk cut).2.dropLast <+: sources ∧
    ∀ s ∈ (parseAsk cut).2, ∃ source ∈ sources, s <+: source := by
  by_cases hempty : cut = []
  · subst hempty
    simp [parseAsk]
  have hcut : cut.isEmpty = false := by simpa using hempty
  rcases hf : find kSep cut with _ | sep
  · -- the separator has not arrived, or only a part of it
    have hparse : parseAsk cut = (cut, []) := by simp [parseAsk, hcut, hf]
    rw [hparse]
    refine ⟨?_, fun hne => absurd rfl hne, by simp, by simp⟩
    by_cases hle : (answer ++ kSep).length ≤ cut.length
    · obtain ⟨rest, hrest⟩ :=
        List.prefix_of_prefix_length_le (List.prefix_append (answer ++ kSep) _) h hle
      rw [← hrest, find_separator hanswer] at hf
      cases hf
    · exact List.prefix_of_prefix_length_le h (List.prefix_append (answer ++ kSep) _)
        (not_le.mp hle).le
  · obtain ⟨rest, hrest⟩ := h
    have hwhole := find_append hf rest
    rw [hrest, askBody, find_separator hanswer] at hwhole
    obtain rfl : answer.length = sep := Option.some.inj hwhole
    have hlen : (answer ++ kSep).length ≤ cut.length := by
      rw [List.length_append]
      exact find_add_length_le hf
    obtain ⟨tail, htail⟩ : answer ++ kSep <+: cut :=
      List.prefix_of_prefix_length_le (List.prefix_append (answer ++ kSep) _) ⟨rest, hrest⟩ hlen
    have hsplit : tail <+: [newline].intercalate sources := by
      refine ⟨rest, ?_⟩
      rw [askBody, ← htail, List.append_assoc] at hrest
      exact List.append_cancel_left hrest
    obtain ⟨hfirst, hall⟩ := sources_prefix hsources hsplit
    rw [← htail, parseAsk_append hanswer]
    exact ⟨List.prefix_append _ _, fun _ => rfl, hfirst, hall⟩

end Ask

end SemanticSearch.VectorClient
