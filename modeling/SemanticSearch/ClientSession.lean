import SemanticSearch.AskAnswer
import SemanticSearch.CommandLine
import SemanticSearch.FileStore
import SemanticSearch.Reassembly
import SemanticSearch.SearchHits

namespace SemanticSearch

open FileSystem

/-- No occurrence of the pattern begins in the text, whatever follows it. -/
def Skips (pat a : Bytes) : Prop := ∀ b, find pat (a ++ b) = (find pat b).map (· + a.length)

section Skips

variable {pat a b : Bytes} {c : Byte}

theorem Skips.append (ha : Skips pat a) (hb : Skips pat b) : Skips pat (a ++ b) := by
  intro t
  rw [List.append_assoc, ha, hb, Option.map_map, List.length_append]
  congr 1
  funext i
  exact (by omega : i + b.length + a.length = i + (a.length + b.length))

theorem skips_concat (hc : c ∉ pat) (ha : ¬ pat <:+: a) : Skips pat (a ++ [c]) := by
  intro t
  rw [List.append_assoc, List.singleton_append, List.length_append, List.length_singleton]
  induction a with
  | nil =>
    have hno : ¬ pat.isPrefixOf (c :: t) := by
      intro hp
      cases pat with
      | nil => exact ha (List.nil_infix)
      | cons x pat =>
        obtain ⟨rfl, -⟩ := List.cons_prefix_cons.mp (List.isPrefixOf_iff_prefix.mp hp)
        exact hc List.mem_cons_self
    rw [List.nil_append, find, if_neg hno, List.length_nil, Nat.zero_add]
  | cons x a ih =>
    have hno : ¬ pat.isPrefixOf (x :: (a ++ c :: t)) := by
      intro hp
      have hp' : pat <+: (x :: a) ++ c :: t := List.isPrefixOf_iff_prefix.mp hp
      rcases List.prefix_or_prefix_of_prefix hp' (List.prefix_append (x :: a) (c :: t)) with h | h
      · exact ha h.isInfix
      · obtain ⟨r, rfl⟩ := h
        cases r with
        | nil => exact ha ⟨[], [], by simp⟩
        | cons y r =>
          obtain ⟨rfl, -⟩ := List.cons_prefix_cons.mp ((List.prefix_append_right_inj _).mp hp')
          exact hc (by simp)
    rw [List.cons_append, find, if_neg hno, ih fun h => ha (h.trans (List.suffix_cons x a).isInfix),
      Option.map_map, List.length_cons]
    rfl

theorem find_self (h : pat ≠ []) (t : Bytes) : find pat (pat ++ t) = some 0 :=
  (find_eq_some_iff h).mpr ⟨List.prefix_append pat t, fun j hj => absurd hj (Nat.not_lt_zero j)⟩

end Skips

/-- `content-length:` does not occur, in letters of any case. `ReadBody` would take it for the
header, wherever it stands. -/
def NamesNoLength (t : Bytes) : Prop := ¬ contentLengthKey <:+: t.map toLower

instance (t : Bytes) : Decidable (NamesNoLength t) := inferInstanceAs (Decidable (¬ _))

def isXdigit (c : Byte) : Bool := isDigit c || (97 ≤ c && c ≤ 102) || (65 ≤ c && c ≤ 70)

/-- What `inet_pton` accepts has only these bytes. -/
def IsAddress (host : Bytes) : Prop := ∀ c ∈ host, isXdigit c ∨ c = colon ∨ c = 46

instance (host : Bytes) : Decidable (IsAddress host) :=
  List.decidableBAll (fun c => isXdigit c ∨ c = colon ∨ c = 46) host

theorem addressByte_ok {c : Byte} (h : isXdigit c ∨ c = colon ∨ c = 46) :
    isSpace c = false ∧ toLower c ≠ 110 := by
  have hall : ∀ n < 256, isXdigit (UInt8.ofNat n) ∨ UInt8.ofNat n = colon ∨ UInt8.ofNat n = 46 →
      isSpace (UInt8.ofNat n) = false ∧ toLower (UInt8.ofNat n) ≠ 110 := by decide +kernel
  have hc := hall c.toNat c.toNat_lt
  rw [UInt8.ofNat_toNat] at hc
  exact hc h

theorem IsAddress.noSpace {host : Bytes} (h : IsAddress host) : NoSpace host :=
  fun c hc => (addressByte_ok (h c hc)).1

theorem IsAddress.namesNoLength {host : Bytes} (h : IsAddress host) (port : ℕ) :
    NamesNoLength (host ++ text ":" ++ decimal port) := by
  intro hkey
  have hmem : (110 : Byte) ∈ (host ++ text ":" ++ decimal port).map toLower :=
    hkey.subset (by decide)
  obtain ⟨c, hc, hn⟩ := List.mem_map.mp hmem
  have hbyte : isXdigit c ∨ c = colon ∨ c = 46 := by
    simp only [List.mem_append] at hc
    rcases hc with (hc | hc) | hc
    · exact h c hc
    · exact Or.inr (Or.inl (List.mem_singleton.mp hc))
    · left
      simp [isXdigit, isDigit_of_mem_decimal hc]
  exact (addressByte_ok hbyte).2 hn

section Request

variable {host method server_path body : Bytes} {port : ℕ}

/-- The lines of the client in front of the length. -/
def preamble (host port method path : Bytes) : Bytes :=
  method ++ text " " ++ path ++ text " HTTP/1.1" ++ crlf ++ text "Host: " ++ host ++ text ":" ++
    port ++ crlf ++ text "User-Agent: searchclient/1.0" ++ crlf

/-- The length, and the end of the header block. -/
def epilogue (body : Bytes) : Bytes :=
  (if body ≠ [] then
    text "Content-Length: " ++ decimal body.length ++ crlf ++
      text "Content-Type: application/octet-stream" ++ crlf
  else []) ++ text "Connection: close" ++ crlf ++ crlf

theorem sendHttpRequest_eq (host port method path body : Bytes) :
    sendHttpRequest host port method path body =
      preamble host port method path ++ epilogue body ++ body := by
  simp [sendHttpRequest, preamble, epilogue]

theorem skips_preamble (hhost : IsAddress host) (port : ℕ) (hmethod : method ∈ clientMethods)
    (hpath : NamesNoLength server_path) :
    Skips contentLengthKey
      ((preamble host (decimal port) method (staticPath server_path)).map toLower) := by
  have hmethods : ∀ m ∈ clientMethods, NamesNoLength m := by decide
  have htext : (preamble host (decimal port) method (staticPath server_path)).map toLower =
      (method.map toLower ++ [space]) ++ (text "/static" ++ [slash]) ++
        (server_path.map toLower ++ [space]) ++ (text "http/1.1\r\nhost:" ++ [space]) ++
        ((host ++ text ":" ++ decimal port).map toLower ++ [carriageReturn]) ++
        (text "\nuser-agent: searchclient/1.0\r" ++ [newline]) := by
    have h1 : (text " ").map toLower = [space] := by decide
    have h2 : (text "/static/").map toLower = text "/static" ++ [slash] := by decide
    have h3 : ∀ t, (text " HTTP/1.1").map toLower ++ (crlf.map toLower ++
        ((text "Host: ").map toLower ++ t)) =
          [space] ++ (text "http/1.1\r\nhost:" ++ ([space] ++ t)) := fun t => rfl
    have h4 : crlf.map toLower ++ ((text "User-Agent: searchclient/1.0").map toLower ++
        crlf.map toLower) =
          [carriageReturn] ++ (text "\nuser-agent: searchclient/1.0\r" ++ [newline]) := by decide
    simp only [preamble, staticPath, List.map_append, List.append_assoc, h1, h2, h3, h4]
  rw [htext]
  exact (((((skips_concat (by decide) (hmethods method hmethod)).append
    (skips_concat (by decide) (by decide))).append (skips_concat (by decide) hpath)).append
    (skips_concat (by decide) (by decide))).append
    (skips_concat (by decide) (hhost.namesNoLength port))).append
    (skips_concat (by decide) (by decide))

theorem announcesLength_client (hhost : IsAddress host) (port : ℕ)
    (hmethod : method ∈ clientMethods) (hpath : NamesNoLength server_path)
    (hbody : body.length < ulongBound) :
    AnnouncesLength (preamble host (decimal port) method (staticPath server_path) ++ epilogue body)
      body.length := by
  have hskips := skips_preamble hhost port hmethod hpath
  unfold AnnouncesLength
  rw [List.map_append, hskips]
  by_cases h0 : body = []
  · subst h0
    have hnone : find contentLengthKey ((epilogue []).map toLower) = none := by decide
    rw [hnone]
    rfl
  · obtain ⟨rest, hrest⟩ : ∃ rest, epilogue body =
        text "Content-Length:" ++ ([space] ++ (decimal body.length ++ (crlf ++ rest))) :=
      ⟨text "Content-Type: application/octet-stream" ++ (crlf ++ (text "Connection: close" ++
        (crlf ++ crlf))), by
        have h1 : text "Content-Length: " = text "Content-Length:" ++ [space] := rfl
        simp [epilogue, h0, h1]⟩
    have hkey : (text "Content-Length:").map toLower = contentLengthKey := by decide
    rw [hrest, List.map_append, hkey, find_self (by decide), Option.map_some, Nat.zero_add,
      List.length_map]
    refine ⟨1, decimal body.length, rest, ?_, decimal_ne_nil _, fun c hc => isDigit_of_mem_decimal hc,
      digitsValue_decimal _, hbody⟩
    have hdrop : ∀ a key t : Bytes, key.length = contentLengthKey.length →
        (a ++ (key ++ t)).drop (a.length + contentLengthKey.length) = t := by
      intro a key t hlen
      rw [← hlen, ← List.length_append, ← List.append_assoc, List.drop_left]
    rw [hdrop _ _ _ (by decide)]
    simp

theorem isHeaderBlock_client (hhost : IsAddress host) (port : ℕ) (hmethod : method ∈ clientMethods)
    (hpath : NoSpace server_path) (body : Bytes) :
    IsHeaderBlock
      (preamble host (decimal port) method (staticPath server_path) ++ epilogue body) := by
  have hwhole := staticPath_ok hpath
  have hrender := render_clientRequest hhost.noSpace (noSpace_decimal port) hmethod hwhole body
  rw [sendHttpRequest_eq] at hrender
  rw [← List.append_cancel_right hrender]
  exact (clientRequest hhost.noSpace (noSpace_decimal port) hmethod hwhole body).isHeaderBlock

end Request

/-- The path of a request in front of its query. -/
def beforeQuery (server_path : Bytes) : Bytes := server_path.takeWhile (· ≠ questionMark)

theorem path_of_sides {server_path path query : Bytes}
    (h : SidesOfQuery (staticPath server_path) path query) :
    path = staticPath (beforeQuery server_path) := by
  have hpath : path = (staticPath server_path).takeWhile (· ≠ questionMark) := by
    rcases h with ⟨hno, rfl, -⟩ | ⟨hno, heq⟩
    · symm
      rw [List.takeWhile_eq_self_iff]
      intro c hc
      simpa using fun he : c = questionMark => hno (he ▸ hc)
    · rw [heq, takeWhile_ne hno]
  have hplain : questionMark ∉ text "/static/" := by decide
  rw [hpath, staticPath, List.takeWhile_append_of_pos fun c hc =>
    decide_eq_true (ne_of_mem_of_not_mem hc hplain)]
  rfl

/-- The call of `StaticFile.cpp` behind the request. -/
def Ask.call : Ask → StaticCall
  | get server_path _ => .get (beforeQuery server_path)
  | delete server_path => .delete (beforeQuery server_path)
  | upload overwrite server_path data => .put (beforeQuery server_path) data overwrite

@[simp] theorem Ask.path_call (a : Ask) : a.call.path = beforeQuery a.server_path := by
  cases a <;> rfl

theorem Ask.method_mem (a : Ask) : a.method ∈ clientMethods := by
  have hall : text "GET" ∈ clientMethods ∧ text "DELETE" ∈ clientMethods ∧
      text "PUT" ∈ clientMethods ∧ text "POST" ∈ clientMethods := by decide
  cases a with
  | get => exact hall.1
  | delete => exact hall.2.1
  | upload overwrite =>
    cases overwrite with
    | true => exact hall.2.2.1
    | false => exact hall.2.2.2

section Server

variable {V : Type} {ctx : ClientCtx V} {w : World V} {host : Bytes} {port : ℕ} {a : Ask}
  {response : Bytes}

theorem respond_static {r : Request} (hmethod : r.method = a.method)
    (hpath : r.path = staticPath a.call.path) (hbody : r.body = a.body)
    (hserve : (serveStatic ctx.files_root w.fs a.call).1 = .ok response) :
    ∃ w', respond ctx r w = .ok (response, w') ∧
      w'.fs = (serveStatic ctx.files_root w.fs a.call).2 := by
  have hprefix : staticPrefix <+: r.path := hpath ▸ List.prefix_append _ _
  have hdrop : r.path.drop 8 = a.call.path := by
    rw [hpath]
    rfl
  cases a with
  | get server_path local_path =>
    obtain ⟨h1, h2, h3, h4, h5, h6⟩ := staticPrefix_ne hprefix
    have hget : handleGetRequest ctx r w = .ok response := by
      simp only [handleGetRequest, h1, h2, h3, h4, h5, h6, or_self, if_false, if_pos hprefix, hdrop]
      rw [show staticGet w.fs ctx.files_root (Ask.get server_path local_path).call.path =
        .ok response from hserve]
      rfl
    have hmethod' : r.method = text "GET" := hmethod
    refine ⟨w, ?_, rfl⟩
    rw [respond, if_pos hmethod', hget]
    rfl
  | delete server_path =>
    have hother : text "DELETE" ≠ text "GET" ∧ text "DELETE" ≠ text "PUT" ∧
        text "DELETE" ≠ text "POST" := by decide
    simp only [Ask.method] at hmethod
    have hresponse : (staticDelete w.fs ctx.files_root (Ask.delete server_path).call.path).1 =
        response := Except.ok.inj hserve
    simp only [respond, hmethod, hother, if_false, if_pos hprefix, handleStaticMutation, hdrop,
      if_true, hresponse]
    split_ifs <;> exact ⟨_, rfl, rfl⟩
  | upload overwrite server_path data =>
    have hresponse : (staticPut w.fs ctx.files_root (Ask.upload overwrite server_path data).call.path
        data overwrite).1 = response := Except.ok.inj hserve
    have hbody' : r.body = data := hbody
    have hmutation : handleStaticMutation ctx r w =
        putAndIndex ctx (Ask.upload overwrite server_path data).call.path data overwrite w := by
      have hother : text "POST" ≠ text "PUT" := by decide
      cases overwrite with
      | true =>
        have hput : r.method = text "PUT" := hmethod
        rw [handleStaticMutation, if_pos hput, hdrop, hbody']
      | false =>
        have hpost : r.method = text "POST" := hmethod
        rw [handleStaticMutation, hpost, if_neg hother, if_pos rfl, hdrop, hbody']
    have hget : r.method ≠ text "GET" := by
      have hother : text "PUT" ≠ text "GET" ∧ text "POST" ≠ text "GET" := by decide
      rw [hmethod]
      cases overwrite with
      | true => exact hother.1
      | false => exact hother.2
    rw [respond, if_neg hget, if_pos hprefix, hmutation]
    simp only [putAndIndex, hresponse]
    split_ifs <;> exact ⟨_, rfl, rfl⟩

theorem closes_client {r : Request} {body : Bytes} {port : Bytes}
    (h : ∀ key, r.headers[key]? = (lowerNames (sentHeaders host port body)).lookup key) :
    Closes r := by
  rw [Closes, h]
  by_cases hbody : body = []
  · rw [sentHeaders, if_neg (not_not.mpr hbody)]
    rfl
  · rw [sentHeaders, if_pos hbody]
    rfl

/-- The request can be sent, and the server takes no part of its path for a length. -/
structure Ask.Sendable (a : Ask) : Prop where
  server_path : a.server_path ≠ [] ∧ NoSpace a.server_path
  length : NamesNoLength a.server_path
  body : a.body.length < ulongBound

theorem handleClient_ask (hhost : IsAddress host) (port : ℕ) (ha : a.Sendable) {s : Socket}
    (hs : stream s = a.request host (decimal port)) (hc : Clean s) (tail : Socket)
    (hserve : (serveStatic ctx.files_root w.fs a.call).1 = .ok response) :
    ∃ conn, handleClient ctx ⟨w, s ++ tail, []⟩ = .ok conn ∧
      conn.served.map Prod.snd = [response] ∧
      conn.world.fs = (serveStatic ctx.files_root w.fs a.call).2 := by
  have hH := isHeaderBlock_client hhost port a.method_mem ha.server_path.2 a.body
  have hn := announcesLength_client hhost port a.method_mem ha.length ha.body
  rw [Ask.request, sendHttpRequest_eq] at hs
  obtain ⟨⟨s', hread, -⟩, -⟩ := readRawRequest_reassembles hH hn hs hc tail
  obtain ⟨r, hr, hmethod, hsides, hheaders, hbody⟩ := parseRequest_sendHttpRequest a.method_mem
    hhost.noSpace (noSpace_decimal port) ha.server_path ha.body
  rw [sendHttpRequest_eq] at hr
  have hpath : r.path = staticPath a.call.path := a.path_call ▸ path_of_sides hsides
  obtain ⟨w', hrespond, hfs⟩ := respond_static hmethod hpath hbody hserve
  set H := preamble host (decimal port) a.method (staticPath a.server_path) ++ epilogue a.body
  have hpass : pass ctx ⟨w, s ++ tail, []⟩ =
      .ok (false, ⟨w', s' ++ tail, [(H ++ a.body, response)]⟩) := by
    rw [pass_of_some (c := ⟨w, s ++ tail, []⟩) hread (hH.find_append _), hr]
    simp only [bind, Except.bind, hrespond, closes_client hheaders]
    rfl
  exact ⟨_, handleClient_of_stop hpass, rfl, hfs⟩

end Server

def Outcome.phrase : Outcome → Bytes
  | notFound => text "Not Found"
  | conflict => text "Conflict"
  | failed => text "Internal Server Error"
  | _ => text "OK"

/-- What the user is told, and the local files after; nothing comes back where no connection is
made. -/
def Ask.learned (fs : FileSystem) (a : Ask) : Option Outcome → Bytes × FileSystem
  | none => (text "request failed\n", fs)
  | some o =>
    match a, o with
    | .get _ local_path, .content data =>
      if local_path = [] then (data ++ [newline], fs)
      else match fs.openTarget local_path with
        | .error _ => (text "failed to open " ++ local_path ++ [newline], fs)
        | .ok q => (text "saved to " ++ local_path ++ [newline], fs.set q (.file data))
    | .delete _, .removed => (text "OK\n", fs)
    | .delete _, _ => (text "HTTP 404\n", fs)
    | _, o => (o.phrase ++ [newline], fs)

def Layout.ask (l : Layout) (store : Store) (a : Ask) (connected : Bool) : Option Outcome × Store :=
  if connected then ((l.operate store a.call).1, (l.operate store a.call).2) else (none, store)

structure MapShell extends Desk where
  store : Store

section Map

variable (l : Layout)

def mapStep (s : MapShell) (x : Bytes × Option Carrier) : MapShell :=
  if s.turn = .next then
    match react s.fs x.1 with
    | .prints out => { s with out := s.out ++ prompt ++ out }
    | .stops turn => { s with out := s.out ++ prompt, turn }
    | .asks a =>
      let (outcome, store) := l.ask s.store a x.2.isSome
      let (out, fs) := a.learned s.fs outcome
      { s with fs, out := s.out ++ prompt ++ out, store }
  else s

def MapShell.welcome (s : MapShell) : MapShell := { s with out := s.out ++ printHelp }

def mapMain (stdin : Bytes) (carriers : ℕ → Option Carrier) (s : MapShell) : MapShell :=
  let s' := Runs.run (mapStep l) s.welcome (inputLines stdin carriers)
  { s' with toDesk := s'.toDesk.leave }

end Map

def Ask.Meets : Ask → Outcome → Prop
  | get _ _, o => (∃ data, o = .content data) ∨ o = .notFound
  | delete _, o => o = .removed ∨ o = .notFound
  | upload _ _ _, o => o = .replaced ∨ o = .created ∨ o = .conflict ∨ o = .failed

theorem Ask.meets_operate (a : Ask) (l : Layout) (store : Store) :
    a.Meets (l.operate store a.call).1 := by
  cases a with
  | get server_path local_path =>
    simp only [Ask.call, Layout.operate, Ask.Meets]
    split
    · next q _ => cases store q <;> simp
    · exact Or.inr rfl
  | delete server_path =>
    simp only [Ask.call, Layout.operate, Ask.Meets]
    split
    · split_ifs <;> simp
    · exact Or.inr rfl
  | upload overwrite server_path data =>
    simp only [Ask.call, Layout.operate, Ask.Meets]
    split
    · split_ifs <;> simp
    · simp
    · split_ifs <;> simp

theorem getReceived_content (fs : FileSystem) (path local_path data : Bytes) :
    let g := getReceived fs local_path (some ((Outcome.content data).response path))
    (g.out, g.fs) = (Ask.get path local_path).learned fs (some (.content data)) := by
  have hcode : ¬ 400 ≤ (parseStatus ((Outcome.content data).response path)).getD 0 := by
    intro h
    have hok : kHttpOk ∈ staticGetStatuses := by decide
    exact ((le_parseStatus_iff hok (Outcome.answers_response path (.content data))
      List.prefix_rfl).mp h).1 rfl
  have hbody : responseBody ((Outcome.content data).response path) = data :=
    responseBody_ok data (inLine_contentTypeFor path)
  intro g
  simp only [g, getReceived, if_neg hcode, hbody, Ask.learned]
  split_ifs
  · rfl
  · cases fs.openTarget local_path <;> rfl

theorem Ask.received_eq (fs : FileSystem) {a : Ask} {o : Outcome} (h : a.Meets o) (path : Bytes) :
    a.received fs (some (o.response path)) = a.learned fs (some o) := by
  -- only a content comes with the type of its path
  have hpath : (∃ data, o = .content data) ∨ o.response path = o.response [] := by
    cases o with
    | content data => exact Or.inl ⟨data, rfl⟩
    | _ => exact Or.inr rfl
  cases a with
  | get server_path local_path =>
    rcases h with ⟨data, rfl⟩ | rfl
    · exact getReceived_content fs path local_path data
    · have hcode : 400 ≤ (parseStatus (Outcome.notFound.response [])).getD 0 := by decide +kernel
      have hreason : reasonPhrase (Outcome.notFound.response []) = text "Not Found" := by
        decide +kernel
      simp only [Ask.received, hpath.resolve_left (by simp), getReceived, if_pos hcode, hreason]
      rfl
  | delete server_path =>
    have hall : deleteReceived (some (Outcome.removed.response [])) = text "OK\n" ∧
        deleteReceived (some (Outcome.notFound.response [])) = text "HTTP 404\n" := by
      decide +kernel
    rcases h with rfl | rfl
    · simp only [Ask.received, hpath.resolve_left (by simp), hall, Ask.learned]
    · simp only [Ask.received, hpath.resolve_left (by simp), hall, Ask.learned]
  | upload overwrite server_path data =>
    have hall : ∀ o ∈ [Outcome.replaced, .created, .conflict, .failed],
        uploadReceived (some (o.response [])) = o.phrase ++ [newline] := by decide +kernel
    have hone : o ∈ [Outcome.replaced, .created, .conflict, .failed] := by
      simpa [Ask.Meets] using h
    have hresponse : o.response path = o.response [] := by
      apply hpath.resolve_left
      rintro ⟨data, rfl⟩
      simp at hone
    simp only [Ask.received, hresponse, hall o hone]
    rfl

/-- The connection carries the request and the response whole. What stands behind the request is
not looked at. -/
structure Carrier.Intact (c : Carrier) (request response : Bytes) : Prop where
  sent : (sendAll c.writes request).ok
  up : ∃ s tail, c.up request = s ++ tail ∧ stream s = request ∧ Clean s
  answered : (sendAll c.answers response).ok
  down : stream (c.down response) = response
  closed : ClosesNormally (c.down response)

section Refines

variable {V : Type} {ctx : ClientCtx V} {w : World V} {host : Bytes} {port : ℕ} {a : Ask}
  {c : Carrier}

theorem exchange_intact (hhost : IsAddress host) (ha : a.Sendable) {response : Bytes}
    (hc : c.Intact (a.request host (decimal port)) response)
    (hserve : (serveStatic ctx.files_root w.fs a.call).1 = .ok response) :
    ∃ w', exchange ctx (some w) (a.request host (decimal port)) (some c) =
        (some response, some w') ∧ w'.fs = (serveStatic ctx.files_root w.fs a.call).2 := by
  obtain ⟨s, tail, hup, hs, hclean⟩ := hc.up
  obtain ⟨conn, hconn, hserved, hfs⟩ := handleClient_ask hhost port ha hs hclean tail hserve
  have hsent := (ok_sendAll_iff _ _).mp hc.sent
  have hanswered := (ok_sendAll_iff _ _).mp hc.answered
  have hreceived : receive (c.down response) [] = some response := by
    rw [receive_eq hc.closed, hc.down, List.nil_append]
  refine ⟨conn.world, ?_, hfs⟩
  simp only [exchange, hsent, hup, hconn, if_pos hc.sent, hserved, sendEach, hanswered,
    List.append_nil, hreceived]

/-- What the user can know of the client and the server. -/
def Shell.seen (s : Shell V) : MapShell :=
  { s with store := s.server.elim (fun _ => none) fun w => w.fs.contents }

/-- A connection that the line asks for carries everything, and the call is admitted. -/
structure LineOk (ctx : ClientCtx V) (host : Bytes) (port : ℕ) (s : Shell V)
    (x : Bytes × Option Carrier) : Prop where
  ask : s.turn = .next → ∀ a, react s.fs x.1 = .asks a → ∀ c ∈ x.2, ∀ w ∈ s.server,
    Admits ctx.files_root w.fs a.call ∧ NamesNoLength a.server_path ∧ a.body.length < ulongBound ∧
      c.Intact (a.request host (decimal port))
        ((w.fs.layout.operate w.fs.contents a.call).1.response a.call.path)

theorem fst_arguments (input_string : Bytes) :
    (arguments input_string).1 = ((extractWord input_string).map Prod.fst).getD [] := by
  unfold arguments
  rcases extractWord input_string with _ | ⟨word, rest⟩ <;> rfl

theorem react_asks {fs : FileSystem} {line : Bytes} (h : react fs line = .asks a) :
    a.server_path ≠ [] ∧ NoSpace a.server_path := by
  simp only [react, ← fst_arguments] at h
  split_ifs at h with h1 h2 h3 h4 h5 h6 h7 h8 h9
  · obtain rfl := Reaction.asks.inj h
    exact ⟨h5, noSpace_arguments _⟩
  · obtain rfl := Reaction.asks.inj h
    exact ⟨h7, noSpace_arguments _⟩
  · split at h
    · cases h
    · cases h
    · obtain rfl := Reaction.asks.inj h
      exact ⟨(not_or.mp h9).1, noSpace_arguments _⟩

/-- The server is up, over a tree without links with the directories of `l`. -/
def Shell.Up (l : Layout) (s : Shell V) : Prop :=
  ∃ w, s.server = some w ∧ w.fs.LinkFree ∧ w.fs.layout = l

/-- A line that asks for something gets the answer of the call. -/
theorem shellStep_asks (hhost : IsAddress host) {s : Shell V} (hserver : s.server = some w)
    (hfree : w.fs.LinkFree) {x : Bytes × Option Carrier} (hok : LineOk ctx host port s x)
    (hturn : s.turn = .next) (hreact : react s.fs x.1 = .asks a) (hx : x.2 = some c) :
    ∃ w', w'.fs = staticStep ctx.files_root w.fs a.call ∧
      shellStep ctx host (decimal port) s x =
        { s with
          fs := (a.learned s.fs (some (w.fs.layout.operate w.fs.contents a.call).1)).2
          out := s.out ++ prompt ++
            (a.learned s.fs (some (w.fs.layout.operate w.fs.contents a.call).1)).1
          server := some w' } := by
  obtain ⟨hadmits, hlength, hbody, hintact⟩ :=
    hok.ask hturn a hreact c (by simp [hx]) w (by simp [hserver])
  have hone := serveStatic_refines hfree hadmits
  obtain ⟨w', hexchange, hfs⟩ :=
    exchange_intact hhost ⟨react_asks hreact, hlength, hbody⟩ hintact hone.response
  have hreceived := a.received_eq s.fs (a.meets_operate w.fs.layout w.fs.contents) a.call.path
  refine ⟨w', hfs, ?_⟩
  rw [shellStep, if_pos hturn, hreact]
  simp only [hx, hserver, hexchange, hreceived]

theorem shellStep_refines (hhost : IsAddress host) {l : Layout} {s : Shell V} (hup : s.Up l)
    {x : Bytes × Option Carrier} (hok : LineOk ctx host port s x) :
    (shellStep ctx host (decimal port) s x).Up l ∧
      (shellStep ctx host (decimal port) s x).seen = mapStep l s.seen x := by
  by_cases hturn : s.turn = .next
  · have hseen : s.seen.turn = .next ∧ s.seen.fs = s.fs := ⟨hturn, rfl⟩
    rw [mapStep, if_pos hseen.1, hseen.2]
    rcases hreact : react s.fs x.1 with out | turn | a
    · rw [shellStep, if_pos hturn, hreact]
      exact ⟨hup, rfl⟩
    · rw [shellStep, if_pos hturn, hreact]
      exact ⟨hup, rfl⟩
    · rcases hx : x.2 with _ | c
      · rw [shellStep, if_pos hturn, hreact, hx]
        refine ⟨hup, ?_⟩
        cases a <;> rfl
      · obtain ⟨w, hserver, hfree, hlayout⟩ := hup
        obtain ⟨w', hfs, hstep⟩ := shellStep_asks hhost hserver hfree hok hturn hreact hx
        have hadmits := (hok.ask hturn a hreact c (by simp [hx]) w (by simp [hserver])).1
        have hone := serveStatic_refines hfree hadmits
        rw [hlayout] at hone hstep
        have hask : l.ask s.seen.store a true =
            (some (l.operate w.fs.contents a.call).1, w'.fs.contents) := by
          simp only [Layout.ask, if_true, Shell.seen, hserver, Option.elim, hfs, staticStep,
            hone.contents]
        rw [hstep]
        simp only [Option.isSome_some, hask]
        exact ⟨⟨w', rfl, hfs ▸ hone.linkFree, hfs ▸ hone.layout⟩, rfl⟩
  · have hseen : ¬ s.seen.turn = .next := hturn
    rw [shellStep, if_neg hturn, mapStep, if_neg hseen]
    exact ⟨hup, rfl⟩

variable {l : Layout} {s : Shell V} {lines : List (Bytes × Option Carrier)}

theorem run_shellStep (hhost : IsAddress host) (hup : s.Up l)
    (hok : Runs.AllOk (shellStep ctx host (decimal port)) (LineOk ctx host port) s lines) :
    (Runs.run (shellStep ctx host (decimal port)) s lines).Up l ∧
      (Runs.run (shellStep ctx host (decimal port)) s lines).seen =
        Runs.run (mapStep l) s.seen lines :=
  hok.simulates (fun _ _ hup hx => shellStep_refines hhost hup hx) hup

/-- The client over the server is the client over the map: whatever is typed and however requests
and responses travel, it prints the same and saves the same files, the server stays up, and its
files are those of the map. -/
theorem session_refines (hhost : IsAddress host) (hup : s.Up l) {stdin : Bytes}
    {carriers : ℕ → Option Carrier}
    (hok : Runs.AllOk (shellStep ctx host (decimal port)) (LineOk ctx host port) s.welcome
      (inputLines stdin carriers)) :
    (shellMain ctx host (decimal port) stdin carriers s).Up l ∧
      (shellMain ctx host (decimal port) stdin carriers s).seen =
        mapMain l stdin carriers s.seen := by
  obtain ⟨hup', hseen⟩ := run_shellStep hhost (s := s.welcome) hup hok
  refine ⟨hup', ?_⟩
  rw [mapMain, show s.seen.welcome = s.welcome.seen from rfl, ← hseen]
  rfl

/-- The line asks for nothing under the name of `path`. -/
def LeavesAlone (l : Layout) (path : Bytes) (s : Shell V) (x : Bytes × Option Carrier) : Prop :=
  ∀ a, react s.fs x.1 = .asks a → l.named a.call.path ≠ l.named path

theorem mapStep_keeps {s : MapShell} {x : Bytes × Option Carrier} {q : RealPath}
    (h : ∀ a, react s.fs x.1 = .asks a → l.named a.call.path ≠ .name q) :
    (mapStep l s x).store q = s.store q := by
  unfold mapStep
  split_ifs
  · rcases hreact : react s.fs x.1 with out | turn | a
    · rfl
    · rfl
    · cases x.2 with
      | none => rfl
      | some c => exact Layout.operate_other s.store (h a hreact)
  · rfl

theorem run_keeps (hhost : IsAddress host) (hup : s.Up l)
    (hok : Runs.AllOk (shellStep ctx host (decimal port)) (LineOk ctx host port) s lines)
    {path : Bytes} {q : RealPath} (hq : l.named path = .name q)
    (hleaves : Runs.AllOk (shellStep ctx host (decimal port)) (LeavesAlone l path) s lines) :
    (Runs.run (shellStep ctx host (decimal port)) s lines).seen.store q = s.seen.store q := by
  induction lines generalizing s with
  | nil => rfl
  | cons x lines ih =>
    obtain ⟨hx, hrest⟩ := Runs.allOk_cons.mp hok
    obtain ⟨hx', hrest'⟩ := Runs.allOk_cons.mp hleaves
    obtain ⟨hup', hseen⟩ := shellStep_refines hhost hup hx
    rw [Runs.run_cons, ih hup' hrest hrest', hseen]
    exact mapStep_keeps fun a ha => hq ▸ hx' a ha

theorem Layout.operate_put {store : Store} {path data : Bytes} {overwrite : Bool}
    (hconflict : (l.operate store (.put path data overwrite)).1 ≠ .conflict)
    (hfailed : (l.operate store (.put path data overwrite)).1 ≠ .failed) :
    ∃ q, l.named path = .name q ∧ (l.operate store (.put path data overwrite)).2 q = some data := by
  simp only [Layout.operate] at hconflict hfailed ⊢
  rcases hn : l.named path with _ | q | _
  · simp only [hn] at hconflict hfailed
    split_ifs at hconflict hfailed <;> simp at hconflict hfailed
  · simp only [hn] at hconflict ⊢
    refine ⟨q, rfl, ?_⟩
    split_ifs at hconflict ⊢
    · simp at hconflict
    · exact Function.update_self ..
    · exact Function.update_self ..
  · simp [hn] at hfailed

theorem stored_of_ok (hhost : IsAddress host) (hup : s.Up l) {x : Bytes × Option Carrier}
    (hok : LineOk ctx host port s x) {overwrite : Bool} {server_path data : Bytes}
    (hreact : react s.fs x.1 = .asks (.upload overwrite server_path data))
    (hdone : (shellStep ctx host (decimal port) s x).out = s.out ++ prompt ++ text "OK\n") :
    ∃ q, l.named (beforeQuery server_path) = .name q ∧
      (shellStep ctx host (decimal port) s x).seen.store q = some data := by
  have hseen := (shellStep_refines hhost hup hok).2
  have hout : (mapStep l s.seen x).out = s.out ++ prompt ++ text "OK\n" := hseen ▸ hdone
  have hturn : s.seen.turn = .next := by
    by_contra hturn
    rw [mapStep, if_neg hturn] at hout
    have hlen := congrArg List.length hout
    simp [Shell.seen, prompt, text] at hlen
  have hreact' : react s.seen.fs x.1 = .asks (.upload overwrite server_path data) := hreact
  rw [hseen]
  rw [mapStep, if_pos hturn, hreact'] at hout ⊢
  rcases hx : x.2 with _ | c
  · rw [hx] at hout
    have htold : text "request failed\n" = text "OK\n" := List.append_cancel_left hout
    exact absurd htold (by decide)
  · rw [hx] at hout
    have htold : ((l.operate s.seen.store (.put (beforeQuery server_path) data overwrite)).1.phrase ++
        [newline]) = text "OK\n" := List.append_cancel_left hout
    apply Layout.operate_put
    · intro hconflict
      rw [hconflict] at htold
      exact absurd htold (by decide)
    · intro hfailed
      rw [hfailed] at htold
      exact absurd htold (by decide)

/-- What is uploaded with an OK a later `get` of the same file brings back byte for byte, if what
is asked in between is for other files. -/
theorem upload_download (hhost : IsAddress host) (hup : s.Up l) {x y : Bytes × Option Carrier}
    (hok : Runs.AllOk (shellStep ctx host (decimal port)) (LineOk ctx host port) s
      (x :: (lines ++ [y])))
    {overwrite : Bool} {server_path data : Bytes}
    (hupload : react s.fs x.1 = .asks (.upload overwrite server_path data))
    (hdone : (shellStep ctx host (decimal port) s x).out = s.out ++ prompt ++ text "OK\n")
    (hleaves : Runs.AllOk (shellStep ctx host (decimal port))
      (LeavesAlone l (beforeQuery server_path)) (shellStep ctx host (decimal port) s x) lines)
    {s' : Shell V} (hs' : Runs.run (shellStep ctx host (decimal port)) s (x :: lines) = s')
    (hturn : s'.turn = .next) {server_path' local_path : Bytes}
    (hget : react s'.fs y.1 = .asks (.get server_path' local_path)) (hconn : y.2 = some c)
    (hname : l.named (beforeQuery server_path') = l.named (beforeQuery server_path)) :
    (local_path = [] →
      (shellStep ctx host (decimal port) s' y).out = s'.out ++ prompt ++ (data ++ [newline])) ∧
    ∀ q, s'.fs.openTarget local_path = .ok q →
      (shellStep ctx host (decimal port) s' y).fs.read local_path = some data := by
  obtain ⟨hx, hrest⟩ := Runs.allOk_cons.mp hok
  have hlines := hrest.of_prefix (List.prefix_append lines [y])
  obtain ⟨q, hq, hstored⟩ := stored_of_ok hhost hup hx hupload hdone
  have hup₁ := (shellStep_refines hhost hup hx).1
  have hkept := run_keeps hhost hup₁ hlines hq hleaves
  obtain ⟨hup', -⟩ := run_shellStep hhost hup₁ hlines
  have hy : LineOk ctx host port s' y := hs' ▸ hrest lines y (List.prefix_refl _)
  rw [← Runs.run_cons, hs'] at hkept hup'
  obtain ⟨w, hserver, hfree, hlayout⟩ := hup'
  have hcontent : (w.fs.layout.operate w.fs.contents (Ask.get server_path' local_path).call).1 =
      .content data := by
    have hdata : w.fs.contents q = some data := by
      rw [← hstored, ← hkept, Shell.seen, hserver]
      rfl
    rw [hlayout]
    simp only [Ask.call, Layout.operate, hname, hq, hdata, Option.elim]
  obtain ⟨w', -, hstep⟩ := shellStep_asks hhost hserver hfree hy hturn hget hconn
  rw [hstep, hcontent]
  constructor
  · rintro rfl
    rfl
  · intro q' ho
    have hpath : local_path ≠ [] := by
      rintro rfl
      exact openTarget_nil s'.fs q' ho
    simp only [Ask.learned, if_neg hpath, ho]
    exact read_set_openTarget ho data

end Refines

/-- The request comes in two pieces with an interrupted read between them, and then the connection
breaks. -/
def brokenBehind : Carrier where
  writes := [.took 4095]
  up b := push (b.take 20) (.again false :: push (b.drop 20) []) ++ [.failed]
  answers := [.took 4095]
  down b := push b []

theorem ok_sendAll_took {n : ℕ} {b : Bytes} (h : b.length ≤ n + 1) : (sendAll [.took n] b).ok := by
  cases b with
  | nil => rfl
  | cons c cs =>
    have hdrop : cs.drop n = [] := List.drop_of_length_le (by simpa using h)
    rw [sendAll, hdrop]
    rfl

theorem intact_brokenBehind {request response : Bytes} (h : request.length ≤ 4096)
    (h' : response.length ≤ 4096) : brokenBehind.Intact request response where
  sent := ok_sendAll_took h
  up := by
    refine ⟨_, [.failed], rfl, ?_, ?_⟩
    · simp [stream_push, stream]
    · apply clean_push
      intro e he
      rcases List.mem_cons.mp he with rfl | he
      · decide
      · exact clean_push_nil (request.drop 20) e he
  answered := ok_sendAll_took h'
  down := stream_push_nil response
  closed := closesNormally_push (by simp [ClosesNormally])

/-- A client with one file, in front of a server over the small tree. -/
def deskShell : Shell Unit where
  fs := FileSystem.empty.set [text "note"] (.file (text "hi"))
  server := some ⟨smallTree, ∅, ()⟩

def putNote : Bytes × Option Carrier := (text "put root/b note", some brokenBehind)
def getNote : Bytes × Option Carrier := (text "get root/b", some brokenBehind)

theorem react_putNote : react deskShell.fs putNote.1 =
    .asks (.upload true (text "root/b") (text "hi")) := by decide +kernel

theorem react_getNote (fs : FileSystem) : react fs getNote.1 = .asks (.get (text "root/b") []) := rfl

theorem lineOk_putNote (out : Bytes) :
    LineOk plainCtx (text "::1") 5950 { deskShell with out := out } putNote := by
  constructor
  intro _ a ha c hc w hw
  obtain rfl := Reaction.asks.inj (react_putNote.symm.trans ha)
  obtain rfl := Option.some.inj hc
  obtain rfl := Option.some.inj hw
  exact ⟨⟨by decide +kernel, by decide⟩, by decide, by decide,
    intact_brokenBehind (by decide +kernel) (by decide +kernel)⟩

theorem up_deskShell (out : Bytes) : Shell.Up smallTree.layout { deskShell with out := out } :=
  ⟨_, rfl, linkFree_smallTree, rfl⟩

theorem lineOk_getNote (out : Bytes) :
    LineOk plainCtx (text "::1") 5950
      (shellStep plainCtx (text "::1") (decimal 5950) { deskShell with out := out } putNote)
      getNote := by
  obtain ⟨w', hfs, hstep⟩ := shellStep_asks (by decide) (s := { deskShell with out := out }) rfl
    linkFree_smallTree (lineOk_putNote out) rfl react_putNote rfl
  rw [hstep]
  constructor
  intro _ a ha c hc w hw
  obtain rfl := Reaction.asks.inj ha
  obtain rfl := Option.some.inj hc
  obtain rfl := Option.some.inj hw
  rw [hfs]
  exact ⟨⟨by decide +kernel, by decide +kernel⟩, by decide, by decide,
    intact_brokenBehind (by decide +kernel) (by decide +kernel)⟩

theorem allOk_putNote (out : Bytes) :
    Runs.AllOk (shellStep plainCtx (text "::1") (decimal 5950)) (LineOk plainCtx (text "::1") 5950)
      { deskShell with out := out } [putNote, getNote] :=
  Runs.allOk_cons.mpr ⟨lineOk_putNote out, Runs.allOk_cons.mpr ⟨lineOk_getNote out, Runs.allOk_nil⟩⟩

def putAndGet : Bytes := text "put root/b note\nget root/b\n"

theorem inputLines_putAndGet :
    inputLines putAndGet (fun _ => some brokenBehind) = [putNote, getNote] := rfl

theorem session_refines_putNote :
    (shellMain plainCtx (text "::1") (decimal 5950) putAndGet (fun _ => some brokenBehind)
      deskShell).out = printHelp ++ text ">> OK\n>> hi\n>> " := by
  have hok := allOk_putNote printHelp
  rw [← inputLines_putAndGet] at hok
  have hseen := (session_refines (by decide) (up_deskShell []) hok).2
  have hout : (shellMain plainCtx (text "::1") (decimal 5950) putAndGet
      (fun _ => some brokenBehind) deskShell).out = _ := congrArg (fun m => m.out) hseen
  rw [hout]
  decide +kernel

theorem upload_download_putNote :
    (shellStep plainCtx (text "::1") (decimal 5950)
      (shellStep plainCtx (text "::1") (decimal 5950) deskShell putNote) getNote).out =
        (shellStep plainCtx (text "::1") (decimal 5950) deskShell putNote).out ++ prompt ++
          (text "hi" ++ [newline]) := by
  obtain ⟨w', -, hstep⟩ := shellStep_asks (by decide) (s := deskShell) rfl linkFree_smallTree
    (lineOk_putNote []) rfl react_putNote rfl
  have htold : ((Ask.upload true (text "root/b") (text "hi")).learned deskShell.fs
      (some (smallTree.layout.operate smallTree.contents
        (Ask.upload true (text "root/b") (text "hi")).call).1)).1 = text "OK\n" := by decide +kernel
  have hturn : (shellStep plainCtx (text "::1") (decimal 5950) deskShell putNote).turn = .next := by
    rw [hstep]
    rfl
  have hdone : (shellStep plainCtx (text "::1") (decimal 5950) deskShell putNote).out =
      deskShell.out ++ prompt ++ text "OK\n" := by
    rw [hstep, ← htold]
  have hok : Runs.AllOk (shellStep plainCtx (text "::1") (decimal 5950))
      (LineOk plainCtx (text "::1") 5950) deskShell (putNote :: ([] ++ [getNote])) :=
    allOk_putNote []
  exact (upload_download (by decide) (up_deskShell []) hok react_putNote hdone Runs.allOk_nil rfl
    hturn (react_getNote _) rfl rfl).1 rfl

end SemanticSearch
