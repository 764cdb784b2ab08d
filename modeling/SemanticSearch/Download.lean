import Mathlib.Data.List.DropRight
import SemanticSearch.HttpServer
import SemanticSearch.ReadingStream
import SemanticSearch.RequestRoundTrip
import SemanticSearch.ResponseFraming
import SemanticSearch.StaticEffects

namespace SemanticSearch

open FileSystem

/-- The receive loop of `SendHttpRequest`, nothing where `recv` fails. -/
def receive (s : Socket) (http_response : Bytes) : Option Bytes :=
  match _h : read 4096 s with
  | (.got buf, s') => receive s' (http_response ++ buf)
  | (.eof, _) => some http_response
  | (.again _, _) => none
  | (.failed, _) => none
termination_by size s
decreasing_by exact size_of_read (by decide) _h (by simp)

/-- `input_string >> server_path >> local_path`: a word that is not there stays empty. -/
def arguments (input_string : Bytes) : Bytes × Bytes :=
  match extractWord input_string with
  | none => ([], [])
  | some (server_path, rest) => (server_path, ((extractWord rest).map Prod.fst).getD [])

/-- What the client prints for an error: the status line behind its first two words. -/
def reasonPhrase (http_response : Bytes) : Bytes :=
  let reason := do
    let (_, status_line) ← extractWord http_response
    let (_, status_line) ← extractWord status_line
    let (reason, _) ← getline newline status_line
    return reason
  ((reason.getD []).dropWhile fun c => c == space || c == 9).rdropWhile
    fun c => c == carriageReturn || c == newline

/-- What a command prints, what it writes to the local file if it opens it, and the files after. -/
structure GetResult where
  out : Bytes
  saved : Option Bytes := none
  fs : FileSystem

/-- `get` behind `SendHttpRequest`. The code stays 0 where `ParseStatus` fails. -/
def getReceived (fs : FileSystem) (local_path : Bytes) : Option Bytes → GetResult
  | none => { out := text "request failed\n", fs }
  | some http_response =>
    let body := responseBody http_response
    let code := (parseStatus http_response).getD 0
    if 400 ≤ code then { out := reasonPhrase http_response ++ [newline], fs }
    else if local_path = [] then { out := body ++ [newline], fs }
    else match fs.openTarget local_path with
      | .error _ => { out := text "failed to open " ++ local_path ++ [newline], fs }
      | .ok q =>
        { out := text "saved to " ++ local_path ++ [newline], saved := some body,
          fs := fs.set q (.file body) }

/-- The command on the rest of its line, with what the connection brings. -/
def getCommand (fs : FileSystem) (input_string : Bytes) (s : Socket) : GetResult :=
  let (server_path, local_path) := arguments input_string
  if server_path = [] then { out := text "get requires <server_path>\n", fs }
  else getReceived fs local_path (receive s [])

example : arguments (text "  notes.txt out") = (text "notes.txt", text "out") ∧
    reasonPhrase (text "HTTP/1.1 404 Not Found\r\n") = text "Not Found" := by decide

/-- Only the other side closes the connection. -/
def ClosesNormally (s : Socket) : Prop := ∀ e ∈ s, ∃ c cs, e = .chunk c cs

theorem closesNormally_push {b : Bytes} {s : Socket} (h : ClosesNormally s) :
    ClosesNormally (push b s) := by
  cases b with
  | nil => exact h
  | cons c cs =>
    intro e he
    rcases List.mem_cons.mp he with rfl | he
    · exact ⟨c, cs, rfl⟩
    · exact h e he

theorem ClosesNormally.read {k : ℕ} {s s' : Socket} {r : ReadResult} (h : ClosesNormally s)
    (hread : SemanticSearch.read k s = (r, s')) :
    (∃ buf, r = .got buf) ∧ ClosesNormally s' ∨ r = .eof := by
  rcases s with _ | ⟨e, s⟩
  · exact Or.inr (Prod.mk.inj hread).1.symm
  · obtain ⟨c, cs, rfl⟩ := h e List.mem_cons_self
    obtain ⟨rfl, rfl⟩ := Prod.mk.inj hread
    refine Or.inl ⟨⟨_, rfl⟩, ?_⟩
    apply closesNormally_push
    intro e he
    exact h e (List.mem_cons_of_mem _ he)

theorem receive_eq {s : Socket} (h : ClosesNormally s) (http_response : Bytes) :
    receive s http_response = some (http_response ++ stream s) := by
  induction hn : size s using Nat.strong_induction_on generalizing s http_response with
  | _ n ih =>
    rw [receive]
    split
    · next buf s' hread =>
      obtain ⟨-, -, -, -, hstream, -⟩ := read_got hread
      have hlt := size_of_read (by decide) hread (by simp)
      rcases h.read hread with ⟨-, hs'⟩ | heof
      · rw [ih (size s') (by omega) hs' _ rfl, hstream, List.append_assoc]
      · cases heof
    · next hread => rw [(read_stop hread (by simp)).1, List.append_nil]
    · next hread =>
      have := h.read hread
      simp at this
    · next hread =>
      have := h.read hread
      simp at this

/-- The answers to a `get`: a file, or one of the pages for 403 and 404. -/
def staticGetStatuses : List ℕ := [kHttpOk, kHttpForbidden, kHttpNotFound]

theorem status_ok {status : ℕ} (hs : status ∈ staticGetStatuses) :
    IsInt status ∧ (400 ≤ (status : ℤ) ↔ status ≠ kHttpOk) ∧
      (text "HTTP/1.1 " ++ decimal status).length = 12 := by
  have hall : ∀ status ∈ staticGetStatuses, IsInt status ∧
      (400 ≤ (status : ℤ) ↔ status ≠ kHttpOk) ∧
      (text "HTTP/1.1 " ++ decimal status).length = 12 := by decide +kernel
  exact hall status hs

theorem parseStatus_short {status : ℕ} (hs : status ∈ staticGetStatuses) {n : ℕ} (hn : n < 12) :
    (parseStatus ((text "HTTP/1.1 " ++ decimal status).take n)).getD 0 < 400 := by
  have hall : ∀ status ∈ staticGetStatuses, ∀ n < 12,
      (parseStatus ((text "HTTP/1.1 " ++ decimal status).take n)).getD 0 < 400 := by decide +kernel
  exact hall status hs n hn

theorem le_parseStatus_iff {status : ℕ} (hs : status ∈ staticGetStatuses) {R received : Bytes}
    (hR : Answers R status) (hp : received <+: R) :
    400 ≤ (parseStatus received).getD 0 ↔ status ≠ kHttpOk ∧ 12 ≤ received.length := by
  obtain ⟨t, rfl⟩ := hR
  rw [List.append_assoc, List.singleton_append] at hp
  obtain ⟨hint, herror, hlen⟩ := status_ok hs
  by_cases hn : received.length < 12
  · have hshort : received = (text "HTTP/1.1 " ++ decimal status).take received.length := by
      rw [← List.take_append_of_le_length (by omega)]
      exact List.prefix_iff_eq_take.mp hp
    have hlt := parseStatus_short hs hn
    rw [← hshort] at hlt
    constructor
    · intro h
      omega
    · rintro ⟨-, h⟩
      omega
  · obtain ⟨u, rfl⟩ := List.prefix_of_prefix_length_le (List.prefix_append _ _) hp
      (show (text "HTTP/1.1 " ++ decimal status).length ≤ received.length by omega)
    -- behind the digits only the blank can have arrived
    have hend : EndsNumber u := by
      obtain ⟨v, hv⟩ := (List.prefix_append_right_inj _).mp hp
      cases u with
      | nil => simp [EndsNumber]
      | cons c u =>
        obtain ⟨rfl, -⟩ := List.cons.inj hv
        exact fun c hc => Option.some.inj hc ▸ (by decide)
    have hstatus : parseStatus (text "HTTP/1.1 " ++ decimal status ++ u) = some (status : ℤ) := by
      rw [← decimalInt_natCast]
      exact parseStatus_decimalInt hint hend
    rw [hstatus, Option.getD_some, herror]
    constructor
    · intro h
      exact ⟨h, by omega⟩
    · rintro ⟨h, -⟩
      exact h

theorem makeResponse_block (status : ℕ) (body : Bytes) {contentType statusText : Bytes}
    (hc : InLine contentType) (ht : InLine statusText) :
    ∃ H, IsHeaderBlock H ∧ makeResponse status body contentType statusText = H ++ body := by
  set reason := if statusText = [] then defaultReasonInt status else statusText with hreason
  have hfirst : InLine (text "HTTP/1.1 " ++ decimal status ++ [space] ++ reason) :=
    inLine_append (inLine_append (inLine_append (by decide) (inLine_decimal _)) (by decide))
      (inLine_reason status ht)
  have hlines : ∀ l ∈ [text "Content-Type" ++ colon :: space :: contentType,
      text "Content-Length" ++ colon :: space :: decimal body.length],
        l ≠ [] ∧ carriageReturn ∉ l := by
    intro l hl
    simp only [List.mem_cons, List.not_mem_nil, or_false] at hl
    rcases hl with rfl | rfl
    · have hin := inLine_header (by decide : text "Content-Type" ≠ []) (by decide) hc
      exact ⟨hin.1, hin.2.1⟩
    · have hin := inLine_header (by decide : text "Content-Length" ≠ []) (by decide)
        (inLine_decimal body.length)
      exact ⟨hin.1, hin.2.1⟩
  refine ⟨_, isHeaderBlock_blockText hfirst.1 hlines, ?_⟩
  have h1 : text "Content-Type: " = text "Content-Type" ++ [colon, space] := rfl
  have h2 : text "Content-Length: " = text "Content-Length" ++ [colon, space] := rfl
  rw [← makeResponseInt_natCast, makeResponseInt, decimalInt_natCast, ← hreason]
  simp [blockText, h1, h2]

/-- The response to the request of `get` in the world `w`. -/
def Sends {V : Type} (ctx : ClientCtx V) (w : World V) (host port server_path R : Bytes) : Prop :=
  ∃ r w', parseRequest (sendHttpRequest host port (text "GET") (staticPath server_path) []) = .ok r ∧
    respond ctx r w = .ok (R, w')

theorem noSpace_arguments (input_string : Bytes) : NoSpace (arguments input_string).1 := by
  intro c hc
  rcases hw : extractWord input_string with _ | ⟨word, rest⟩
  · simp [arguments, hw] at hc
  · simp only [arguments, hw] at hc
    simp only [extractWord] at hw
    split_ifs at hw
    obtain ⟨rfl, -⟩ := Prod.mk.inj (Option.some.inj hw)
    simpa using List.mem_takeWhile_imp hc

theorem requestLine_get (host port : Bytes) {server_path : Bytes} (hpath : NoSpace server_path) :
    ∃ rest, requestLine (sendHttpRequest host port (text "GET") (staticPath server_path) []) =
      (text "GET", staticPath server_path, rest) := by
  have hnospace : ∀ c, isSpace c → c ∉ staticPath server_path := fun c hspace =>
    notMem_of_isSpace (staticPath_ok hpath).2 hspace
  have h1 : text " HTTP/1.1" = space :: text "HTTP/1.1" := rfl
  have h2 : text " " = [space] := rfl
  obtain ⟨rest, hrest⟩ : ∃ rest, sendHttpRequest host port (text "GET") (staticPath server_path) [] =
      (text "GET" ++ space :: (staticPath server_path ++ space :: (text "HTTP/1.1" ++
        [carriageReturn]))) ++ newline :: rest :=
    ⟨text "Host: " ++ (host ++ text ":" ++ port ++ crlf ++ text "User-Agent: searchclient/1.0" ++
      crlf ++ text "Connection: close" ++ crlf ++ crlf), by
        unfold sendHttpRequest
        simp [h1, h2, crlf]⟩
  have hline : newline ∉ text "GET" ++ space :: (staticPath server_path ++ space ::
      (text "HTTP/1.1" ++ [carriageReturn])) := by
    have h3 : newline ∉ text "GET" := by decide
    have h4 : newline ∉ text "HTTP/1.1" := by decide
    have h5 : newline ≠ space ∧ newline ≠ carriageReturn := by decide
    simp [hnospace newline (by decide), h3, h4, h5]
  have hget : space ∉ text "GET" := by decide
  refine ⟨rest, ?_⟩
  rw [requestLine, hrest]
  simp only [takeWhile_ne hline, dropWhile_ne hline, takeWhile_ne hget, dropWhile_ne hget,
    List.tail_cons, takeWhile_ne (hnospace space (by decide))]

theorem parseRequest_words {raw method target rest : Bytes} {r : Request}
    (h : parseRequest raw = .ok r) (hwords : requestLine raw = (method, target, rest))
    (hmethod : method ≠ []) (htarget : target ≠ []) :
    r.method = method ∧ r.path = (splitQuery target).1 := by
  rw [parseRequest, hwords] at h
  simp only [hmethod, htarget, or_self, if_false, bind, Except.bind] at h
  split at h
  · cases h
  · split at h
    · cases h
    · obtain rfl := Except.ok.inj h
      exact ⟨rfl, rfl⟩

theorem parseRequest_get {host port server_path : Bytes} {r : Request}
    (h : parseRequest (sendHttpRequest host port (text "GET") (staticPath server_path) []) = .ok r)
    (hpath : NoSpace server_path) : r.method = text "GET" ∧ staticPrefix <+: r.path := by
  obtain ⟨rest, hwords⟩ := requestLine_get host port hpath
  obtain ⟨hmethod, hrpath⟩ := parseRequest_words h hwords (by decide) (staticPath_ok hpath).1
  refine ⟨hmethod, ?_⟩
  rw [hrpath]
  rcases splitQuery_sides (staticPath server_path) with ⟨-, heq, -⟩ | ⟨-, heq⟩
  · rw [heq]
    exact List.prefix_append _ _
  · rcases List.append_eq_append_iff.mp heq with ⟨a, ha, -⟩ | ⟨c, hc, hmark⟩
    · rw [ha]
      exact List.prefix_append _ _
    · -- the question mark is not among the bytes of the prefix
      cases c with
      | nil =>
        rw [staticPrefix, hc, List.append_nil]
      | cons x c =>
        obtain ⟨rfl, -⟩ := List.cons.inj hmark
        have hmem : questionMark ∈ text "/static/" := by rw [hc]; simp
        exact absurd hmem (by decide)

theorem staticGet_answer {fs : FileSystem} {filesRoot relpath R : Bytes}
    (h : staticGet fs filesRoot relpath = .ok R) :
    ∃ status ∈ staticGetStatuses, ∃ body contentType statusText, InLine contentType ∧
      InLine statusText ∧ R = makeResponse status body contentType statusText := by
  rw [staticGet] at h
  rcases hc : checkWithinRoot fs filesRoot relpath with e | e
  · rw [hc] at h
    cases h
  rcases checkWithinRoot_answer hc with rfl | rfl
  · rcases hf : fs.isRegularFile relpath with e | _ | _
    · simp [hc, hf, bind, Except.bind] at h
    · simp only [hc, hf, bind, Except.bind] at h
      exact ⟨kHttpNotFound, by decide, _, _, _, by decide, by decide, (Except.ok.inj h).symm⟩
    · simp only [hc, hf, bind, Except.bind] at h
      refine ⟨kHttpOk, by decide, _, _, _, ?_, by decide, (Except.ok.inj h).symm⟩
      unfold contentTypeFor
      split_ifs <;> decide
  · simp only [hc, bind, Except.bind] at h
    exact ⟨kHttpForbidden, by decide, _, _, _, by decide, by decide, (Except.ok.inj h).symm⟩

/-- The response to a `get` is a file or an error page. -/
theorem Sends.answer {V : Type} {ctx : ClientCtx V} {w : World V}
    {host port server_path R : Bytes} (h : Sends ctx w host port server_path R)
    (hpath : NoSpace server_path) :
    ∃ status ∈ staticGetStatuses, ∃ body contentType statusText, InLine contentType ∧
      InLine statusText ∧ R = makeResponse status body contentType statusText := by
  obtain ⟨r, w', hr, hrespond⟩ := h
  obtain ⟨hmethod, hprefix⟩ := parseRequest_get hr hpath
  have hother : ∀ p, ¬ staticPrefix <+: p → r.path ≠ p := by
    intro p hp heq
    exact hp (heq ▸ hprefix)
  have hget : handleGetRequest ctx r w =
      (staticGet w.fs ctx.files_root (r.path.drop 8)).mapError .filesystem_error := by
    rw [handleGetRequest, if_neg (not_or.mpr ⟨hother _ (by decide), hother _ (by decide)⟩),
      if_neg (hother _ (by decide)), if_neg (hother _ (by decide)), if_neg (hother _ (by decide)),
      if_neg (hother _ (by decide)), if_pos hprefix]
  rw [respond, if_pos hmethod, hget] at hrespond
  rcases hs : staticGet w.fs ctx.files_root (r.path.drop 8) with e | answer
  · rw [hs] at hrespond
    cases hrespond
  · rw [hs] at hrespond
    obtain ⟨rfl, -⟩ := Prod.mk.inj (Except.ok.inj hrespond)
    exact staticGet_answer hs

/-- A whole 2xx response with the body `b`. -/
def IsSuccess (R b : Bytes) : Prop :=
  ∃ status contentType statusText, 200 ≤ status ∧ status < 300 ∧ InLine contentType ∧
    InLine statusText ∧ R = makeResponse status b contentType statusText

/-- The local file is written only with the body of a 2xx response that arrived whole, and is left
as it was in every other case. -/
structure SavesIntact (fs : FileSystem) (local_path R received : Bytes) (g : GetResult) : Prop where
  written : ∀ b, g.saved = some b →
    received = R ∧ IsSuccess R b ∧ g.fs.read local_path = some b
  kept : ¬ (received = R ∧ ∃ b, IsSuccess R b) → g.fs = fs

theorem openTarget_nil (fs : FileSystem) (q : RealPath) : fs.openTarget [] ≠ .ok q := by
  simp [openTarget, lookup, cStr]

theorem getReceived_of_kept {fs : FileSystem} {local_path received : Bytes}
    (h : 400 ≤ (parseStatus received).getD 0 ∨ ∀ q, fs.openTarget local_path ≠ .ok q) :
    (getReceived fs local_path (some received)).saved = none ∧
      (getReceived fs local_path (some received)).fs = fs := by
  by_cases hcode : 400 ≤ (parseStatus received).getD 0
  · simp [getReceived, hcode]
  by_cases hpath : local_path = []
  · simp [getReceived, hcode, hpath]
  rcases ho : fs.openTarget local_path with e | q
  · simp [getReceived, hcode, hpath, ho]
  · rcases h with h | h
    · exact absurd h hcode
    · exact absurd ho (h q)

theorem getReceived_of_opened {fs : FileSystem} {local_path received : Bytes} {q : RealPath}
    (hcode : ¬ 400 ≤ (parseStatus received).getD 0) (ho : fs.openTarget local_path = .ok q) :
    (getReceived fs local_path (some received)).saved = some (responseBody received) ∧
      (getReceived fs local_path (some received)).fs =
        fs.set q (.file (responseBody received)) := by
  have hpath : local_path ≠ [] := by
    rintro rfl
    exact openTarget_nil fs q ho
  simp [getReceived, hcode, hpath, ho]

theorem savesIntact_of_kept {fs : FileSystem} {local_path received : Bytes} (R : Bytes)
    (h : 400 ≤ (parseStatus received).getD 0 ∨ ∀ q, fs.openTarget local_path ≠ .ok q) :
    SavesIntact fs local_path R received (getReceived fs local_path (some received)) := by
  obtain ⟨hsaved, hfs⟩ := getReceived_of_kept h
  constructor
  · intro b hb
    rw [hsaved] at hb
    cases hb
  · intro _
    exact hfs

theorem savesIntact_of_opened {fs : FileSystem} {local_path received : Bytes} {q : RealPath}
    (R : Bytes) (hcode : ¬ 400 ≤ (parseStatus received).getD 0)
    (ho : fs.openTarget local_path = .ok q) :
    SavesIntact fs local_path R received (getReceived fs local_path (some received)) ↔
      received = R ∧ IsSuccess R (responseBody received) := by
  obtain ⟨hsaved, hfs⟩ := getReceived_of_opened hcode ho
  constructor
  · intro h
    obtain ⟨hwhole, hsuccess, -⟩ := h.written _ hsaved
    exact ⟨hwhole, hsuccess⟩
  · rintro ⟨hwhole, hsuccess⟩
    constructor
    · intro b hb
      obtain rfl := Option.some.inj (hsaved.symm.trans hb)
      refine ⟨hwhole, hsuccess, ?_⟩
      rw [hfs]
      exact read_set_openTarget ho _
    · intro hcut
      exact absurd ⟨hwhole, _, hsuccess⟩ hcut

theorem isSuccess_responseBody (body : Bytes) {contentType statusText : Bytes}
    (hc : InLine contentType) (ht : InLine statusText) :
    IsSuccess (makeResponse kHttpOk body contentType statusText)
      (responseBody (makeResponse kHttpOk body contentType statusText)) := by
  obtain ⟨H, hH, hblock⟩ := makeResponse_block kHttpOk body hc ht
  have hbody : responseBody (makeResponse kHttpOk body contentType statusText) = body := by
    rw [hblock, responseBody_append hH]
  rw [hbody]
  exact ⟨kHttpOk, contentType, statusText, by decide, by decide, hc, ht, rfl⟩

theorem answers_ok_iff {status : ℕ} (hs : status ∈ staticGetStatuses) {R : Bytes}
    (hR : Answers R status) : Answers R kHttpOk ↔ status = kHttpOk := by
  have hall : ∀ status ∈ staticGetStatuses,
      text "HTTP/1.1 " ++ decimal kHttpOk ++ [space] <+:
        text "HTTP/1.1 " ++ decimal status ++ [space] → status = kHttpOk := by decide +kernel
  constructor
  · intro hok
    apply hall status hs
    apply List.prefix_of_prefix_length_le hok hR
    have h1 := (status_ok hs).2.2
    have h2 : (text "HTTP/1.1 " ++ decimal kHttpOk).length = 12 := (status_ok (by decide)).2.2
    simp only [List.length_append] at h1 h2 ⊢
    omega
  · rintro rfl
    exact hR

theorem le_length_of_answers {status : ℕ} (hs : status ∈ staticGetStatuses) {R : Bytes}
    (hR : Answers R status) : 12 ≤ R.length := by
  have hlen := hR.length_le
  rw [List.length_append, (status_ok hs).2.2] at hlen
  omega

/-- A download is intact exactly when the whole response arrived, when it is an error page of
which at least the status arrived, or when the local file cannot be opened. -/
theorem savesIntact_iff {V : Type} {ctx : ClientCtx V} {w : World V} {fs : FileSystem}
    {host port input_string R : Bytes} {s : Socket} (hserver : (arguments input_string).1 ≠ [])
    (hR : Sends ctx w host port (arguments input_string).1 R) (hs : ClosesNormally s)
    (hp : stream s <+: R) :
    SavesIntact fs (arguments input_string).2 R (stream s) (getCommand fs input_string s) ↔
      stream s = R ∨ (¬ Answers R kHttpOk ∧ 12 ≤ (stream s).length) ∨
        ∀ q, fs.openTarget (arguments input_string).2 ≠ .ok q := by
  set local_path := (arguments input_string).2
  have hget : getCommand fs input_string s = getReceived fs local_path (some (stream s)) := by
    simp only [getCommand, if_neg hserver, receive_eq hs, List.nil_append, local_path]
  obtain ⟨status, hmem, body, contentType, statusText, hc, ht, rfl⟩ :=
    hR.answer (noSpace_arguments input_string)
  have hanswers := answers_makeResponse status body contentType statusText
  have hcode := le_parseStatus_iff hmem hanswers hp
  rw [hget, answers_ok_iff hmem hanswers]
  by_cases hkept : 400 ≤ (parseStatus (stream s)).getD 0 ∨ ∀ q, fs.openTarget local_path ≠ .ok q
  · have hintact := savesIntact_of_kept (makeResponse status body contentType statusText) hkept
    rw [hcode] at hkept
    exact iff_of_true hintact (Or.inr hkept)
  · push Not at hkept
    obtain ⟨herror, q, ho⟩ := hkept
    have hshort : ¬ (status ≠ kHttpOk ∧ 12 ≤ (stream s).length) := by
      rw [← hcode]
      omega
    rw [savesIntact_of_opened _ (not_le.mpr herror) ho]
    constructor
    · intro h
      exact Or.inl h.1
    · rintro (hwhole | herror | hclosed)
      · -- a whole response that the client takes for no error is a 200
        obtain rfl : status = kHttpOk := by
          by_contra hne
          apply hshort
          rw [hwhole]
          exact ⟨hne, le_length_of_answers hmem hanswers⟩
        rw [hwhole]
        exact ⟨rfl, isSuccess_responseBody body hc ht⟩
      · exact absurd herror hshort
      · exact absurd ho (hclosed q)

def helloResponse : Bytes :=
  makeResponse kHttpOk (text "hello") (text "application/octet-stream") []

def getHello : Request where
  method := text "GET"
  path := text "/static/root/a"
  headers := (((∅ : Headers).insert (text "host") (text "::1:5950")).insert (text "user-agent")
    (text "searchclient/1.0")).insert connection (text "close")

theorem arguments_getHello :
    arguments (text " root/a root/a") = (text "root/a", text "root/a") := by
  decide

theorem sends_helloResponse :
    Sends plainCtx ⟨smallTree, ∅, ()⟩ (text "::1") (text "5950")
      (arguments (text " root/a root/a")).1 helloResponse := by
  rw [arguments_getHello]
  have hparse : parseRequest (sendHttpRequest (text "::1") (text "5950") (text "GET")
      (staticPath (text "root/a")) []) = .ok getHello := by decide +kernel
  have hget : handleGetRequest plainCtx getHello ⟨smallTree, ∅, ()⟩ = .ok helloResponse := by
    decide +kernel
  refine ⟨getHello, ⟨smallTree, ∅, ()⟩, hparse, ?_⟩
  rw [respond, if_pos (by decide), hget]
  rfl

/-- The connection that closes two bytes before the end of the response. -/
def cutHello : Socket := push (helloResponse.take (helloResponse.length - 2)) []

theorem stream_cutHello : stream cutHello = helloResponse.take (helloResponse.length - 2) :=
  stream_push_nil _

theorem closesNormally_cutHello : ClosesNormally cutHello :=
  closesNormally_push (by simp [ClosesNormally])

theorem savesIntact_iff_cutHello :
    SavesIntact smallTree (arguments (text " root/a root/a")).2 helloResponse (stream cutHello)
        (getCommand smallTree (text " root/a root/a") cutHello) ↔
      stream cutHello = helloResponse ∨
        (¬ Answers helloResponse kHttpOk ∧ 12 ≤ (stream cutHello).length) ∨
          ∀ q, smallTree.openTarget (arguments (text " root/a root/a")).2 ≠ .ok q :=
  savesIntact_iff (by decide) sends_helloResponse closesNormally_cutHello
    (stream_cutHello ▸ List.take_prefix _ _)

/-- The local file that held the five bytes holds three of them afterwards. -/
theorem cutHello_saved :
    Sends plainCtx ⟨smallTree, ∅, ()⟩ (text "::1") (text "5950")
        (arguments (text " root/a root/a")).1 helloResponse ∧
      ClosesNormally cutHello ∧ stream cutHello <+: helloResponse ∧
      (getCommand smallTree (text " root/a root/a") cutHello).fs.read (text "root/a") =
        some (text "hel") ∧
      ¬ SavesIntact smallTree (arguments (text " root/a root/a")).2 helloResponse (stream cutHello)
        (getCommand smallTree (text " root/a root/a") cutHello) := by
  have hget : getCommand smallTree (text " root/a root/a") cutHello =
      getReceived smallTree (text "root/a") (some (stream cutHello)) := by
    simp only [getCommand, arguments_getHello, receive_eq closesNormally_cutHello, List.nil_append]
    rfl
  have hread : (getReceived smallTree (text "root/a") (some (stream cutHello))).fs.read
      (text "root/a") = some (text "hel") := by decide +kernel
  have hsaved : (getReceived smallTree (text "root/a") (some (stream cutHello))).saved =
      some (text "hel") := by decide +kernel
  rw [hget]
  refine ⟨sends_helloResponse, closesNormally_cutHello, stream_cutHello ▸ List.take_prefix _ _,
    hread, fun h => ?_⟩
  have hwhole := congrArg List.length (h.written _ hsaved).1
  exact absurd hwhole (by decide +kernel)

end SemanticSearch
