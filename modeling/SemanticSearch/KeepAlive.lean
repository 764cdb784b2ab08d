import SemanticSearch.ClientSafety
import SemanticSearch.HeaderText

namespace SemanticSearch

open FileSystem

variable {V : Type} {ctx : ClientCtx V} {w : World V} {s : Socket} {H B : Bytes}
  {served : List (Bytes × Bytes)}

/-- A header line: a name, a colon, and the value with the optional white space around it. -/
structure HeaderField where
  name : Bytes
  value : Bytes
  name_ok : name ≠ [] ∧ colon ∉ name ∧ ∀ c ∈ name, isSpace c = false
  value_ok : carriageReturn ∉ value ∧ newline ∉ value

/-- A value without the white space around it. -/
def trim (v : Bytes) : Bytes := ((v.dropWhile isBlank).reverse.dropWhile isBlank).reverse

namespace HeaderField

def Named (f : HeaderField) (key : Bytes) : Prop := f.name.map toLower = key

instance (f : HeaderField) (key : Bytes) : Decidable (f.Named key) :=
  inferInstanceAs (Decidable (_ = _))

def line (f : HeaderField) : Bytes := f.name ++ colon :: f.value

end HeaderField

structure RequestHead where
  method : Bytes
  target : Bytes
  version : Bytes
  fields : List HeaderField
  method_ok : method ≠ [] ∧ ∀ c ∈ method, isSpace c = false
  target_ok : target ≠ [] ∧ ∀ c ∈ target, isSpace c = false
  version_ok : version ≠ [] ∧ ∀ c ∈ version, isSpace c = false

namespace RequestHead

def requestLine (R : RequestHead) : Bytes :=
  R.method ++ space :: R.target ++ space :: R.version

def render (R : RequestHead) : Bytes :=
  R.requestLine ++ crlf ++ R.fields.flatMap (fun f => f.line ++ crlf) ++ crlf

theorem render_eq (R : RequestHead) :
    R.render = blockText R.requestLine (R.fields.map HeaderField.line) := by
  simp [render, blockText, List.flatMap_map]

theorem isHeaderBlock (R : RequestHead) : IsHeaderBlock R.render := by
  have hfirst : carriageReturn ∉ R.requestLine := by
    have hcr : isSpace carriageReturn := by decide
    have h1 := notMem_of_isSpace R.method_ok.2 hcr
    have h2 := notMem_of_isSpace R.target_ok.2 hcr
    have h3 := notMem_of_isSpace R.version_ok.2 hcr
    have h4 : carriageReturn ≠ space := by decide
    simp [RequestHead.requestLine, h1, h2, h3, h4]
  have hlines : ∀ l ∈ R.fields.map HeaderField.line, l ≠ [] ∧ carriageReturn ∉ l := by
    intro l hl
    obtain ⟨f, -, rfl⟩ := List.mem_map.mp hl
    have hname : carriageReturn ∉ f.name := notMem_of_isSpace f.name_ok.2.2 (by decide)
    have h4 : carriageReturn ≠ colon := by decide
    exact ⟨by simp [HeaderField.line], by simp [HeaderField.line, hname, f.value_ok.1, h4]⟩
  rw [R.render_eq]
  exact isHeaderBlock_blockText hfirst hlines

theorem requestLine_render (R : RequestHead) :
    (SemanticSearch.requestLine R.render).1 = R.method ∧
      (SemanticSearch.requestLine R.render).2.1 = R.target := by
  have hn : ∀ {t : Bytes}, (∀ c ∈ t, isSpace c = false) → newline ∉ t ∧ space ∉ t := fun h =>
    ⟨fun hc => absurd (h _ hc) (by decide), fun hc => absurd (h _ hc) (by decide)⟩
  obtain ⟨h1, h1'⟩ := hn R.method_ok.2
  obtain ⟨h2, h2'⟩ := hn R.target_ok.2
  obtain ⟨h3, -⟩ := hn R.version_ok.2
  have htext : R.render =
      (R.method ++ space :: (R.target ++ space :: (R.version ++ [carriageReturn]))) ++
        newline :: (R.fields.flatMap (fun f => f.line ++ crlf) ++ crlf) := by
    simp [RequestHead.render, RequestHead.requestLine, crlf]
  have hfirst : newline ∉
      R.method ++ space :: (R.target ++ space :: (R.version ++ [carriageReturn])) := by
    have h4 : newline ≠ space := by decide
    have h5 : newline ≠ carriageReturn := by decide
    simp [h1, h2, h3, h4, h5]
  rw [htext]
  simp only [SemanticSearch.requestLine, takeWhile_ne hfirst, takeWhile_ne h1', dropWhile_ne h1',
    List.tail_cons, takeWhile_ne h2', and_self]

end RequestHead

/-- A well-formed request: without a body, or with its exact `Content-Length`. -/
structure WireRequest extends RequestHead where
  body : Bytes
  length_ok : (body = [] ∧ ∀ f ∈ fields, ¬ f.Named contentLength) ∨
    (∃ f ∈ fields, f.Named contentLength) ∧
      ∀ f ∈ fields, f.Named contentLength → trim f.value = decimal body.length

namespace WireRequest

def head (R : WireRequest) : Bytes := R.toRequestHead.render

def render (R : WireRequest) : Bytes := R.head ++ R.body

end WireRequest

theorem WireRequest.isHeaderBlock (R : WireRequest) : IsHeaderBlock R.head :=
  R.toRequestHead.isHeaderBlock

theorem WireRequest.requestLine_head (R : WireRequest) :
    (SemanticSearch.requestLine R.head).1 = R.method ∧
      (SemanticSearch.requestLine R.head).2.1 = R.target :=
  R.requestLine_render

theorem WireRequest.closes_iff (R : WireRequest) {r : Request} (h : parseRequest R.render = .ok r) :
    SemanticSearch.Closes r ↔ headerValue (linesOf R.head) connection = some (text "close") := by
  obtain ⟨r₀, n, h₀, -, rfl⟩ := R.isHeaderBlock.exists_head h
  obtain ⟨hm, ht⟩ := R.requestLine_head
  rcases parseHead_ok h₀ with ⟨h0, -⟩ | ⟨-, -, -, -, -, hkey⟩
  · rw [hm, ht] at h0
    exact absurd h0 (by simp [R.method_ok.1, R.target_ok.1])
  · rw [SemanticSearch.Closes, withBody, hkey]

/-- The bytes behind the head that a pass takes, if there are enough. -/
def bodyTaken (R : WireRequest) (lengths : List ℕ) (m : Option ℕ) : ℕ :=
  max (readAhead R.head lengths) (m.getD 0)

/-- A pass that takes exactly the request answers it alone and leaves the rest of the stream. -/
theorem pass_request {R : WireRequest} {T : Bytes} {m : Option ℕ} {response : Bytes} {w' : World V}
    (served : List (Bytes × Bytes)) (hc : Clean s) (hs : stream s = R.render ++ T)
    (hm : announcedLength R.head R.head.length = .ok m)
    (hlen : bodyTaken R (cuts s) m = R.body.length ∨
      T = [] ∧ R.body.length ≤ bodyTaken R (cuts s) m)
    (hans : answer ctx w R.render = .ok (response, w')) :
    ∃ go s', pass ctx ⟨w, s, served⟩ =
        .ok (go, ⟨w', s', served ++ [(R.render, response)]⟩) ∧
      (go = false ↔ headerValue (linesOf R.head) connection = some (text "close")) ∧
      stream s' = T ∧ cuts s' = advance R.render.length (cuts s) ∧ Clean s' := by
  rw [WireRequest.render, List.append_assoc] at hs
  obtain ⟨s', hread, hrest⟩ := R.isHeaderBlock.readRawRequest_ok hs hm
  obtain ⟨h1, h2, h3⟩ := hrest hc
  change cuts s' = advance (R.head.length + bodyTaken R (cuts s) m) (cuts s) at h2
  change stream s' = (R.body ++ T).drop (bodyTaken R (cuts s) m) at h1
  change readRawRequest s = .ok (R.head ++ (R.body ++ T).take (bodyTaken R (cuts s) m), s') at hread
  have htake : (R.body ++ T).take (bodyTaken R (cuts s) m) = R.body ∧ stream s' = T ∧
      cuts s' = advance R.render.length (cuts s) := by
    rcases hlen with hlen | ⟨rfl, hlen⟩
    · rw [h1, h2, hlen, List.take_left, List.drop_left, WireRequest.render, List.length_append]
      exact ⟨rfl, rfl, rfl⟩
    · have hsum : (cuts s).sum = R.head.length + R.body.length := by
        rw [sum_cuts, hs]
        simp
      have hadv : ∀ k, (cuts s).sum ≤ k → advance k (cuts s) = [] := fun k hk =>
        advance_of_sum_le hk fun l hl => pos_of_mem_cuts hl
      rw [h1, h2, List.append_nil, List.take_of_length_le hlen, List.drop_of_length_le hlen,
        hadv _ (by omega), hadv _ (by rw [WireRequest.render, List.length_append]; omega)]
      exact ⟨rfl, rfl, rfl⟩
  rw [htake.1] at hread
  rw [pass_of_some (c := ⟨w, s, served⟩) hread (R.isHeaderBlock.find_append _)]
  rcases hp : parseRequest (R.head ++ R.body) with e | r
  · rw [answer, WireRequest.render, hp] at hans
    cases hans
  have hresp : respond ctx r w = .ok (response, w') := by
    simpa [answer, WireRequest.render, hp, bind, Except.bind] using hans
  refine ⟨!decide (SemanticSearch.Closes r), s', ?_, ?_, htake.2.1, htake.2.2, h3⟩
  · simp only [bind, Except.bind, hresp]
    rfl
  · rw [← R.closes_iff hp]
    simp

theorem pass_served {R : WireRequest} {T : Bytes} {go : Bool} {c' : Conn V}
    (hs : stream s = R.render ++ T) (h : pass ctx ⟨w, s, served⟩ = .ok (go, c')) :
    ∃ m response, announcedLength R.head R.head.length = .ok m ∧
      c'.served = served ++
        [(R.head ++ (R.body ++ T).take (bodyTaken R (cuts s) m), response)] := by
  rw [WireRequest.render, List.append_assoc] at hs
  rcases hm : announcedLength R.head R.head.length with e | m
  · rw [pass_of_error (c := ⟨w, s, served⟩) (R.isHeaderBlock.readRawRequest_error hs hm)] at h
    cases h
  · obtain ⟨s', hread, -⟩ := R.isHeaderBlock.readRawRequest_ok hs hm
    obtain ⟨r, response, world, -, -, -, rfl⟩ :=
      pass_ok (c := ⟨w, s, served⟩) hread (R.isHeaderBlock.find_append _) h
    exact ⟨m, response, rfl, rfl⟩

/-- The requests answered one after the other, each as if it were alone: the log of buffers and
responses, and the world behind them. -/
def answerAll (ctx : ClientCtx V) :
    World V → List WireRequest → Except Exn (List (Bytes × Bytes) × World V)
  | w, [] => .ok ([], w)
  | w, R :: Rs => do
    let (response, w') ← answer ctx w R.render
    let (log, w'') ← answerAll ctx w' Rs
    return ((R.render, response) :: log, w'')

/-- The connection handles each request in a buffer of its own and sends its answer. -/
def ServesEach (ctx : ClientCtx V) (c : Conn V) (Rs : List WireRequest) : Prop :=
  ∃ log w' c', answerAll ctx c.world Rs = .ok (log, w') ∧ handleClient ctx c = .ok c' ∧
    c'.served = c.served ++ log ∧ c'.world = w'

/-- The reads respect the ends of the requests: each one is safe, a pass takes its body and no
more (for the last request the stream itself ends there), and none but the last closes. -/
def Aligned (ctx : ClientCtx V) : World V → List ℕ → List WireRequest → Prop
  | _, _, [] => True
  | w, lengths, R :: Rs =>
    RequestSafe ctx w R.head ∧
      (∃ m, announcedLength R.head R.head.length = .ok m ∧
        (bodyTaken R lengths m = R.body.length ∨
          Rs = [] ∧ R.body.length ≤ bodyTaken R lengths m)) ∧
      (headerValue (linesOf R.head) connection = some (text "close") → Rs = []) ∧
      ∀ response w', answer ctx w R.render = .ok (response, w') →
        Aligned ctx w' (advance R.render.length lengths) Rs

theorem served_prefix {c c' : Conn V} (h : handleClient ctx c = .ok c') :
    c.served <+: c'.served := by
  have hpass : ∀ {c c' : Conn V} {go}, pass ctx c = .ok (go, c') → c.served <+: c'.served := by
    intro c c' go h
    obtain ⟨raw, socket, -, ⟨-, -, rfl⟩ | ⟨-, response, world, rfl⟩⟩ := pass_cases h
    · exact List.prefix_rfl
    · exact List.prefix_append _ _
  fun_induction handleClient ctx c with
  | case1 => cases h
  | case2 c c₁ h₁ =>
    cases h
    exact hpass h₁
  | case3 c c₁ h₁ ih => exact (hpass h₁).trans (ih h)

theorem WireRequest.render_ne_nil (R : WireRequest) : R.render ≠ [] := by
  intro h
  have h4 := R.isHeaderBlock.four_le
  have hl := congrArg List.length h
  simp only [WireRequest.render, List.length_append, List.length_nil] at hl
  omega

def wire (Rs : List WireRequest) : Bytes := Rs.flatMap WireRequest.render

theorem wire_eq_nil {Rs : List WireRequest} (h : wire Rs = []) : Rs = [] := by
  cases Rs with
  | nil => rfl
  | cons R Rs =>
    rw [wire, List.flatMap_cons, List.append_eq_nil_iff] at h
    exact absurd h.1 R.render_ne_nil

theorem answerAll_cons_iff {R : WireRequest} {Rs : List WireRequest} {log : List (Bytes × Bytes)}
    {w₂ : World V} : answerAll ctx w (R :: Rs) = .ok (log, w₂) ↔
      ∃ response w' log', answer ctx w R.render = .ok (response, w') ∧
        answerAll ctx w' Rs = .ok (log', w₂) ∧ log = (R.render, response) :: log' := by
  rw [answerAll]
  rcases answer ctx w R.render with e | ⟨response, w'⟩
  · simp [bind, Except.bind]
  · rcases hall : answerAll ctx w' Rs with e | ⟨log', w₃⟩
    · simp [hall, bind, Except.bind]
    · simp only [hall, bind, Except.bind, pure, Except.pure, Except.ok.injEq, Prod.mk.injEq]
      constructor
      · rintro ⟨rfl, rfl⟩
        exact ⟨response, w', log', ⟨rfl, rfl⟩, hall, rfl⟩
      · rintro ⟨response', w'', log'', ⟨rfl, rfl⟩, hall', rfl⟩
        rw [hall] at hall'
        simpa using hall'

theorem answerAll_length {Rs : List WireRequest} {log : List (Bytes × Bytes)} {w₂ : World V}
    (h : answerAll ctx w Rs = .ok (log, w₂)) : log.length = Rs.length := by
  induction Rs generalizing w log with
  | nil =>
    cases h
    rfl
  | cons R Rs ih =>
    obtain ⟨response, w', log', -, hall, rfl⟩ := answerAll_cons_iff.mp h
    simp [ih hall]

theorem bodyTaken_of_take_eq {R : WireRequest} {T : Bytes} {k : ℕ}
    (h : R.head ++ (R.body ++ T).take k = R.render) :
    k = R.body.length ∨ T = [] ∧ R.body.length ≤ k := by
  have hl := congrArg List.length h
  simp only [WireRequest.render, List.length_append, List.length_take] at hl
  rcases eq_or_ne T [] with rfl | hT
  · right
    simp at hl
    exact ⟨rfl, hl⟩
  · left
    have := List.length_pos_iff.mpr hT
    omega

/-- Where the first request is served, the first pass has taken exactly its bytes. -/
theorem ServesEach.first {R : WireRequest} {Rs : List WireRequest}
    (h : ServesEach ctx ⟨w, s, served⟩ (R :: Rs)) (hs : stream s = R.render ++ wire Rs) :
    (∃ answered, answer ctx w R.render = .ok answered) ∧
      ∃ m, announcedLength R.head R.head.length = .ok m ∧
        (bodyTaken R (cuts s) m = R.body.length ∨
          wire Rs = [] ∧ R.body.length ≤ bodyTaken R (cuts s) m) := by
  obtain ⟨log, w₂, c', hall, hcl, hserved, -⟩ := h
  obtain ⟨response, w', log', hans, -, rfl⟩ := answerAll_cons_iff.mp hall
  refine ⟨⟨_, hans⟩, ?_⟩
  rcases hpass : pass ctx ⟨w, s, served⟩ with e | ⟨go, c₁⟩
  · rw [handleClient_of_error hpass] at hcl
    cases hcl
  obtain ⟨m, response₁, hm, hserved₁⟩ := pass_served hs hpass
  -- the log only grows, so its first new buffer is the one that this pass handled
  have hfirst : c₁.served <+: c'.served := by
    cases go with
    | false =>
      rw [handleClient_of_stop hpass] at hcl
      rw [Except.ok.inj hcl]
    | true => exact served_prefix ((handleClient_of_next hpass) ▸ hcl)
  rw [hserved₁, hserved, List.prefix_append_right_inj, List.cons_prefix_cons] at hfirst
  exact ⟨m, hm, bodyTaken_of_take_eq (Prod.mk.inj hfirst.1).1⟩

/-- Behind a pass that has answered the first request, the rest is left to the next passes, if
there are any. -/
theorem servesEach_cons_iff {R : WireRequest} {Rs : List WireRequest} {go : Bool} {s' : Socket}
    {response : Bytes} {w' : World V} (hans : answer ctx w R.render = .ok (response, w'))
    (hpass : pass ctx ⟨w, s, served⟩ = .ok (go, ⟨w', s', served ++ [(R.render, response)]⟩)) :
    ServesEach ctx ⟨w, s, served⟩ (R :: Rs) ↔
      if go then ServesEach ctx ⟨w', s', served ++ [(R.render, response)]⟩ Rs else Rs = [] := by
  have hlog : ∀ {log w₂}, answerAll ctx w (R :: Rs) = .ok (log, w₂) ↔
      ∃ log', answerAll ctx w' Rs = .ok (log', w₂) ∧ log = (R.render, response) :: log' := by
    intro log w₂
    rw [answerAll_cons_iff, hans]
    simp
  cases go with
  | false =>
    have hcl := handleClient_of_stop hpass
    simp only [Bool.false_eq_true, if_false]
    constructor
    · intro hserve
      obtain ⟨log, w₂, c', hall, hcl', hserved, -⟩ := hserve
      obtain ⟨log', hall', rfl⟩ := hlog.mp hall
      obtain rfl := Except.ok.inj (hcl.symm.trans hcl')
      -- nothing is handled behind this pass, so no request is left to answer
      have hlen : log'.length = 0 := by
        have := congrArg List.length hserved
        simpa using this.symm
      exact List.eq_nil_of_length_eq_zero (answerAll_length hall' ▸ hlen)
    · rintro rfl
      exact ⟨_, w', _, hlog.mpr ⟨[], rfl, rfl⟩, hcl, rfl, rfl⟩
  | true =>
    have hcl := handleClient_of_next hpass
    simp only [if_true]
    constructor
    · intro hserve
      obtain ⟨log, w₂, c', hall, hcl', hserved, hw⟩ := hserve
      obtain ⟨log', hall', rfl⟩ := hlog.mp hall
      refine ⟨log', w₂, c', hall', hcl ▸ hcl', ?_, hw⟩
      rw [hserved]
      simp
    · intro hserve
      obtain ⟨log, w₂, c', hall, hcl', hserved, hw⟩ := hserve
      refine ⟨_, w₂, c', hlog.mpr ⟨log, hall, rfl⟩, hcl.trans hcl', ?_, hw⟩
      rw [hserved]
      simp

/-- A connection that only carries `Rs` serves each of them exactly when the reads are
aligned. -/
theorem servesEach_iff (ctx : ClientCtx V) (w : World V) (Rs : List WireRequest) (s : Socket)
    (served : List (Bytes × Bytes)) (hc : Clean s) (hs : stream s = wire Rs) :
    ServesEach ctx ⟨w, s, served⟩ Rs ↔ Aligned ctx w (cuts s) Rs := by
  induction Rs generalizing w s served with
  | nil =>
    have hf : find headerEnd (stream s) = none := by rw [hs]; decide
    obtain ⟨s', hr, -⟩ := readRawRequest_none hf
    have hstop : handleClient ctx ⟨w, s, served⟩ = .ok ⟨w, s', served⟩ :=
      handleClient_of_stop (pass_of_none hr hf)
    simp only [Aligned, iff_true]
    exact ⟨[], w, _, rfl, hstop, by simp, rfl⟩
  | cons R Rs ih =>
    rw [wire, List.flatMap_cons] at hs
    change stream s = R.render ++ wire Rs at hs
    constructor
    · intro h
      obtain ⟨⟨⟨response, w'⟩, hans⟩, m, hm, hlen⟩ := h.first hs
      obtain ⟨go, s', hpass, hgo, hs', hcuts, hc'⟩ := pass_request served hc hs hm hlen hans
      have hrest := (servesEach_cons_iff hans hpass).mp h
      refine ⟨(answer_ok_iff R.isHeaderBlock R.body).mp ⟨_, hans⟩,
        ⟨m, hm, hlen.imp_right fun h => ⟨wire_eq_nil h.1, h.2⟩⟩, ?_, ?_⟩
      · intro hclose
        rw [hgo.mpr hclose] at hrest
        simpa using hrest
      · intro response₂ w₂ hans₂
        obtain ⟨rfl, rfl⟩ := Prod.mk.inj (Except.ok.inj (hans.symm.trans hans₂))
        rw [← hcuts]
        cases go with
        | false =>
          obtain rfl : Rs = [] := by simpa using hrest
          trivial
        | true => exact (ih w' s' _ hc' hs').mp (by simpa using hrest)
    · intro haligned
      obtain ⟨hsafe, ⟨m, hm, hlen⟩, hclose, hrest⟩ := haligned
      obtain ⟨⟨response, w'⟩, hans⟩ := (answer_ok_iff R.isHeaderBlock R.body).mpr hsafe
      obtain ⟨go, s', hpass, hgo, hs', hcuts, hc'⟩ :=
        pass_request served hc hs hm (hlen.imp_right fun h => ⟨by rw [h.1]; rfl, h.2⟩) hans
      rw [servesEach_cons_iff hans hpass]
      cases go with
      | false => simpa using hclose (hgo.mp rfl)
      | true => simpa using (ih w' s' _ hc' hs').mpr (hcuts ▸ hrest response w' hans)

def getHome : WireRequest where
  method := text "GET"
  target := text "/"
  version := text "HTTP/1.1"
  fields := []
  method_ok := by decide +kernel
  target_ok := by decide +kernel
  version_ok := by decide +kernel
  body := []
  length_ok := Or.inl (by simp)

theorem clean_push_nil (b : Bytes) : Clean (push b []) := clean_push (by simp [Clean])

theorem servesEach_iff_getHome :
    ServesEach plainCtx ⟨⟨smallTree, ∅, ()⟩, push getHome.render (push getHome.render []), []⟩
        [getHome, getHome] ↔
      Aligned plainCtx ⟨smallTree, ∅, ()⟩ (cuts (push getHome.render (push getHome.render [])))
        [getHome, getHome] :=
  servesEach_iff plainCtx ⟨smallTree, ∅, ()⟩ [getHome, getHome]
    (push getHome.render (push getHome.render [])) [] (clean_push (clean_push_nil _))
    (by simp [stream_push, stream, wire])

theorem getHome_twice_served :
    (handleClient plainCtx ⟨⟨smallTree, ∅, ()⟩, push (wire [getHome, getHome]) [], []⟩).map
      (fun c => c.served.length) = .ok 1 := by decide +kernel

/-- Two requests that arrive in one piece get one answer. -/
theorem getHome_twice_lost :
    Clean (push (wire [getHome, getHome]) []) ∧
      stream (push (wire [getHome, getHome]) []) = wire [getHome, getHome] ∧
      ¬ ServesEach plainCtx ⟨⟨smallTree, ∅, ()⟩, push (wire [getHome, getHome]) [], []⟩
        [getHome, getHome] := by
  refine ⟨clean_push_nil _, by simp [stream_push, stream], ?_⟩
  rintro ⟨log, w', c', hall, hcl, hserved, -⟩
  have hone := getHome_twice_served
  rw [hcl, Except.map, hserved, List.nil_append, answerAll_length hall] at hone
  simp at hone

end SemanticSearch
