import SemanticSearch.Decimal
import SemanticSearch.HeaderText
import SemanticSearch.SearchClient

namespace SemanticSearch

/-- `std::to_string` of an `int`. -/
def decimalInt (n : ℤ) : Bytes :=
  if n < 0 then text "-" ++ decimal n.natAbs else decimal n.natAbs

/-- The reason phrase that `MakeResponse` takes for an `int` when none is given. -/
def defaultReasonInt (status : ℤ) : Bytes :=
  if status < 0 then text "Unknown" else defaultReason status.natAbs

/-- `MakeResponse` of any `int`. -/
def makeResponseInt (status : ℤ) (body contentType statusText : Bytes) : Bytes :=
  let reason := if statusText = [] then defaultReasonInt status else statusText
  text "HTTP/1.1 " ++ decimalInt status ++ [space] ++ reason ++ crlf ++
    text "Content-Type: " ++ contentType ++ crlf ++
    text "Content-Length: " ++ decimal body.length ++ crlf ++ crlf ++ body

theorem decimalInt_natCast (n : ℕ) : decimalInt n = decimal n := by
  rw [decimalInt, if_neg (by omega), Int.natAbs_natCast]

theorem makeResponseInt_natCast (status : ℕ) (body contentType statusText : Bytes) :
    makeResponseInt status body contentType statusText =
      makeResponse status body contentType statusText := by
  have hpos : ¬ (status : ℤ) < 0 := by omega
  simp [makeResponseInt, makeResponse, decimalInt_natCast, defaultReasonInt, hpos]

/-- What `MakeResponse` is called with: an `int`, texts that stay within their line, and a
`std::string`. -/
structure BuiltResponse where
  status : ℤ
  body : Bytes
  contentType : Bytes
  statusText : Bytes
  status_ok : IsInt status
  contentType_ok : carriageReturn ∉ contentType ∧ newline ∉ contentType
  statusText_ok : carriageReturn ∉ statusText ∧ newline ∉ statusText
  body_ok : body.length < ulongBound

def BuiltResponse.render (r : BuiltResponse) : Bytes :=
  makeResponseInt r.status r.body r.contentType r.statusText

/-- The first response of a stream, and the bytes behind it. -/
def readResponse (s : Bytes) : Option ((ℤ × Bytes) × Bytes) := do
  let pos ← find headerEnd s
  let head := s.take (pos + 4)
  let status ← parseStatus head
  let value ← headerValue (linesOf head) contentLength
  let length ← (stoul value).toOption
  let rest := s.drop (pos + 4)
  if rest.length < length then none else some ((status, rest.take length), rest.drop length)

theorem length_readResponse {s rest : Bytes} {r : ℤ × Bytes} (h : readResponse s = some (r, rest)) :
    rest.length < s.length := by
  simp only [readResponse, Option.bind_eq_bind, Option.bind_eq_some_iff] at h
  obtain ⟨pos, hpos, status, -, value, -, length, -, h⟩ := h
  have hle : pos + 4 ≤ s.length := find_add_length_le hpos
  split_ifs at h with hlt
  obtain ⟨-, rfl⟩ := Prod.mk.injEq .. ▸ Option.some.inj h
  simp only [List.length_drop]
  omega

def readResponses (s : Bytes) : Option (List (ℤ × Bytes)) :=
  if s = [] then some []
  else
    match _h : readResponse s with
    | none => none
    | some (r, rest) => (readResponses rest).map (r :: ·)
termination_by s.length
decreasing_by exact length_readResponse _h

theorem readResponses_nil : readResponses [] = some [] := by rw [readResponses, if_pos rfl]

theorem readResponses_of_read {s rest : Bytes} {r : ℤ × Bytes}
    (h : readResponse s = some (r, rest)) :
    readResponses s = (readResponses rest).map (r :: ·) := by
  have hs : s ≠ [] := by
    rintro rfl
    simpa using length_readResponse h
  rw [readResponses, if_neg hs]
  split
  · next hnone => simp [h] at hnone
  · next r' rest' hsome =>
    obtain ⟨rfl, rfl⟩ := Prod.mk.injEq .. ▸ Option.some.inj (h.symm.trans hsome)
    rfl

def InLine (t : Bytes) : Prop := carriageReturn ∉ t ∧ newline ∉ t

instance (t : Bytes) : Decidable (InLine t) := inferInstanceAs (Decidable (_ ∧ _))

theorem inLine_append {a b : Bytes} (ha : InLine a) (hb : InLine b) : InLine (a ++ b) := by
  simp [InLine, ha.1, ha.2, hb.1, hb.2]

theorem inLine_decimal (n : ℕ) : InLine (decimal n) :=
  ⟨fun h => absurd (isDigit_of_mem_decimal h) (by decide),
    fun h => absurd (isDigit_of_mem_decimal h) (by decide)⟩

theorem inLine_decimalInt (n : ℤ) : InLine (decimalInt n) := by
  unfold decimalInt
  split_ifs
  · exact inLine_append (by decide) (inLine_decimal _)
  · exact inLine_decimal _

theorem inLine_defaultReasonInt (status : ℤ) : InLine (defaultReasonInt status) := by
  unfold defaultReasonInt defaultReason
  split_ifs <;> decide

theorem inLine_reason (status : ℤ) {statusText : Bytes} (h : InLine statusText) :
    InLine (if statusText = [] then defaultReasonInt status else statusText) := by
  split_ifs
  · exact inLine_defaultReasonInt status
  · exact h

theorem inLine_header {name value : Bytes} (h0 : name ≠ []) (hname : InLine name)
    (hvalue : InLine value) :
    name ++ colon :: space :: value ≠ [] ∧ InLine (name ++ colon :: space :: value) := by
  have hblank : InLine [colon, space] := by decide
  exact ⟨by simp [h0], inLine_append hname (inLine_append hblank hvalue)⟩

theorem extractInt_decimalInt {n : ℤ} (hn : IsInt n) {t : Bytes} (ht : EndsNumber t) :
    extractInt (space :: (decimalInt n ++ t)) = some n := by
  have hspace : ∀ s, numeral (space :: s) = numeral s := by
    intro s
    rw [numeral, numeral, List.dropWhile_cons_of_pos (by decide)]
  by_cases hneg : n < 0
  · have hnum : numeral (space :: (decimalInt n ++ t)) = (true, decimal n.natAbs ++ t) := by
      rw [hspace, decimalInt, if_pos hneg]
      rfl
    have hvalue : -(digitsValue (decimal n.natAbs) : ℤ) = n := by
      rw [digitsValue_decimal]
      omega
    simp only [extractInt, hnum, takeWhile_decimal _ ht, if_true, hvalue]
    rw [if_pos ⟨decimal_ne_nil _, hn⟩]
  · have hnum : numeral (space :: (decimalInt n ++ t)) = (false, decimal n.natAbs ++ t) := by
      rw [hspace, decimalInt, if_neg hneg, numeral_decimal]
    have hvalue : (digitsValue (decimal n.natAbs) : ℤ) = n := by
      rw [digitsValue_decimal]
      omega
    simp only [extractInt, hnum, takeWhile_decimal _ ht, Bool.false_eq_true, if_false, hvalue]
    rw [if_pos ⟨decimal_ne_nil _, hn⟩]

theorem extractWord_http (t : Bytes) :
    extractWord (text "HTTP/1.1" ++ space :: t) = some (text "HTTP/1.1", space :: t) := rfl

theorem endsNumber_takeWhile {t : Bytes} (ht : EndsNumber t) (p : Byte → Bool) :
    EndsNumber (t.takeWhile p) := by
  cases t with
  | nil => exact ht
  | cons c t =>
    rw [List.takeWhile_cons]
    split_ifs
    · exact ht
    · simp [EndsNumber]

theorem parseStatus_decimalInt {status : ℤ} (hs : IsInt status) {t : Bytes} (ht : EndsNumber t) :
    parseStatus (text "HTTP/1.1 " ++ decimalInt status ++ t) = some status := by
  have hbefore : newline ∉ text "HTTP/1.1 " ++ decimalInt status :=
    (inLine_append (by decide) (inLine_decimalInt status)).2
  have hline : (text "HTTP/1.1 " ++ decimalInt status ++ t).takeWhile (· ≠ newline) =
      text "HTTP/1.1" ++ space :: (decimalInt status ++ t.takeWhile (· ≠ newline)) := by
    have h1 : text "HTTP/1.1 " = text "HTTP/1.1" ++ [space] := rfl
    have hne : ∀ c ∈ text "HTTP/1.1 " ++ decimalInt status, decide (c ≠ newline) = true := by
      intro c hc
      simpa using fun he : c = newline => hbefore (he ▸ hc)
    rw [List.takeWhile_append_of_pos hne]
    simp [h1]
  rw [parseStatus, getline, if_neg (by simp [text]), hline]
  simp only [Option.bind_eq_bind, Option.bind_some, extractWord_http]
  exact extractInt_decimalInt hs (endsNumber_takeWhile ht _)

theorem responseBody_append {H : Bytes} (hH : IsHeaderBlock H) (b : Bytes) :
    responseBody (H ++ b) = b := by
  have hlen := hH.four_le
  rw [responseBody, hH.find_append]
  simp only
  rw [show H.length - 4 + 4 = H.length by omega, List.drop_left]

namespace BuiltResponse

variable (r : BuiltResponse)

def reason : Bytes := if r.statusText = [] then defaultReasonInt r.status else r.statusText

def statusLine : Bytes := text "HTTP/1.1 " ++ decimalInt r.status ++ [space] ++ r.reason

def lines : List Bytes :=
  [text "Content-Type" ++ colon :: space :: r.contentType,
    text "Content-Length" ++ colon :: space :: decimal r.body.length]

theorem render_eq : r.render = blockText r.statusLine r.lines ++ r.body := by
  have h1 : text "Content-Type: " = text "Content-Type" ++ [colon, space] := rfl
  have h2 : text "Content-Length: " = text "Content-Length" ++ [colon, space] := rfl
  simp [render, makeResponseInt, blockText, statusLine, lines, reason, h1, h2]

theorem statusLine_ok : InLine r.statusLine := by
  have hreason : InLine r.reason := inLine_reason r.status r.statusText_ok
  exact inLine_append (inLine_append (inLine_append (by decide) (inLine_decimalInt _)) (by decide))
    hreason

theorem lines_ok : ∀ l ∈ r.lines, l ≠ [] ∧ InLine l := by
  intro l hl
  simp only [lines, List.mem_cons, List.not_mem_nil, or_false] at hl
  rcases hl with rfl | rfl
  · exact inLine_header (by decide) (by decide) r.contentType_ok
  · exact inLine_header (by decide) (by decide) (inLine_decimal _)

theorem isHeaderBlock : IsHeaderBlock (blockText r.statusLine r.lines) :=
  isHeaderBlock_blockText r.statusLine_ok.1 fun l hl => ⟨(r.lines_ok l hl).1, (r.lines_ok l hl).2.1⟩

theorem headerValue_eq :
    headerValue (linesOf (blockText r.statusLine r.lines)) contentLength =
      some (decimal r.body.length) := by
  rw [linesOf_blockText r.statusLine_ok.2
    fun l hl => ⟨(r.lines_ok l hl).1, (r.lines_ok l hl).2.2⟩]
  have h1 : colon ∉ text "Content-Type" := by decide
  have h2 : colon ∉ text "Content-Length" := by decide
  simp only [headerValue, lines, List.filterMap_cons, headerField_colon h1, headerField_colon h2]
  rfl

theorem parseStatus_append (t : Bytes) :
    parseStatus (blockText r.statusLine r.lines ++ t) = some r.status := by
  have htext : blockText r.statusLine r.lines ++ t = text "HTTP/1.1 " ++ decimalInt r.status ++
      space :: (r.reason ++ crlf ++ r.lines.flatMap (· ++ crlf) ++ crlf ++ t) := by
    simp [blockText, statusLine]
  have hend : EndsNumber
      (space :: (r.reason ++ crlf ++ r.lines.flatMap (· ++ crlf) ++ crlf ++ t)) := by
    intro c hc
    obtain rfl := Option.some.inj hc
    decide
  rw [htext]
  exact parseStatus_decimalInt r.status_ok hend

theorem readResponse_append (t : Bytes) :
    readResponse (r.render ++ t) = some ((r.status, r.body), t) := by
  have hblock := r.isHeaderBlock
  have hlen := hblock.four_le
  have hfind : find headerEnd (r.render ++ t) =
      some ((blockText r.statusLine r.lines).length - 4) := by
    rw [render_eq, List.append_assoc, hblock.find_append]
  have hpos : (blockText r.statusLine r.lines).length - 4 + 4 =
      (blockText r.statusLine r.lines).length := by omega
  have hstatus := r.parseStatus_append []
  rw [List.append_nil] at hstatus
  have hnumber := stoul_decimal r.body_ok (t := []) (by simp [EndsNumber])
  rw [List.append_nil] at hnumber
  have htake : (r.render ++ t).take (blockText r.statusLine r.lines).length =
      blockText r.statusLine r.lines := by
    rw [render_eq, List.append_assoc, List.take_left]
  have hdrop : (r.render ++ t).drop (blockText r.statusLine r.lines).length = r.body ++ t := by
    rw [render_eq, List.append_assoc, List.drop_left]
  simp only [readResponse, hfind, hpos, htake, hdrop, hstatus, r.headerValue_eq, hnumber,
    Except.toOption, Option.bind_eq_bind, Option.bind_some]
  rw [if_neg (by simp), List.take_left, List.drop_left]

end BuiltResponse

/-- A stream of responses is read as the statuses and bodies that they were built from, and the
client's own decoding of one response agrees. -/
theorem responses_framed :
    (∀ rs : List BuiltResponse,
      readResponses (rs.flatMap BuiltResponse.render) = some (rs.map fun r => (r.status, r.body))) ∧
    ∀ r : BuiltResponse, parseStatus r.render = some r.status ∧ responseBody r.render = r.body := by
  constructor
  · intro rs
    induction rs with
    | nil => exact readResponses_nil
    | cons r rs ih =>
      rw [List.flatMap_cons, readResponses_of_read (r.readResponse_append _), ih]
      rfl
  · intro r
    exact ⟨by rw [r.render_eq, r.parseStatus_append],
      by rw [r.render_eq, responseBody_append r.isHeaderBlock]⟩

end SemanticSearch
