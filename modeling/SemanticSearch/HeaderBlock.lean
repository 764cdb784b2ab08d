import SemanticSearch.ReadingStream

namespace SemanticSearch

/-- The first blank line of `H` is at its end. -/
def IsHeaderBlock (H : Bytes) : Prop := find headerEnd H = some (H.length - 4)

instance (H : Bytes) : Decidable (IsHeaderBlock H) := inferInstanceAs (Decidable (_ = _))

variable {H : Bytes}

theorem isHeaderBlock_take {raw : Bytes} {i : ℕ} (h : find headerEnd raw = some i) :
    IsHeaderBlock (raw.take (i + 4)) := by
  have hlen : i + 4 ≤ raw.length := find_add_length_le h
  have ht : find headerEnd (raw.take (i + 4)) = some i := find_take h
  rw [IsHeaderBlock, ht, List.length_take, Nat.min_eq_left hlen]
  simp

theorem IsHeaderBlock.four_le (hH : IsHeaderBlock H) : 4 ≤ H.length := by
  have hlen : H.length - 4 + 4 ≤ H.length := find_add_length_le hH
  omega

theorem IsHeaderBlock.find_append (hH : IsHeaderBlock H) (b : Bytes) :
    find headerEnd (H ++ b) = some (H.length - 4) :=
  SemanticSearch.find_append hH b

theorem IsHeaderBlock.eq_lines (hH : IsHeaderBlock H) :
    ∃ first_line u, newline ∉ first_line ∧ (u = [] ∨ u.getLast? = some newline) ∧
      H = first_line ++ newline :: (u ++ crlf) := by
  obtain ⟨X, hX⟩ : ∃ X, H = X ++ headerEnd := by
    obtain ⟨t, ht⟩ := find_some_prefix hH
    have hl := congrArg List.length ht
    have h4 : headerEnd.length = 4 := rfl
    have := hH.four_le
    simp only [List.length_append, List.length_drop] at hl
    obtain rfl : t = [] := List.eq_nil_of_length_eq_zero (by omega)
    rw [List.append_nil] at ht
    exact ⟨H.take (H.length - 4), by rw [ht, List.take_append_drop]⟩
  by_cases hn : newline ∈ X
  · obtain ⟨first_line, X', rfl, hfl⟩ := List.eq_append_cons_of_mem hn
    refine ⟨first_line, X' ++ crlf, hfl, Or.inr ?_, ?_⟩
    · simp [crlf]
    · simp [hX, headerEnd, crlf]
  · refine ⟨X ++ [carriageReturn], [], ?_, Or.inl rfl, ?_⟩
    · intro hc
      rcases List.mem_append.mp hc with hc | hc
      · exact hn hc
      · simp [newline, carriageReturn] at hc
    · simp [hX, headerEnd, crlf]

/-- The header lines: those above the first blank one. -/
def headerLines (lines : List Bytes) : List Bytes :=
  (lines.map popCarriageReturn).takeWhile (· ≠ [])

theorem parseHeaders_eq (lines : List Bytes) (headers : Headers) :
    parseHeaders lines headers = (headerLines lines).foldlM parseHeader headers := by
  induction lines generalizing headers with
  | nil => rfl
  | cons l ls ih =>
    by_cases hl : popCarriageReturn l = []
    · simp [parseHeaders, headerLines, hl]
      rfl
    · simp only [parseHeaders, hl, if_false, headerLines, List.map_cons]
      rw [List.takeWhile_cons_of_pos (by simpa using hl), List.foldlM_cons]
      congr 1
      funext headers'
      exact ih headers'

theorem headerLines_append (u v : List Bytes) {l : Bytes} (hl : popCarriageReturn l = []) :
    headerLines (u ++ l :: v) = headerLines u := by
  induction u with
  | nil => simp [headerLines, hl]
  | cons k ks ih =>
    by_cases hk : popCarriageReturn k = []
    · simp [headerLines, hk]
    · simp only [headerLines, List.cons_append, List.map_cons] at ih ⊢
      rw [List.takeWhile_cons_of_pos (by simpa using hk),
        List.takeWhile_cons_of_pos (by simpa using hk), ih]

def linesOf (H : Bytes) : List Bytes := headerLines (getlines newline (requestLine H).2.2)

theorem IsHeaderBlock.requestLine_append (hH : IsHeaderBlock H) (b : Bytes) :
    requestLine (H ++ b) =
      ((requestLine H).1, (requestLine H).2.1, (requestLine H).2.2 ++ b) := by
  obtain ⟨first_line, u, hfl, -, rfl⟩ := hH.eq_lines
  simp only [requestLine, List.append_assoc, List.cons_append, takeWhile_ne hfl,
    dropWhile_ne hfl, List.tail_cons]

theorem IsHeaderBlock.linesOf_append (hH : IsHeaderBlock H) (b : Bytes) :
    linesOf (H ++ b) = linesOf H := by
  obtain ⟨first_line, u, hfl, hu, rfl⟩ := hH.eq_lines
  have hrest : ∀ b, (requestLine (first_line ++ newline :: (u ++ crlf) ++ b)).2.2 = u ++ (crlf ++ b) := by
    intro b
    simp only [requestLine, List.append_assoc, List.cons_append, dropWhile_ne hfl, List.tail_cons]
  have hlines : ∀ b, getlines newline (u ++ (crlf ++ b)) =
      getlines newline u ++ [carriageReturn] :: getlines newline b := by
    intro b
    rw [getlines_append_lines hu]
    rfl
  have hpop : popCarriageReturn [carriageReturn] = [] := rfl
  have h0 := hrest []
  rw [List.append_nil] at h0
  rw [linesOf, linesOf, hrest, h0, hlines, hlines, headerLines_append _ _ hpop,
    headerLines_append _ _ hpop]

/-- The request that a block describes, still without its body. -/
def parseHead (H : Bytes) : Except Exn Request := do
  if (requestLine H).1 = [] ∨ (requestLine H).2.1 = [] then
    return {}
  let headers ← (linesOf H).foldlM parseHeader ∅
  return { method := (requestLine H).1, path := (splitQuery (requestLine H).2.1).1,
           query := (splitQuery (requestLine H).2.1).2, headers, body := [] }

def declaredLength (r : Request) : Except Exn (Option ℕ) :=
  match r.headers[contentLength]? with
  | none => .ok none
  | some value => (stoul value).map some

def withBody (r : Request) (n : Option ℕ) (b : Bytes) : Request :=
  { r with body := b.take (n.getD 0) }

theorem IsHeaderBlock.parseRequest_append (hH : IsHeaderBlock H) (b : Bytes) :
    parseRequest (H ++ b) = do
      let r ← parseHead H
      let n ← declaredLength r
      return withBody r n b := by
  have hlen := hH.four_le
  have hl : headerLines (getlines newline ((requestLine H).2.2 ++ b)) = linesOf H := by
    rw [← hH.linesOf_append b, linesOf, hH.requestLine_append]
  rw [parseRequest, hH.requestLine_append, parseHead]
  by_cases h0 : (requestLine H).1 = [] ∨ (requestLine H).2.1 = []
  · simp only [if_pos h0]
    rfl
  · simp only [if_neg h0, parseHeaders_eq, hl]
    rcases hf : (linesOf H).foldlM parseHeader ∅ with e | headers
    · simp only [bind, Except.bind]
    · simp only [bind, Except.bind, parseBody, declaredLength, pure, Except.pure]
      rcases hc : headers[contentLength]? with _ | value
      · simp [withBody]
      · rcases hs : stoul value with e | n
        · simp [hs, Except.map]
        · simp only [hs, Except.map, hH.find_append b, withBody, Option.getD_some]
          rw [show H.length - 4 + 4 = H.length by omega, List.drop_left]

theorem IsHeaderBlock.exists_head (hH : IsHeaderBlock H) {b : Bytes} {r : Request}
    (h : parseRequest (H ++ b) = .ok r) :
    ∃ r₀ n, parseHead H = .ok r₀ ∧ declaredLength r₀ = .ok n ∧ r = withBody r₀ n b := by
  rw [hH.parseRequest_append] at h
  rcases h₀ : parseHead H with e | r₀
  · rw [h₀] at h
    cases h
  rcases hn : declaredLength r₀ with e | n
  · simp only [h₀, bind, Except.bind, hn] at h
    cases h
  · simp only [h₀, bind, Except.bind, hn] at h
    exact ⟨r₀, n, rfl, hn, (Except.ok.inj h).symm⟩

theorem IsHeaderBlock.parseRequest_body (hH : IsHeaderBlock H) {r : Request} {n : Option ℕ}
    (h : parseRequest H = .ok r) (hn : declaredLength r = .ok n) (b : Bytes) :
    parseRequest (H ++ b) = .ok (withBody r n b) := by
  rw [← List.append_nil H] at h
  obtain ⟨r₀, n₀, h₀, hn₀, rfl⟩ := hH.exists_head h
  obtain rfl : n = n₀ := by simpa using hn.symm.trans hn₀
  rw [hH.parseRequest_append, h₀]
  simp only [bind, Except.bind, hn₀]
  rfl

/-- A header line that is cut without an exception: its first colon is not its last byte. -/
def HeaderOk (line : Bytes) : Prop := ∀ c ∈ find [colon] line, c + 1 < line.length

/-- Name and value of a header line, as the parser cuts it. -/
def headerField (line : Bytes) : Option (Bytes × Bytes) :=
  (find [colon] line).map fun c => ((line.take c).map toLower, line.drop (c + 2))

/-- The value of the last header line with the name `key`. -/
def headerValue (lines : List Bytes) (key : Bytes) : Option Bytes :=
  (lines.filterMap headerField).reverse.lookup key

theorem parseHeader_ok_iff {headers : Headers} {line : Bytes} :
    (∃ headers', parseHeader headers line = .ok headers') ↔ HeaderOk line := by
  unfold parseHeader HeaderOk
  rcases hf : find [colon] line with _ | c
  · simp
  · have hlen : c + 1 ≤ line.length := find_add_length_le hf
    by_cases hc : line.length < c + 2
    · simp only [substr, if_pos hc, Option.mem_def, Option.some.injEq, forall_eq']
      constructor
      · rintro ⟨headers', h⟩
        cases h
      · intro h
        omega
    · simp only [substr, if_neg hc, Option.mem_def, Option.some.injEq, forall_eq']
      exact ⟨fun _ => by omega, fun _ => ⟨_, rfl⟩⟩

theorem parseHeader_eq {headers headers' : Headers} {line : Bytes}
    (h : parseHeader headers line = .ok headers') (key : Bytes) :
    headers'[key]? = ((headerField line).toList.lookup key).or headers[key]? := by
  unfold parseHeader at h
  unfold headerField
  rcases hf : find [colon] line with _ | c
  · rw [hf] at h
    cases h
    rfl
  · rw [hf] at h
    by_cases hc : line.length < c + 2
    · simp only [substr, if_pos hc] at h
      cases h
    · simp only [substr, if_neg hc] at h
      cases h
      simp only [Option.map_some, Option.toList_some, Std.ExtTreeMap.getElem?_insert,
        Std.LawfulEqCmp.compare_eq_iff_eq, List.lookup_cons, List.lookup_nil]
      by_cases hk : key = (line.take c).map toLower
      · simp [hk]
      · have hb : (key == (line.take c).map toLower) = false := by simpa using hk
        simp only [hb, if_neg (Ne.symm hk), Option.none_or]

theorem foldlM_parseHeader_ok_iff {lines : List Bytes} {headers : Headers} :
    (∃ headers', lines.foldlM parseHeader headers = .ok headers') ↔ ∀ l ∈ lines, HeaderOk l := by
  induction lines generalizing headers with
  | nil =>
    simp only [List.not_mem_nil, false_implies, implies_true, iff_true]
    exact ⟨headers, rfl⟩
  | cons l ls ih =>
    rw [List.foldlM_cons, List.forall_mem_cons]
    constructor
    · rintro ⟨headers', h⟩
      rcases hl : parseHeader headers l with e | h₁
      · rw [hl] at h
        cases h
      · rw [hl] at h
        exact ⟨parseHeader_ok_iff.mp ⟨h₁, hl⟩, ih.mp ⟨headers', h⟩⟩
    · rintro ⟨hl, hls⟩
      obtain ⟨h₁, hl⟩ : ∃ h₁, parseHeader headers l = .ok h₁ := parseHeader_ok_iff.mpr hl
      rw [hl]
      exact ih.mpr hls

theorem foldlM_parseHeader_eq {lines : List Bytes} {headers headers' : Headers}
    (h : lines.foldlM parseHeader headers = .ok headers') (key : Bytes) :
    headers'[key]? = (headerValue lines key).or headers[key]? := by
  induction lines generalizing headers with
  | nil =>
    cases h
    rfl
  | cons l ls ih =>
    rw [List.foldlM_cons] at h
    rcases hl : parseHeader headers l with e | h₁
    · rw [hl] at h
      cases h
    · rw [hl] at h
      rw [ih h, parseHeader_eq hl, headerValue, headerValue, List.filterMap_cons]
      rcases hf : headerField l with _ | f
      · rfl
      · simp only [Option.toList_some, List.reverse_cons, List.lookup_append, Option.or_assoc]

/-- The texts of a block whose values `parseRequest` can read. -/
def ParseSafe (H : Bytes) : Prop :=
  ((requestLine H).1 = [] ∨ (requestLine H).2.1 = []) ∨
    (∀ l ∈ linesOf H, HeaderOk l) ∧ ∀ v ∈ headerValue (linesOf H) contentLength, IsULong v

theorem parseHead_ok {r : Request} (h : parseHead H = .ok r) :
    ((requestLine H).1 = [] ∨ (requestLine H).2.1 = []) ∧ r = {} ∨
      ¬ ((requestLine H).1 = [] ∨ (requestLine H).2.1 = []) ∧ r.method = (requestLine H).1 ∧
        r.path = (splitQuery (requestLine H).2.1).1 ∧
        r.query = (splitQuery (requestLine H).2.1).2 ∧ r.body = [] ∧
        ∀ key, r.headers[key]? = headerValue (linesOf H) key := by
  unfold parseHead at h
  by_cases h0 : (requestLine H).1 = [] ∨ (requestLine H).2.1 = []
  · rw [if_pos h0] at h
    exact Or.inl ⟨h0, (Except.ok.inj h).symm⟩
  · rw [if_neg h0] at h
    rcases hf : (linesOf H).foldlM parseHeader ∅ with e | headers
    · rw [hf] at h
      cases h
    · rw [hf] at h
      cases h
      refine Or.inr ⟨h0, rfl, rfl, rfl, rfl, fun key => ?_⟩
      rw [foldlM_parseHeader_eq hf]
      simp

theorem parseHead_ok_iff : (∃ r, parseHead H = .ok r) ↔
    ((requestLine H).1 = [] ∨ (requestLine H).2.1 = []) ∨ ∀ l ∈ linesOf H, HeaderOk l := by
  unfold parseHead
  by_cases h0 : (requestLine H).1 = [] ∨ (requestLine H).2.1 = []
  · simp only [h0, if_true, true_or, iff_true]
    exact ⟨{}, rfl⟩
  · simp only [h0, if_false, false_or]
    rw [← @foldlM_parseHeader_ok_iff (linesOf H) ∅]
    rcases hf : (linesOf H).foldlM parseHeader ∅ with e | headers
    · simp [bind, Except.bind]
    · simp only [bind, Except.bind]
      exact ⟨fun _ => ⟨headers, rfl⟩, fun _ => ⟨_, rfl⟩⟩

theorem declaredLength_ok_iff {r : Request} :
    (∃ n, declaredLength r = .ok n) ↔ ∀ v ∈ r.headers[contentLength]?, IsULong v := by
  unfold declaredLength
  rcases hc : r.headers[contentLength]? with _ | v
  · simp
  · simp only [Option.mem_def, Option.some.injEq, forall_eq']
    rw [← stoul_ok_iff]
    rcases stoul v with e | n <;> simp [Except.map]

theorem IsHeaderBlock.parseRequest_ok_iff (hH : IsHeaderBlock H) (b : Bytes) :
    (∃ r, parseRequest (H ++ b) = .ok r) ↔ ParseSafe H := by
  rw [hH.parseRequest_append]
  unfold ParseSafe
  rcases hp : parseHead H with e | r
  · have hno : ¬ ∃ r, parseHead H = .ok r := by simp [hp]
    rw [parseHead_ok_iff, not_or] at hno
    simp only [bind, Except.bind, reduceCtorEq, exists_false, hno.1, hno.2, false_and, or_self]
  · have hlines := parseHead_ok_iff.mp ⟨r, hp⟩
    rcases parseHead_ok hp with ⟨h0, rfl⟩ | ⟨h0, -, -, -, -, hhead⟩
    · simp only [h0, true_or, iff_true]
      exact ⟨_, rfl⟩
    · simp only [h0, false_or] at hlines ⊢
      rw [← hhead, ← declaredLength_ok_iff]
      rcases hd : declaredLength r with e | n
      · simp [hd, bind, Except.bind]
      · simp only [hd, bind, Except.bind, Except.ok.injEq, exists_eq', and_true]
        exact ⟨fun _ => hlines, fun _ => ⟨_, rfl⟩⟩

theorem numeral_of_digit {c : Byte} (hc : isDigit c) (cs : Bytes) :
    numeral (c :: cs) = (false, c :: cs) := by
  have hlo : 48 ≤ c.toNat := by
    simp only [isDigit, Bool.and_eq_true, decide_eq_true_eq, UInt8.le_iff_toNat_le] at hc
    exact hc.1
  have hne : ∀ d : Byte, d.toNat < 48 → c ≠ d := by
    rintro d hd rfl
    omega
  unfold numeral
  rw [List.dropWhile_cons_of_neg (by simp [isSpace_of_isDigit hc])]
  simp only [if_neg (hne 43 (by decide)), if_neg (hne 45 (by decide))]

theorem length_takeWhile_lt {p : Byte → Bool} {t : Bytes} {c : Byte} (hc : c ∈ t)
    (hp : p c = false) : (t.takeWhile p).length < t.length := by
  apply lt_of_le_of_ne (List.takeWhile_prefix p).length_le
  intro h
  have hall := List.takeWhile_eq_self_iff.mp ((List.takeWhile_prefix p).eq_of_length h)
  simp [hall c hc] at hp

theorem takeWhile_isDigit_append {t : Bytes} (ht : newline ∈ t) (x : Bytes) :
    (t ++ x).takeWhile isDigit = t.takeWhile isDigit := by
  rw [List.takeWhile_append, if_neg (length_takeWhile_lt ht (by decide)).ne]

theorem IsHeaderBlock.getLast? (hH : IsHeaderBlock H) : H.getLast? = some newline := by
  obtain ⟨first_line, u, -, -, rfl⟩ := hH.eq_lines
  rw [show first_line ++ newline :: (u ++ crlf) =
    (first_line ++ newline :: (u ++ [carriageReturn])) ++ [newline] by simp [crlf],
    List.getLast?_concat]

theorem IsHeaderBlock.newline_mem_drop (hH : IsHeaderBlock H) {p : ℕ} (hp : p < H.length) :
    newline ∈ H.drop p := by
  have hlast := hH.getLast?
  rw [← List.take_append_drop p H, List.getLast?_append_of_ne_nil _ (by simpa using hp)] at hlast
  exact List.mem_of_getLast? hlast

theorem IsHeaderBlock.valPos_lt (hH : IsHeaderBlock H) {p : ℕ} (h : valPos H H.length = some p) :
    p < H.length := by
  simp only [valPos, List.take_length, Option.map_eq_some_iff] at h
  obtain ⟨cl_pos, hf, rfl⟩ := h
  set start := cl_pos + contentLengthKey.length with hstart
  have hlen : start ≤ (H.map toLower).length := find_add_length_le hf
  have hlast : (H.map toLower).getLast? = some newline := by
    rw [List.getLast?_map, hH.getLast?]
    rfl
  have hne : start ≠ (H.map toLower).length := by
    intro heq
    obtain ⟨t, ht⟩ := find_some_prefix hf
    have hl := congrArg List.length ht
    simp only [List.length_append, List.length_drop] at hl
    obtain rfl : t = [] := List.eq_nil_of_length_eq_zero (by omega)
    -- the key itself would be the end of the block
    rw [← List.take_append_drop cl_pos (H.map toLower), ← ht, List.append_nil,
      List.getLast?_append_of_ne_nil _ (by decide)] at hlast
    exact absurd hlast (by decide)
  -- the blanks behind the key end before the last byte of the block
  have hmem : newline ∈ (H.map toLower).drop start := by
    rw [← List.take_append_drop start (H.map toLower),
      List.getLast?_append_of_ne_nil _ (by simp at hlen hne ⊢; omega)] at hlast
    exact List.mem_of_getLast? hlast
  have hlt := length_takeWhile_lt (p := fun c => decide (c = space)) hmem (by decide)
  rw [List.length_drop, List.length_map] at hlt
  omega

theorem IsHeaderBlock.announcedLength_append (hH : IsHeaderBlock H) (x : Bytes) :
    announcedLength (H ++ x) H.length = announcedLength H H.length := by
  have hval : valPos (H ++ x) H.length = valPos H H.length := by
    simp only [valPos, List.take_left, List.take_length]
  unfold announcedLength
  rw [hval]
  rcases hp : valPos H H.length with _ | p
  · rfl
  have hlt := hH.valPos_lt hp
  simp only [List.getElem?_append_left hlt, List.drop_append_of_le_length hlt.le,
    List.getElem?_eq_getElem hlt]
  by_cases hd : isDigit H[p]
  · rw [if_pos hd, if_pos hd]
    have hmem := hH.newline_mem_drop hlt
    rw [List.drop_eq_getElem_cons hlt] at hmem ⊢
    rw [List.cons_append, stoul, stoul, numeral_of_digit hd, numeral_of_digit hd,
      ← List.cons_append, takeWhile_isDigit_append hmem]
  · rw [if_neg hd, if_neg hd]

/-- The digits that `readBody` reads as the length, if any, denote an `unsigned long`. -/
def AnnounceSafe (H : Bytes) : Prop :=
  ∀ p ∈ valPos H H.length, digitsValue ((H.drop p).takeWhile isDigit) < ulongBound

theorem IsHeaderBlock.announcedLength_ok_iff (hH : IsHeaderBlock H) :
    (∃ m, announcedLength H H.length = .ok m) ↔ AnnounceSafe H := by
  unfold announcedLength AnnounceSafe
  rcases hp : valPos H H.length with _ | p
  · simp
  have hlt := hH.valPos_lt hp
  simp only [Option.mem_def, Option.some.injEq, forall_eq', List.getElem?_eq_getElem hlt]
  rw [List.drop_eq_getElem_cons hlt]
  by_cases hd : isDigit H[p]
  · have hne : (H[p] :: H.drop (p + 1)).takeWhile isDigit ≠ [] := by
      rw [List.takeWhile_cons_of_pos hd]
      simp
    have hiff : IsULong (H[p] :: H.drop (p + 1)) ↔
        digitsValue ((H[p] :: H.drop (p + 1)).takeWhile isDigit) < ulongBound := by
      rw [IsULong, numeral_of_digit hd]
      exact and_iff_right hne
    rw [if_pos hd, ← hiff, ← stoul_ok_iff]
    rcases stoul (H[p] :: H.drop (p + 1)) with e | n <;> simp [Except.map]
  · have h0 : digitsValue [] < ulongBound := by decide
    rw [if_neg hd, List.takeWhile_cons_of_neg hd]
    simp only [h0, iff_true]
    exact ⟨none, rfl⟩

/-- The bytes behind the block that the header loop has taken when it stops. -/
def readAhead (H : Bytes) (lengths : List ℕ) : ℕ := taken H.length lengths - H.length

section Reading

variable {s : Socket} {b : Bytes}

theorem IsHeaderBlock.readAhead_le (hs : stream s = H ++ b) : readAhead H (cuts s) ≤ b.length ∧
    taken H.length (cuts s) = H.length + readAhead H (cuts s) := by
  have hsum : (cuts s).sum = H.length + b.length := by rw [sum_cuts, hs, List.length_append]
  have hle : H.length ≤ taken H.length (cuts s) := le_taken (by omega)
  have hge := taken_le_sum H.length (cuts s)
  unfold readAhead
  omega

theorem IsHeaderBlock.readHeaders_eq (hH : IsHeaderBlock H) (hs : stream s = H ++ b) :
    ∃ s', readHeaders s [] = (true, H ++ b.take (readAhead H (cuts s)), s') ∧
      stream s' = b.drop (readAhead H (cuts s)) ∧
      cuts s' = advance (H.length + readAhead H (cuts s)) (cuts s) ∧ (Clean s → Clean s') := by
  have hH' : find headerEnd ([] ++ H) = some (([] ++ H).length - 4) := hH
  obtain ⟨s', h1, h2, h3, h4⟩ := readHeaders_block hH' hs
  exact ⟨s', h1, h2, (readAhead_le hs).2 ▸ h3, h4⟩

theorem IsHeaderBlock.readRawRequest_error {e : Exn} (hH : IsHeaderBlock H)
    (hs : stream s = H ++ b) (he : announcedLength H H.length = .error e) :
    readRawRequest s = .error e := by
  obtain ⟨s', h1, -⟩ := hH.readHeaders_eq hs
  have hlen := hH.four_le
  simp only [readRawRequest, h1, hH.find_append]
  rw [show H.length - 4 + 4 = H.length by omega, readBody, hH.announcedLength_append, he]
  rfl

/-- The buffer of one request is its block and as many of the bytes behind it as the header
loop happened to take or the body loop waits for. -/
theorem IsHeaderBlock.readRawRequest_ok {m : Option ℕ} (hH : IsHeaderBlock H)
    (hs : stream s = H ++ b) (hm : announcedLength H H.length = .ok m) :
    ∃ s', readRawRequest s =
        .ok (H ++ b.take (max (readAhead H (cuts s)) (m.getD 0)), s') ∧
      (Clean s → stream s' = b.drop (max (readAhead H (cuts s)) (m.getD 0)) ∧
        cuts s' = advance (H.length + max (readAhead H (cuts s)) (m.getD 0)) (cuts s) ∧
        Clean s') := by
  obtain ⟨s₁, h1, h2, h3, h4⟩ := hH.readHeaders_eq hs
  have hx := (readAhead_le hs).1
  set x := readAhead H (cuts s)
  have hlen := hH.four_le
  simp only [readRawRequest, h1, hH.find_append]
  rw [show H.length - 4 + 4 = H.length by omega, readBody, hH.announcedLength_append, hm]
  cases m with
  | none =>
    refine ⟨s₁, by simp; rfl, fun hc => ?_⟩
    simpa using ⟨h2, h3, h4 hc⟩
  | some n =>
    have hread : (H ++ b.take x).length - H.length = x := by simp [hx]
    -- the body loop reads what the header loop has not taken already
    have hmax : max x n = x + (n - x) := by omega
    have hfst := readBodyLoop_fst n x (H ++ b.take x) s₁
    rw [h2, List.append_assoc, ← List.take_add, ← hmax] at hfst
    refine ⟨(readBodyLoop n x (H ++ b.take x) s₁).2, ?_, fun hc => ?_⟩
    · simp only [hread, Option.getD_some, ← hfst]
      rfl
    · obtain ⟨h5, h6, h7⟩ := @readBodyLoop_snd n x (H ++ b.take x) s₁ (h4 hc)
      rw [h2, List.drop_drop, ← hmax] at h5
      rw [h3, ← advance_add, Nat.add_assoc, ← hmax] at h6
      exact ⟨h5, h6, h7⟩

theorem readRawRequest_none (hs : find headerEnd (stream s) = none) :
    ∃ s', readRawRequest s = .ok (stream s, s') ∧ (Clean s → s' = []) := by
  have hs' : find headerEnd ([] ++ stream s) = none := hs
  obtain ⟨s', h1, h2⟩ := readHeaders_none hs'
  refine ⟨s', ?_, h2⟩
  simp only [readRawRequest, h1, List.nil_append]

end Reading
end SemanticSearch
