import SemanticSearch.HeaderText

namespace SemanticSearch

/-- The number at the start of the text, 0 if none is written there. -/
def writtenNumber (t : Bytes) : ℕ := digitsValue (t.takeWhile isDigit)

/-- The text behind the first `content-length:`, in letters of any case and wherever it stands,
and the spaces that follow it. -/
def behindKey (H : Bytes) : Bytes :=
  match find contentLengthKey (H.map toLower) with
  | none => []
  | some cl_pos => (H.drop (cl_pos + contentLengthKey.length)).dropWhile (· = space)

/-- The number of a header value: white space, a sign, and digits. A minus sign means the
complement in `unsigned long`. -/
def signedNumber (value : Bytes) : ℕ :=
  if (numeral value).1 then (ulongBound - writtenNumber (numeral value).2) % ulongBound
  else writtenNumber (numeral value).2

/-- The number two bytes behind the colon of the last `Content-Length` line, 0 without such a
line or without a method and a path. -/
def declaredNumber (H : Bytes) : ℕ :=
  if (requestLine H).1 = [] ∨ (requestLine H).2.1 = [] then 0
  else ((headerValue (linesOf H) contentLength).map signedNumber).getD 0

variable {H : Bytes}

theorem signedNumber_of_stoul {value : Bytes} {n : ℕ} (h : stoul value = .ok n) :
    n = signedNumber value := by
  unfold stoul at h
  unfold signedNumber writtenNumber
  dsimp only at h
  split_ifs at h ⊢
  · exact (Except.ok.inj h).symm
  · exact (Except.ok.inj h).symm

theorem toLower_eq_space {c : Byte} : toLower c = space ↔ c = space := by
  unfold toLower
  split_ifs with hc
  · have hne : c ≠ space := by
      rintro rfl
      exact absurd hc (by decide)
    refine iff_of_false (fun h => ?_) hne
    -- only the byte 0 becomes a space when 32 is added
    obtain rfl : c = 0 := add_eq_right.mp h
    exact absurd hc (by decide)
  · rfl

theorem drop_takeWhile_length (p : Byte → Bool) (t : Bytes) :
    t.drop (t.takeWhile p).length = t.dropWhile p := by
  induction t with
  | nil => rfl
  | cons c t ih =>
    by_cases hc : p c
    · rw [List.takeWhile_cons_of_pos hc, List.dropWhile_cons_of_pos hc]
      exact ih
    · rw [List.takeWhile_cons_of_neg hc, List.dropWhile_cons_of_neg hc]
      rfl

theorem drop_valPos {p : ℕ} (h : valPos H H.length = some p) : H.drop p = behindKey H := by
  simp only [valPos, List.take_length, Option.map_eq_some_iff] at h
  obtain ⟨cl_pos, hf, rfl⟩ := h
  have hspaces : ((H.map toLower).drop (cl_pos + contentLengthKey.length)).takeWhile
      (· = space) = ((H.drop (cl_pos + contentLengthKey.length)).takeWhile (· = space)).map toLower := by
    rw [← List.map_drop, List.takeWhile_map]
    congr 2
    funext c
    simp [toLower_eq_space]
  rw [behindKey, hf, hspaces, List.length_map, ← List.drop_drop, drop_takeWhile_length]

theorem behindKey_of_none (h : valPos H H.length = none) : behindKey H = [] := by
  simp only [valPos, List.take_length, Option.map_eq_none_iff] at h
  rw [behindKey, h]

theorem announcedLength_eq {m : Option ℕ} (h : announcedLength H H.length = .ok m) :
    m.getD 0 = writtenNumber (behindKey H) := by
  unfold announcedLength at h
  rcases hp : valPos H H.length with _ | p
  · rw [hp] at h
    rw [behindKey_of_none hp, ← Except.ok.inj h]
    rfl
  simp only [hp, ← List.head?_drop, drop_valPos hp] at h
  rcases hb : behindKey H with _ | ⟨c, t⟩ <;> simp only [hb, List.head?_nil, List.head?_cons] at h
  · rw [← Except.ok.inj h]
    rfl
  by_cases hc : isDigit c
  · rw [if_pos hc] at h
    rcases hs : stoul (c :: t) with e | n
    · simp [hs, Except.map] at h
    · obtain rfl : some n = m := by simpa [hs, Except.map] using h
      rw [Option.getD_some, signedNumber_of_stoul hs, signedNumber, numeral_of_digit hc]
      simp
  · rw [if_neg hc] at h
    rw [← Except.ok.inj h, writtenNumber, List.takeWhile_cons_of_neg hc]
    rfl

theorem declaredLength_eq {r : Request} {n : Option ℕ} (hr : parseHead H = .ok r)
    (hn : declaredLength r = .ok n) : n.getD 0 = declaredNumber H := by
  unfold declaredLength at hn
  rcases parseHead_ok hr with ⟨h0, rfl⟩ | ⟨h0, -, -, -, -, hheaders⟩
  · have hnone : (({} : Request).headers[contentLength]?) = none := by simp
    simp only [hnone] at hn
    rw [declaredNumber, if_pos h0, ← Except.ok.inj hn]
    rfl
  · rw [declaredNumber, if_neg h0]
    rw [hheaders] at hn
    rcases hv : headerValue (linesOf H) contentLength with _ | value <;> simp only [hv] at hn
    · rw [← Except.ok.inj hn]
      rfl
    · rcases hs : stoul value with e | k
      · simp [hs, Except.map] at hn
      · obtain rfl : some k = n := by simpa [hs, Except.map] using hn
        simp [signedNumber_of_stoul hs]

theorem find_of_prefix {pat s : Bytes} (h : pat <+: s) : find pat s = some 0 := by
  cases s with
  | nil => simp [find, List.prefix_nil.mp h]
  | cons c s => rw [find, if_pos (List.isPrefixOf_iff_prefix.mpr h)]

theorem find_append_line {pat l : Bytes} (hn : newline ∉ pat)
    (hl : ¬ pat <:+: l) (t : Bytes) :
    find pat (l ++ newline :: t) = (find pat t).map (· + (l.length + 1)) := by
  have hstart : ∀ l : Bytes, ¬ pat <:+: l → pat.isPrefixOf (l ++ newline :: t) = false := by
    intro l hl
    rw [Bool.eq_false_iff, ne_eq, List.isPrefixOf_iff_prefix]
    rintro ⟨u, hu⟩
    rcases List.append_eq_append_iff.mp hu with ⟨v, hv, -⟩ | ⟨v, hv, hv'⟩
    · exact hl (hv ▸ (List.prefix_append pat v).isInfix)
    · rcases v with _ | ⟨c, v⟩
      · rw [List.append_nil] at hv
        exact hl (hv ▸ List.infix_rfl)
      · obtain rfl : c = newline := (List.cons.inj hv').1.symm
        exact hn (by simp [hv])
  induction l with
  | nil =>
    have hp := hstart [] hl
    rw [List.nil_append] at hp ⊢
    rw [find, if_neg (by simp [hp])]
    rfl
  | cons c l ih =>
    have hp := hstart (c :: l) hl
    rw [List.cons_append] at hp ⊢
    rw [find, if_neg (by simp [hp]), ih fun h => hl (h.trans (List.suffix_cons c l).isInfix)]
    cases find pat t <;> simp
    omega

/-- A line in which `ReadBody` would find a length. -/
def NamesLength (line : Bytes) : Prop := contentLengthKey <:+: line.map toLower

instance (line : Bytes) : Decidable (NamesLength line) :=
  inferInstanceAs (Decidable (_ <:+: _))

/-- A `Content-Length` line with one space, and perhaps more, between the colon and a number. -/
structure SpacedLength (l : Bytes) : Prop where
  name : contentLengthKey <+: l.map toLower
  blank : l[contentLengthKey.length]? = some space
  number : ∃ d ∈ ((l.drop (contentLengthKey.length + 1)).dropWhile (· = space)).head?, isDigit d

/-- The header block gives one length in one place. Either no number is behind the first
`content-length:` and no line has that name; or that text is in the last `Content-Length` line,
where a space separates it from its number. -/
def OneLength (H : Bytes) : Prop :=
  ((∀ d ∈ (behindKey H).head?, ¬ isDigit d) ∧ headerValue (linesOf H) contentLength = none) ∨
    (requestLine H).1 ≠ [] ∧ (requestLine H).2.1 ≠ [] ∧
      ¬ NamesLength (H.takeWhile (· ≠ newline)) ∧
      ∃ above line below, linesOf H = above ++ line :: below ∧ (∀ l ∈ above, ¬ NamesLength l) ∧
        SpacedLength line ∧ headerValue below contentLength = none

theorem popCarriageReturn_append (l : Bytes) :
    ∃ cr, l = popCarriageReturn l ++ cr ∧ (cr = [] ∨ cr = [carriageReturn]) := by
  unfold popCarriageReturn
  split_ifs with h
  · obtain ⟨m, rfl⟩ := List.getLast?_eq_some_iff.mp h
    exact ⟨[carriageReturn], by simp, Or.inr rfl⟩
  · exact ⟨[], by simp, Or.inl rfl⟩

theorem not_namesLength_of_pop {l : Bytes} (h : ¬ NamesLength (popCarriageReturn l)) :
    ¬ NamesLength l := by
  obtain ⟨cr, hl, rfl | rfl⟩ := popCarriageReturn_append l
  · rw [List.append_nil] at hl
    rwa [← hl] at h
  · rw [hl, NamesLength, List.map_append, List.map_singleton, List.infix_concat_iff]
    rintro (hs | hi)
    · obtain ⟨a, ha⟩ := hs
      have hlast := congrArg List.getLast? ha
      simp [contentLengthKey, text, carriageReturn, toLower, isUpper] at hlast
    · exact h hi

theorem getlines_eq_cons {d : Byte} {s l : Bytes} {ls : List Bytes} (h : getlines d s = l :: ls) :
    (∃ t, s = l ++ d :: t ∧ ls = getlines d t) ∨ s = l ∧ ls = [] := by
  by_cases hd : d ∈ s
  · obtain ⟨a, b, rfl, ha⟩ := List.eq_append_cons_of_mem hd
    rw [getlines_append ha] at h
    obtain ⟨rfl, rfl⟩ := List.cons.inj h
    exact Or.inl ⟨b, rfl, rfl⟩
  · rcases eq_or_ne s [] with rfl | h0
    · cases h
    · rw [getlines_single hd h0] at h
      obtain ⟨rfl, rfl⟩ := List.cons.inj h
      exact Or.inr ⟨rfl, rfl⟩

theorem headerLines_cons (l : Bytes) (ls : List Bytes) : headerLines (l :: ls) =
    if popCarriageReturn l = [] then [] else popCarriageReturn l :: headerLines ls := by
  split_ifs with h
  · simp [headerLines, h]
  · simp [headerLines, List.takeWhile_cons_of_pos, h]

theorem find_headerLines {rest line : Bytes} {above below : List Bytes}
    (h : headerLines (getlines newline rest) = above ++ line :: below)
    (habove : ∀ l ∈ above, ¬ NamesLength l) :
    ∃ before behind, rest = before ++ (line ++ behind) ∧
      (∀ d ∈ behind.head?, isDigit d = false) ∧
      ∀ t, find contentLengthKey ((before ++ t).map toLower) =
        (find contentLengthKey (t.map toLower)).map (· + before.length) := by
  induction above generalizing rest with
  | nil =>
    rcases hg : getlines newline rest with _ | ⟨l, ls⟩
    · rw [hg] at h
      cases h
    rw [hg, headerLines_cons] at h
    split_ifs at h
    · cases h
    obtain ⟨rfl, -⟩ := List.cons.inj h
    obtain ⟨cr, hl, hcr⟩ := popCarriageReturn_append l
    rcases getlines_eq_cons hg with ⟨t, rfl, -⟩ | ⟨rfl, -⟩
    · refine ⟨[], cr ++ newline :: t, ?_, ?_, by simp⟩
      · rw [List.nil_append, ← List.append_assoc, ← hl]
      · rcases hcr with rfl | rfl <;> simp [isDigit, newline, carriageReturn]
    · refine ⟨[], cr, by simpa using hl, ?_, by simp⟩
      rcases hcr with rfl | rfl <;> simp [isDigit, carriageReturn]
  | cons k above ih =>
    rcases hg : getlines newline rest with _ | ⟨l, ls⟩
    · rw [hg] at h
      cases h
    rw [hg, headerLines_cons] at h
    split_ifs at h
    · cases h
    obtain ⟨rfl, htail⟩ := List.cons.inj h
    rw [List.forall_mem_cons] at habove
    rcases getlines_eq_cons hg with ⟨t, rfl, rfl⟩ | ⟨rfl, rfl⟩
    · obtain ⟨before, behind, rfl, hdigit, hfind⟩ := ih htail habove.2
      refine ⟨l ++ newline :: before, behind, by simp, hdigit, fun t => ?_⟩
      have hskip := find_append_line (t := (before ++ t).map toLower) (by decide)
        (not_namesLength_of_pop habove.1)
      rw [List.append_assoc, List.cons_append, List.map_append, List.map_cons,
        show toLower newline = newline by decide, hskip, hfind]
      cases find contentLengthKey (t.map toLower) <;> simp
      omega
    · simp [headerLines] at htail

theorem toLower_eq_colon {c : Byte} : toLower c = colon ↔ c = colon := by
  unfold toLower
  split_ifs with hc
  · have hne : c ≠ colon := by
      rintro rfl
      exact absurd hc (by decide)
    refine iff_of_false (fun h => ?_) hne
    obtain rfl : c = 26 := by
      have := congrArg (· - 32) h
      simpa [colon] using this
    exact absurd hc (by decide)
  · rfl

theorem headerField_of_name {line : Bytes} (h : contentLengthKey <+: line.map toLower) :
    headerField line = some (contentLength, line.drop (contentLengthKey.length + 1)) := by
  obtain ⟨u, hu⟩ := h
  have hkey : contentLengthKey = contentLength ++ [colon] := by decide
  obtain ⟨name, rest, rfl, hname, hrest⟩ : ∃ name rest, line = name ++ rest ∧
      name.map toLower = contentLength ∧ rest.map toLower = colon :: u := by
    rw [hkey, List.append_assoc, List.singleton_append] at hu
    exact List.map_eq_append_iff.mp hu.symm
  obtain ⟨c, value, rfl, hc, -⟩ : ∃ c value, rest = c :: value ∧ toLower c = colon ∧
      value.map toLower = u := List.map_eq_cons_iff.mp hrest
  obtain rfl := toLower_eq_colon.mp hc
  have hno : colon ∉ name := by
    intro hmem
    have : toLower colon ∈ name.map toLower := List.mem_map_of_mem hmem
    rw [hname] at this
    exact absurd this (by decide)
  have hlen : name.length = contentLength.length := by
    simpa using congrArg List.length hname
  rw [headerField, find_append_cons hno, Option.map_some, List.take_left, hname, hlen]
  rfl

theorem headerValue_append_cons {above below : List Bytes} {line key value : Bytes}
    (hline : headerField line = some (key, value)) (hbelow : headerValue below key = none) :
    headerValue (above ++ line :: below) key = some value := by
  rw [headerValue, List.filterMap_append, List.filterMap_cons, hline, List.reverse_append,
    List.reverse_cons, List.append_assoc, List.lookup_append]
  rw [headerValue] at hbelow
  rw [hbelow, Option.none_or, List.singleton_append, List.lookup_cons_self]

theorem signedNumber_of_spaces {t : Bytes} {d : Byte}
    (hd : d ∈ (t.dropWhile (· = space)).head?) (hdigit : isDigit d) :
    signedNumber t = writtenNumber (t.dropWhile (· = space)) := by
  obtain ⟨u, hu⟩ := List.head?_eq_some_iff.mp hd
  have hspaces : t.dropWhile isSpace = d :: u := by
    rw [← List.takeWhile_append_dropWhile (p := (· = space)) (l := t), hu,
      List.dropWhile_append_of_pos, List.dropWhile_cons_of_neg]
    · simp [isSpace_of_isDigit hdigit]
    · intro c hc
      obtain rfl : c = space := by simpa using List.mem_takeWhile_imp hc
      decide
  have hnumeral : numeral t = (false, d :: u) := by
    have h := numeral_of_digit hdigit u
    unfold numeral at h ⊢
    rw [hspaces]
    rwa [List.dropWhile_cons_of_neg (by simp [isSpace_of_isDigit hdigit])] at h
  rw [signedNumber, hnumeral, hu]
  simp

theorem writtenNumber_append {t u : Bytes} (h : ∀ d ∈ u.head?, isDigit d = false) :
    writtenNumber (t ++ u) = writtenNumber t := by
  rw [writtenNumber, writtenNumber, List.takeWhile_append]
  split_ifs with hlen
  · have hend : u.takeWhile isDigit = [] := by
      rcases u with _ | ⟨c, u⟩
      · rfl
      · rw [List.takeWhile_cons_of_neg (by simp [h c (by simp)])]
    rw [hend, List.append_nil, (List.takeWhile_prefix isDigit).eq_of_length hlen]
  · rfl

theorem behindKey_of_line (hH : IsHeaderBlock H) {above below : List Bytes} {line : Bytes}
    (hfirst : ¬ NamesLength (H.takeWhile (· ≠ newline)))
    (hlines : linesOf H = above ++ line :: below) (habove : ∀ l ∈ above, ¬ NamesLength l)
    (hline : SpacedLength line) :
    ∃ behind, (∀ d ∈ behind.head?, isDigit d = false) ∧ behindKey H =
      (line.drop (contentLengthKey.length + 1)).dropWhile (· = space) ++ behind := by
  obtain ⟨hname, hblank, d, hd, hdigit⟩ := hline
  obtain ⟨first_line, u, hfl, -, hsplit⟩ := hH.eq_lines
  have hrest : (requestLine H).2.2 = u ++ crlf := by
    rw [hsplit]
    simp only [requestLine, dropWhile_ne hfl, List.tail_cons]
  rw [hsplit, takeWhile_ne hfl] at hfirst
  rw [linesOf, hrest] at hlines
  obtain ⟨before, behind, hu, hend, hfind⟩ := find_headerLines hlines habove
  refine ⟨behind, hend, ?_⟩
  have hwhole : H = (first_line ++ newline :: before) ++ (line ++ behind) := by
    rw [hsplit, hu]
    simp
  have hpos : find contentLengthKey (H.map toLower) =
      some (first_line ++ newline :: before).length := by
    have hskip := find_append_line (t := (before ++ (line ++ behind)).map toLower)
      (by decide) hfirst
    have hhere : find contentLengthKey ((line ++ behind).map toLower) = some 0 := by
      rw [List.map_append]
      exact find_of_prefix (hname.trans (List.prefix_append _ _))
    rw [hfind, hhere] at hskip
    rw [hsplit, hu, List.map_append, List.map_cons, show toLower newline = newline by decide,
      hskip]
    simp
    omega
  have hvalue : line.drop contentLengthKey.length =
      space :: line.drop (contentLengthKey.length + 1) := by
    obtain ⟨hlt, hget⟩ := List.getElem?_eq_some_iff.mp hblank
    rw [List.drop_eq_getElem_cons hlt, hget]
  have hlong : contentLengthKey.length ≤ line.length := by
    simpa using hname.length_le
  obtain ⟨v, hv⟩ := List.head?_eq_some_iff.mp hd
  rw [behindKey, hpos]
  simp only
  rw [hwhole, ← List.drop_drop, List.drop_left, List.drop_append_of_le_length hlong, hvalue,
    List.cons_append, List.dropWhile_cons_of_pos (by simp), List.dropWhile_append, hv]
  rfl

theorem OneLength.numbers_eq (hH : IsHeaderBlock H) (h : OneLength H) :
    writtenNumber (behindKey H) = declaredNumber H := by
  rcases h with ⟨hnone, hvalue⟩ | ⟨hmethod, htarget, hfirst, above, line, below, hlines, habove,
    hline, hbelow⟩
  · have hzero : writtenNumber (behindKey H) = 0 := by
      rw [writtenNumber]
      rcases hb : behindKey H with _ | ⟨c, t⟩
      · rfl
      · rw [List.takeWhile_cons_of_neg (hnone c (by simp [hb]))]
        rfl
    rw [hzero, declaredNumber, hvalue]
    simp
  · obtain ⟨behind, hend, hbehind⟩ := behindKey_of_line hH hfirst hlines habove hline
    obtain ⟨d, hd, hdigit⟩ := hline.number
    rw [hbehind, writtenNumber_append hend, declaredNumber, if_neg (by simp [hmethod, htarget]),
      hlines, headerValue_append_cons (headerField_of_name hline.name) hbelow, Option.map_some,
      Option.getD_some, signedNumber_of_spaces hd hdigit]

theorem take_eq_take_iff {n m : ℕ} : (∀ b : Bytes, b.take n = b.take m) ↔ n = m := by
  constructor
  · intro h
    have hlen := congrArg List.length (h (List.replicate (n + m) 0))
    simp only [List.length_take, List.length_replicate] at hlen
    omega
  · rintro rfl b
    rfl

def uploadBlock : Bytes := text "POST /static/a HTTP/1.1\r\nContent-Length: 5\r\n\r\n"

theorem oneLength_upload : OneLength uploadBlock := by
  refine Or.inr ⟨by decide, by decide, by decide, [], text "Content-Length: 5", [], by decide,
    by simp, ⟨by decide, by decide, 53, by decide, by decide⟩, by decide⟩

/-- No blank behind the colon: the parser drops the first digit. -/
def noBlankBlock : Bytes := text "POST /static/a HTTP/1.1\r\nContent-Length:15\r\n\r\n"

end SemanticSearch
