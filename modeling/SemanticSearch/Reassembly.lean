import SemanticSearch.BodyLength

namespace SemanticSearch

/-- A call of `read`: the text at that moment, and how many bytes are asked for. -/
structure Asked where
  raw : Bytes
  count : ℕ
  deriving DecidableEq, Repr

def logged {α : Type} (a : Asked) (p : List Asked × α) : List Asked × α := (a :: p.1, p.2)

/-- `readHeaders` with its calls. -/
def readHeadersLog (s : Socket) (raw : Bytes) : List Asked × Bool × Bytes × Socket :=
  if (find headerEnd raw).isSome then ([], true, raw, s)
  else match _h : read bufSize s with
    | (.got b, s') => logged ⟨raw, bufSize⟩ (readHeadersLog s' (raw ++ b))
    | (.again done, s') =>
      if done then ([⟨raw, bufSize⟩], false, raw, s')
      else logged ⟨raw, bufSize⟩ (readHeadersLog s' raw)
    | (.failed, s') => ([⟨raw, bufSize⟩], false, raw, s')
    | (.eof, s') => ([⟨raw, bufSize⟩], false, raw, s')
termination_by size s
decreasing_by
  · exact size_of_read (by decide) _h (by simp)
  · exact size_of_read (by decide) _h (by simp)

def readBodyLoopLog (content_length body_read : ℕ) (raw : Bytes) (s : Socket) :
    List Asked × Bytes × Socket :=
  let to_read := min (content_length - body_read) bufSize
  if _hlt : body_read < content_length then
    match _h : read (min (content_length - body_read) bufSize) s with
    | (.got b, s') =>
      logged ⟨raw, to_read⟩ (readBodyLoopLog content_length (body_read + b.length) (raw ++ b) s')
    | (.again done, s') =>
      if done then ([⟨raw, to_read⟩], raw, s')
      else logged ⟨raw, to_read⟩ (readBodyLoopLog content_length body_read raw s')
    | (.failed, s') => ([⟨raw, to_read⟩], raw, s')
    | (.eof, s') => ([⟨raw, to_read⟩], raw, s')
  else ([], raw, s)
termination_by size s
decreasing_by
  · exact size_of_read (lt_min (by omega) (by decide)) _h (by simp)
  · exact size_of_read (lt_min (by omega) (by decide)) _h (by simp)

def readRawRequestLog (s : Socket) : List Asked × Except Exn (Bytes × Socket) :=
  match readHeadersLog s [] with
  | (asked, false, raw, s) => (asked, .ok (raw, s))
  | (asked, true, raw, s) =>
    match find headerEnd raw with
    | none => (asked, .ok (raw, s))
    | some pos =>
      match announcedLength raw (pos + 4) with
      | .error e => (asked, .error e)
      | .ok none => (asked, .ok (raw, s))
      | .ok (some content_length) =>
        let p := readBodyLoopLog content_length (raw.length - (pos + 4)) raw s
        (asked ++ p.1, .ok p.2)

theorem readHeadersLog_snd (s : Socket) (raw : Bytes) :
    (readHeadersLog s raw).2 = readHeaders s raw := by
  fun_induction readHeadersLog s raw with
  | case1 s raw hf => rw [readHeaders_done hf]
  | case2 s raw hf b s' h ih =>
    rw [readHeaders_unfold hf, h]
    exact ih
  | case3 s raw hf s' h =>
    rw [readHeaders_unfold hf, h]
    rfl
  | case4 s raw hf done s' h hd ih =>
    rw [readHeaders_unfold hf, h]
    simp only [if_neg hd]
    exact ih
  | case5 s raw hf s' h => rw [readHeaders_unfold hf, h]
  | case6 s raw hf s' h => rw [readHeaders_unfold hf, h]

theorem readBodyLoopLog_snd (content_length body_read : ℕ) (raw : Bytes) (s : Socket) :
    (readBodyLoopLog content_length body_read raw s).2 =
      readBodyLoop content_length body_read raw s := by
  fun_induction readBodyLoopLog content_length body_read raw s with
  | case1 body_read raw s to_read hlt b s' h ih =>
    rw [readBodyLoop_unfold hlt, h]
    exact ih
  | case2 body_read raw s to_read hlt s' h =>
    rw [readBodyLoop_unfold hlt, h]
    rfl
  | case3 body_read raw s to_read hlt done s' h hd ih =>
    rw [readBodyLoop_unfold hlt, h]
    simp only [if_neg hd]
    exact ih
  | case4 body_read raw s to_read hlt s' h => rw [readBodyLoop_unfold hlt, h]
  | case5 body_read raw s to_read hlt s' h => rw [readBodyLoop_unfold hlt, h]
  | case6 body_read raw s hlt => rw [readBodyLoop, dif_neg hlt]

theorem readRawRequestLog_snd (s : Socket) : (readRawRequestLog s).2 = readRawRequest s := by
  have hheaders := readHeadersLog_snd s []
  rw [readRawRequestLog, readRawRequest, ← hheaders]
  rcases readHeadersLog s [] with ⟨asked, _ | _, raw, s'⟩
  · rfl
  · rcases hf : find headerEnd raw with _ | pos
    · simp only [hf]
    · simp only [hf, readBody]
      rcases announcedLength raw (pos + 4) with e | _ | n
      · rfl
      · rfl
      · simp only [readBodyLoopLog_snd]
        rfl

section Later

variable {k : ℕ} {s s' : Socket} {r : ReadResult} {b raw : Bytes} {content_length body_read : ℕ}
  (tail : Socket)

theorem read_append (h : read k s = (r, s')) (hr : r ≠ .eof) :
    read k (s ++ tail) = (r, s' ++ tail) := by
  match s with
  | [] =>
    cases h
    exact absurd rfl hr
  | .chunk c cs :: s =>
    cases h
    have hpush : ∀ b : Bytes, push b s ++ tail = push b (s ++ tail) := by
      intro b
      cases b <;> rfl
    simp only [List.cons_append, read, hpush]
  | .again done :: s =>
    cases h
    rfl
  | .failed :: s =>
    cases h
    rfl

theorem readHeadersLog_of_got (hf : ¬ (find headerEnd raw).isSome)
    (h : read bufSize s = (.got b, s')) :
    readHeadersLog s raw = logged ⟨raw, bufSize⟩ (readHeadersLog s' (raw ++ b)) := by
  rw [readHeadersLog, if_neg hf]
  split <;> simp_all

theorem readHeadersLog_of_again (hf : ¬ (find headerEnd raw).isSome)
    (h : read bufSize s = (.again false, s')) :
    readHeadersLog s raw = logged ⟨raw, bufSize⟩ (readHeadersLog s' raw) := by
  rw [readHeadersLog, if_neg hf]
  split <;> simp_all

theorem readBodyLoopLog_of_got (hlt : body_read < content_length)
    (h : read (min (content_length - body_read) bufSize) s = (.got b, s')) :
    readBodyLoopLog content_length body_read raw s =
      logged ⟨raw, min (content_length - body_read) bufSize⟩
        (readBodyLoopLog content_length (body_read + b.length) (raw ++ b) s') := by
  rw [readBodyLoopLog]
  simp only [dif_pos hlt]
  split <;> simp_all

theorem readBodyLoopLog_of_again (hlt : body_read < content_length)
    (h : read (min (content_length - body_read) bufSize) s = (.again false, s')) :
    readBodyLoopLog content_length body_read raw s =
      logged ⟨raw, min (content_length - body_read) bufSize⟩
        (readBodyLoopLog content_length body_read raw s') := by
  rw [readBodyLoopLog]
  simp only [dif_pos hlt]
  split <;> simp_all

theorem readHeadersLog_append (h : (readHeadersLog s raw).2.1) :
    readHeadersLog (s ++ tail) raw = ((readHeadersLog s raw).1, true,
      (readHeadersLog s raw).2.2.1, (readHeadersLog s raw).2.2.2 ++ tail) := by
  fun_induction readHeadersLog s raw with
  | case1 s raw hf => rw [readHeadersLog, if_pos hf]
  | case2 s raw hf b s' hread ih =>
    rw [readHeadersLog_of_got hf (read_append tail hread (by simp)), ih h]
    rfl
  | case3 => cases h
  | case4 s raw hf done s' hread hd ih =>
    obtain rfl : done = false := by simpa using hd
    rw [readHeadersLog_of_again hf (read_append tail hread (by simp)), ih h]
    rfl
  | case5 => cases h
  | case6 => cases h

theorem readBodyLoopLog_append (h : content_length - body_read ≤ (stream s).length) :
    readBodyLoopLog content_length body_read raw (s ++ tail) =
      ((readBodyLoopLog content_length body_read raw s).1,
        (readBodyLoopLog content_length body_read raw s).2.1,
        (readBodyLoopLog content_length body_read raw s).2.2 ++ tail) := by
  fun_induction readBodyLoopLog content_length body_read raw s with
  | case1 body_read raw s to_read hlt b s' hread ih =>
    obtain ⟨l, ls, -, hb, hs, -, -⟩ := read_got hread
    rw [hs, List.length_append] at h
    rw [readBodyLoopLog_of_got hlt (read_append tail hread (by simp)), ih (by omega)]
    rfl
  | case2 body_read raw s to_read hlt s' hread =>
    rw [(read_stop hread (by simp)).1, List.length_nil] at h
    omega
  | case3 body_read raw s to_read hlt done s' hread hd ih =>
    obtain rfl : done = false := by simpa using hd
    rw [(read_again hread).1] at h
    rw [readBodyLoopLog_of_again hlt (read_append tail hread (by simp)), ih h]
    rfl
  | case4 body_read raw s to_read hlt s' hread =>
    rw [(read_stop hread (by simp)).1, List.length_nil] at h
    omega
  | case5 body_read raw s to_read hlt s' hread =>
    rw [(read_stop hread (by simp)).1, List.length_nil] at h
    omega
  | case6 body_read raw s hlt =>
    rw [readBodyLoopLog]
    simp only [dif_neg hlt]

theorem not_complete_of_mem {a : Asked} (h : a ∈ (readHeadersLog s raw).1) :
    ¬ (find headerEnd a.raw).isSome := by
  fun_induction readHeadersLog s raw with
  | case1 s raw hf => cases h
  | case2 s raw hf b s' hread ih =>
    rcases List.mem_cons.mp h with rfl | h
    · exact hf
    · exact ih h
  | case3 s raw hf s' hread =>
    obtain rfl := List.mem_singleton.mp h
    exact hf
  | case4 s raw hf done s' hread hd ih =>
    rcases List.mem_cons.mp h with rfl | h
    · exact hf
    · exact ih h
  | case5 s raw hf s' hread =>
    obtain rfl := List.mem_singleton.mp h
    exact hf
  | case6 s raw hf s' hread =>
    obtain rfl := List.mem_singleton.mp h
    exact hf

theorem asked_le_of_mem {a : Asked} (h : a ∈ (readBodyLoopLog content_length body_read raw s).1) :
    a.raw.length + a.count ≤ raw.length + (content_length - body_read) := by
  fun_induction readBodyLoopLog content_length body_read raw s with
  | case1 body_read raw s to_read hlt b s' hread ih =>
    obtain ⟨l, ls, -, hb, -⟩ := read_got hread
    rcases List.mem_cons.mp h with rfl | h
    · exact Nat.add_le_add_left (min_le_left _ _) _
    · have hle := ih h
      rw [List.length_append] at hle
      omega
  | case2 body_read raw s to_read hlt s' hread =>
    obtain rfl := List.mem_singleton.mp h
    exact Nat.add_le_add_left (min_le_left _ _) _
  | case3 body_read raw s to_read hlt done s' hread hd ih =>
    rcases List.mem_cons.mp h with rfl | h
    · exact Nat.add_le_add_left (min_le_left _ _) _
    · exact ih h
  | case4 body_read raw s to_read hlt s' hread =>
    obtain rfl := List.mem_singleton.mp h
    exact Nat.add_le_add_left (min_le_left _ _) _
  | case5 body_read raw s to_read hlt s' hread =>
    obtain rfl := List.mem_singleton.mp h
    exact Nat.add_le_add_left (min_le_left _ _) _
  | case6 => cases h

end Later

/-- The length that a header block announces: the number behind the first `content-length:`, with
spaces before it and a line break behind it; 0 when that name does not occur. -/
def AnnouncesLength (H : Bytes) (n : ℕ) : Prop :=
  match find contentLengthKey (H.map toLower) with
  | none => n = 0
  | some cl_pos => ∃ spaces digits rest, H.drop (cl_pos + contentLengthKey.length) =
      List.replicate spaces space ++ digits ++ crlf ++ rest ∧ digits ≠ [] ∧
        (∀ c ∈ digits, isDigit c) ∧ digitsValue digits = n ∧ n < ulongBound

variable {H body : Bytes} {s : Socket} {m : Option ℕ}

theorem AnnouncesLength.writtenNumber_eq {n : ℕ} (h : AnnouncesLength H n) :
    writtenNumber (behindKey H) = n ∧ n < ulongBound := by
  unfold AnnouncesLength at h
  unfold behindKey
  rcases hf : find contentLengthKey (H.map toLower) with _ | cl_pos
  · rw [hf] at h
    obtain rfl : n = 0 := h
    exact ⟨rfl, by decide⟩
  · rw [hf] at h
    obtain ⟨spaces, digits, rest, hdrop, hne, hdigits, hvalue, hbound⟩ := h
    refine ⟨?_, hbound⟩
    have hspaces : (List.replicate spaces space ++ (digits ++ (crlf ++ rest))).dropWhile
        (· = space) = digits ++ (crlf ++ rest) := by
      rw [List.dropWhile_append_of_pos (by simp +contextual [List.mem_replicate])]
      obtain ⟨c, cs, rfl⟩ := List.exists_cons_of_ne_nil hne
      have hc : c ≠ space := by
        rintro rfl
        exact absurd (hdigits space List.mem_cons_self) (by decide)
      rw [List.cons_append, List.dropWhile_cons_of_neg (by simpa using hc)]
    have hend : (crlf ++ rest).takeWhile isDigit = [] := rfl
    simp only [hdrop, List.append_assoc, hspaces]
    rw [writtenNumber, List.takeWhile_append_of_pos hdigits, hend, List.append_nil, hvalue]

theorem AnnouncesLength.announcedLength_eq {n : ℕ} (hH : IsHeaderBlock H)
    (h : AnnouncesLength H n) :
    ∃ m, announcedLength H H.length = .ok m ∧ m.getD 0 = n := by
  obtain ⟨hnumber, hbound⟩ := h.writtenNumber_eq
  have hsafe : AnnounceSafe H := by
    intro p hp
    rw [drop_valPos hp]
    change writtenNumber (behindKey H) < ulongBound
    rwa [hnumber]
  obtain ⟨m, hm⟩ := hH.announcedLength_ok_iff.mpr hsafe
  exact ⟨m, hm, (SemanticSearch.announcedLength_eq hm).trans hnumber⟩

theorem IsHeaderBlock.readRawRequestLog_append (hH : IsHeaderBlock H) (hs : stream s = H ++ body)
    (hm : announcedLength H H.length = .ok m) (hle : m.getD 0 ≤ body.length) (tail : Socket) :
    ∃ raw s', readRawRequestLog s = ((readRawRequestLog s).1, .ok (raw, s')) ∧
      readRawRequestLog (s ++ tail) = ((readRawRequestLog s).1, .ok (raw, s' ++ tail)) := by
  obtain ⟨s₁, hread, hrest, -⟩ := hH.readHeaders_eq hs
  rw [← readHeadersLog_snd] at hread
  have hlater := @readHeadersLog_append s [] tail (by rw [hread])
  have hpos : H.length - 4 + 4 = H.length := Nat.sub_add_cancel hH.four_le
  rw [readRawRequestLog, readRawRequestLog, hlater, ← Prod.eta (readHeadersLog s []), hread]
  simp only [hH.find_append, hpos, hH.announcedLength_append, hm]
  cases m with
  | none => exact ⟨_, _, rfl, rfl⟩
  | some n =>
    set x := readAhead H (cuts s)
    have hx := (readAhead_le hs).1
    have htaken : (H ++ body.take x).length - H.length = x := by simp [x, hx]
    rw [Option.getD_some] at hle
    have henough : n - x ≤ (stream s₁).length := by
      rw [hrest, List.length_drop]
      omega
    have hloop := @readBodyLoopLog_append s₁ (H ++ body.take x) n x tail henough
    refine ⟨_, _, rfl, ?_⟩
    simp only [htaken, hloop]

theorem IsHeaderBlock.asked_le (hH : IsHeaderBlock H) (hs : stream s = H ++ body)
    (hm : announcedLength H H.length = .ok m) {a : Asked} (ha : a ∈ (readRawRequestLog s).1)
    (hcomplete : (find headerEnd a.raw).isSome) :
    a.raw.length + a.count ≤ H.length + max (readAhead H (cuts s)) (m.getD 0) := by
  obtain ⟨s₁, hread, -⟩ := hH.readHeaders_eq hs
  rw [← readHeadersLog_snd] at hread
  have hpos : H.length - 4 + 4 = H.length := Nat.sub_add_cancel hH.four_le
  rw [readRawRequestLog, ← Prod.eta (readHeadersLog s []), hread] at ha
  simp only [hH.find_append, hpos, hH.announcedLength_append, hm] at ha
  cases m with
  | none => exact absurd hcomplete (not_complete_of_mem ha)
  | some n =>
    set x := readAhead H (cuts s)
    have hx := (readAhead_le hs).1
    have htaken : (H ++ body.take x).length = H.length + x := by simp [x, hx]
    rcases List.mem_append.mp ha with ha | ha
    · exact absurd hcomplete (not_complete_of_mem ha)
    · have hasked := asked_le_of_mem ha
      rw [htaken] at hasked
      rw [Option.getD_some]
      omega

/-- **Reassembly.** When the stream brings a request and nothing else, in whatever pieces, the
request is read and no byte of what comes later; and once its header block is complete, no call
asks for a byte behind it. -/
theorem readRawRequest_reassembles (hH : IsHeaderBlock H) (hn : AnnouncesLength H body.length)
    (hs : stream s = H ++ body) (hc : Clean s) (tail : Socket) :
    (∃ s', readRawRequest (s ++ tail) = .ok (H ++ body, s' ++ tail) ∧ stream s' = []) ∧
      ∀ a ∈ (readRawRequestLog (s ++ tail)).1, (find headerEnd a.raw).isSome →
        a.raw.length + a.count ≤ (H ++ body).length := by
  obtain ⟨m, hm, hmn⟩ := hn.announcedLength_eq hH
  obtain ⟨s', hread, hrest⟩ := hH.readRawRequest_ok hs hm
  obtain ⟨raw, s'', hlog, hlater⟩ := hH.readRawRequestLog_append hs hm hmn.le tail
  have hmax : max (readAhead H (cuts s)) (m.getD 0) = body.length := by
    rw [hmn]
    exact max_eq_right (IsHeaderBlock.readAhead_le hs).1
  rw [hmax, List.take_length] at hread
  rw [hmax, List.drop_length] at hrest
  have hsame : readRawRequest s = .ok (raw, s'') := by rw [← readRawRequestLog_snd, hlog]
  obtain ⟨rfl, rfl⟩ : raw = H ++ body ∧ s'' = s' := by
    rw [hread] at hsame
    simpa using hsame.symm
  refine ⟨⟨s'', ?_, (hrest hc).1⟩, ?_⟩
  · rw [← readRawRequestLog_snd, hlater]
  · intro a ha hcomplete
    rw [hlater] at ha
    have hle := hH.asked_le hs hm ha hcomplete
    rwa [hmax, ← List.length_append] at hle

/-- An upload that is cut inside its blank line and inside its body. -/
def uploadPieces : Socket :=
  push (uploadBlock.take 43) (.again false :: push (uploadBlock.drop 43 ++ text "fi")
    (.again false :: push (text "ve!") []))

theorem readRawRequest_reassembles_upload :
    (∃ s', readRawRequest (uploadPieces ++ [.chunk 71 (text "ET / HTTP/1.1")]) =
        .ok (uploadBlock ++ text "five!", s' ++ [.chunk 71 (text "ET / HTTP/1.1")]) ∧
      stream s' = []) ∧
      ∀ a ∈ (readRawRequestLog (uploadPieces ++ [.chunk 71 (text "ET / HTTP/1.1")])).1,
        (find headerEnd a.raw).isSome →
          a.raw.length + a.count ≤ (uploadBlock ++ text "five!").length := by
  refine readRawRequest_reassembles (by decide) ?_ rfl ?_ _
  · exact ⟨1, text "5", crlf, rfl, by decide, List.all_eq_true.mp rfl, rfl, by decide⟩
  · unfold Clean
    decide

end SemanticSearch
