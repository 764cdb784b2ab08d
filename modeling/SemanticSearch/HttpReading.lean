import SemanticSearch.HttpRequest

namespace SemanticSearch

/-- One event of the connection: bytes arrive in one piece, a read is interrupted or times out
(`EINTR`, `EAGAIN`; `done` is `g_done` at that moment), or a read fails. -/
inductive Recv
  | chunk (c : Byte) (cs : Bytes)
  | again (done : Bool)
  | failed
  deriving DecidableEq, Repr

/-- The events to come. After the last one the client has disconnected. -/
abbrev Socket := List Recv

inductive ReadResult
  | got (b : Bytes)
  | again (done : Bool)
  | failed
  | eof
  deriving DecidableEq, Repr

def push : Bytes → Socket → Socket
  | [], s => s
  | c :: cs, s => .chunk c cs :: s

/-- `read(fd, buf, k)`: at most `k` bytes of the piece at the front. -/
def read (k : ℕ) : Socket → ReadResult × Socket
  | [] => (.eof, [])
  | .chunk c cs :: s => (.got ((c :: cs).take k), push ((c :: cs).drop k) s)
  | .again done :: s => (.again done, s)
  | .failed :: s => (.failed, s)

def Recv.size : Recv → ℕ
  | .chunk _ cs => cs.length + 2
  | _ => 1

/-- What is left to read: every read that is no end of file makes it smaller. -/
def size (s : Socket) : ℕ := (s.map Recv.size).sum

@[simp] theorem size_nil : size [] = 0 := rfl

@[simp] theorem size_cons (e : Recv) (s : Socket) : size (e :: s) = e.size + size s := rfl

theorem size_push (b : Bytes) (s : Socket) : size (push b s) ≤ b.length + 1 + size s := by
  cases b with
  | nil => simp [push]
  | cons c cs => simp [push, Recv.size]

theorem size_read {k : ℕ} {s : Socket} (hk : 0 < k) (h : (read k s).1 ≠ .eof) :
    size (read k s).2 < size s := by
  match s with
  | [] => exact absurd rfl h
  | .chunk c cs :: s =>
    have h := size_push ((c :: cs).drop k) s
    simp only [List.length_drop, List.length_cons] at h
    simp only [read, size_cons, Recv.size]
    omega
  | .again done :: s => simp [read, Recv.size]
  | .failed :: s => simp [read, Recv.size]

theorem size_of_read {k : ℕ} {s s' : Socket} {r : ReadResult} (hk : 0 < k)
    (h : read k s = (r, s')) (hr : r ≠ .eof) : size s' < size s := by
  have := size_read hk (s := s)
  rw [h] at this
  exact this hr

def bufSize : ℕ := 4095

/-- `ReadHeaders`: whether the blank line came, the text read, and the rest of the socket. -/
def readHeaders (s : Socket) (raw : Bytes) : Bool × Bytes × Socket :=
  if (find headerEnd raw).isSome then (true, raw, s)
  else match _h : read bufSize s with
    | (.got b, s') => readHeaders s' (raw ++ b)
    | (.again done, s') => if done then (false, raw, s') else readHeaders s' raw
    | (.failed, s') => (false, raw, s')
    | (.eof, s') => (false, raw, s')
termination_by size s
decreasing_by
  · exact size_of_read (by decide) _h (by simp)
  · exact size_of_read (by decide) _h (by simp)

def contentLengthKey : Bytes := text "content-length:"

/-- `val_pos`: the position behind the first `content-length:` of the headers and the spaces
that follow it. -/
def valPos (raw : Bytes) (body_offset : ℕ) : Option ℕ :=
  let lower_hdr := (raw.take body_offset).map toLower
  (find contentLengthKey lower_hdr).map fun cl_pos =>
    let start := cl_pos + contentLengthKey.length
    start + ((lower_hdr.drop start).takeWhile (· = space)).length

/-- The `content_length` of `ReadBody`, if it goes on to read a body. -/
def announcedLength (raw : Bytes) (body_offset : ℕ) : Except Exn (Option ℕ) :=
  match valPos raw body_offset with
  | none => .ok none
  | some val_pos =>
    match raw[val_pos]? with
    | none => .ok none
    | some c => if isDigit c then (stoul (raw.drop val_pos)).map some else .ok none

/-- The loop of `ReadBody`. -/
def readBodyLoop (content_length body_read : ℕ) (raw : Bytes) (s : Socket) : Bytes × Socket :=
  if _hlt : body_read < content_length then
    match _h : read (min (content_length - body_read) bufSize) s with
    | (.got b, s') => readBodyLoop content_length (body_read + b.length) (raw ++ b) s'
    | (.again done, s') => if done then (raw, s') else readBodyLoop content_length body_read raw s'
    | (.failed, s') => (raw, s')
    | (.eof, s') => (raw, s')
  else (raw, s)
termination_by size s
decreasing_by
  · exact size_of_read (lt_min (by omega) (by decide)) _h (by simp)
  · exact size_of_read (lt_min (by omega) (by decide)) _h (by simp)

def readBody (raw : Bytes) (body_offset : ℕ) (s : Socket) : Except Exn (Bytes × Socket) := do
  match ← announcedLength raw body_offset with
  | none => return (raw, s)
  | some content_length => return readBodyLoop content_length (raw.length - body_offset) raw s

def readRawRequest (s : Socket) : Except Exn (Bytes × Socket) :=
  match readHeaders s [] with
  | (false, raw, s) => .ok (raw, s)
  | (true, raw, s) =>
    match find headerEnd raw with
    | none => .ok (raw, s)
    | some pos => readBody raw (pos + 4) s

theorem readHeaders_unfold {s : Socket} {raw : Bytes} (h : ¬ (find headerEnd raw).isSome) :
    readHeaders s raw = match read bufSize s with
      | (.got b, s') => readHeaders s' (raw ++ b)
      | (.again done, s') => if done then (false, raw, s') else readHeaders s' raw
      | (.failed, s') => (false, raw, s')
      | (.eof, s') => (false, raw, s') := by
  rw [readHeaders, if_neg h]
  split <;> rename_i hread <;> rw [hread]

theorem readBodyLoop_unfold {content_length body_read : ℕ} {raw : Bytes} {s : Socket}
    (h : body_read < content_length) :
    readBodyLoop content_length body_read raw s =
      match read (min (content_length - body_read) bufSize) s with
      | (.got b, s') => readBodyLoop content_length (body_read + b.length) (raw ++ b) s'
      | (.again done, s') =>
        if done then (raw, s') else readBodyLoop content_length body_read raw s'
      | (.failed, s') => (raw, s')
      | (.eof, s') => (raw, s') := by
  rw [readBodyLoop, dif_pos h]
  split <;> rename_i hread <;> rw [hread]

theorem readHeaders_fst (s : Socket) (raw : Bytes) :
    (readHeaders s raw).1 = (find headerEnd (readHeaders s raw).2.1).isSome := by
  fun_induction readHeaders s raw with
  | case1 s raw hf => simp [hf]
  | case2 s raw hf b s' h ih => exact ih
  | case3 s raw hf s' h => simpa using hf
  | case4 s raw hf done s' h hd ih => exact ih
  | case5 s raw hf s' h => simpa using hf
  | case6 s raw hf s' h => simpa using hf

theorem size_of_eof {k : ℕ} {s s' : Socket} (h : read k s = (.eof, s')) : size s' ≤ size s := by
  match s with
  | [] => cases h; exact le_refl _
  | .chunk c cs :: s => simp [read] at h
  | .again done :: s => simp [read] at h
  | .failed :: s => simp [read] at h

theorem size_readHeaders (s : Socket) (raw : Bytes) : size (readHeaders s raw).2.2 ≤ size s := by
  fun_induction readHeaders s raw with
  | case1 => exact le_refl _
  | case2 s raw hf b s' h ih => exact ih.trans (size_of_read (by decide) h (by simp)).le
  | case3 s raw hf s' h => exact (size_of_read (by decide) h (by simp)).le
  | case4 s raw hf done s' h hd ih => exact ih.trans (size_of_read (by decide) h (by simp)).le
  | case5 s raw hf s' h => exact (size_of_read (by decide) h (by simp)).le
  | case6 s raw hf s' h => exact size_of_eof h

theorem size_readHeaders_lt {s : Socket} {raw : Bytes} (hraw : ¬ (find headerEnd raw).isSome)
    (h : (readHeaders s raw).1 = true) : size (readHeaders s raw).2.2 < size s := by
  fun_induction readHeaders s raw with
  | case1 s raw hf => exact absurd hf hraw
  | case2 s raw hf b s' hr _ =>
    exact (size_readHeaders s' (raw ++ b)).trans_lt (size_of_read (by decide) hr (by simp))
  | case3 => simp at h
  | case4 s raw hf done s' hr hd _ =>
    exact (size_readHeaders s' raw).trans_lt (size_of_read (by decide) hr (by simp))
  | case5 => simp at h
  | case6 => simp at h

theorem size_readBodyLoop (content_length body_read : ℕ) (raw : Bytes) (s : Socket) :
    size (readBodyLoop content_length body_read raw s).2 ≤ size s := by
  fun_induction readBodyLoop content_length body_read raw s with
  | case1 body_read raw s hlt b s' h ih =>
    exact ih.trans (size_of_read (lt_min (by omega) (by decide)) h (by simp)).le
  | case2 body_read raw s hlt s' h =>
    exact (size_of_read (lt_min (by omega) (by decide)) h (by simp)).le
  | case3 body_read raw s hlt done s' h hd ih =>
    exact ih.trans (size_of_read (lt_min (by omega) (by decide)) h (by simp)).le
  | case4 body_read raw s hlt s' h =>
    exact (size_of_read (lt_min (by omega) (by decide)) h (by simp)).le
  | case5 body_read raw s hlt s' h => exact size_of_eof h
  | case6 => exact le_refl _

theorem size_readRawRequest {s s' : Socket} {raw : Bytes} (h : readRawRequest s = .ok (raw, s'))
    (hf : (find headerEnd raw).isSome) : size s' < size s := by
  unfold readRawRequest at h
  rcases hr : readHeaders s [] with ⟨ok, raw₁, s₁⟩
  have hfst := readHeaders_fst s []
  rw [hr] at h hfst
  cases ok with
  | false =>
    cases h
    exact absurd hf (by simp [← hfst])
  | true =>
    have hraw : ¬ (find headerEnd ([] : Bytes)).isSome := by decide
    have hlt := size_readHeaders_lt (s := s) hraw (by rw [hr])
    rw [hr] at hlt
    obtain ⟨pos, hpos⟩ := Option.isSome_iff_exists.mp hfst.symm
    simp only [hpos, readBody] at h
    rcases ha : announcedLength raw₁ (pos + 4) with e | _ | n
    · simp only [ha, bind, Except.bind] at h
      cases h
    · simp only [ha, bind, Except.bind] at h
      cases h
      exact hlt
    · simp only [ha, bind, Except.bind] at h
      have hle := size_readBodyLoop n (raw₁.length - (pos + 4)) raw₁ s₁
      rw [Except.ok.inj h] at hle
      exact hle.trans_lt hlt

end SemanticSearch
