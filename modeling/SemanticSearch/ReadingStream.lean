import SemanticSearch.HttpReading

namespace SemanticSearch

/-- The bytes that arrive before the stream ends: at a failed read, at an interrupted one
during shutdown, or at the end of the script. -/
def stream : Socket → Bytes
  | [] => []
  | .chunk c cs :: s => c :: cs ++ stream s
  | .again done :: s => if done then [] else stream s
  | .failed :: _ => []

def cuts : Socket → List ℕ
  | [] => []
  | .chunk _ cs :: s => (cs.length + 1) :: cuts s
  | .again done :: s => if done then [] else cuts s
  | .failed :: _ => []

/-- The pieces behind the first `n` bytes. -/
def advance : ℕ → List ℕ → List ℕ
  | _, [] => []
  | n, l :: ls => if n < l then (l - n) :: ls else advance (n - l) ls

/-- The stream ends only because the client disconnects. -/
def Clean (s : Socket) : Prop := ∀ e ∈ s, e ≠ .failed ∧ e ≠ .again true

theorem stream_push (b : Bytes) (s : Socket) : stream (push b s) = b ++ stream s := by
  cases b <;> rfl

theorem stream_push_nil (H : Bytes) : stream (push H []) = H := by
  rw [stream_push]
  simp [stream]

theorem clean_push {b : Bytes} {s : Socket} (h : Clean s) : Clean (push b s) := by
  cases b with
  | nil => exact h
  | cons c cs =>
    intro e he
    rcases List.mem_cons.mp he with rfl | he
    · simp
    · exact h e he

theorem Clean.tail {e : Recv} {s : Socket} (h : Clean (e :: s)) : Clean s :=
  fun e' he' => h e' (List.mem_cons_of_mem e he')

theorem sum_cuts (s : Socket) : (cuts s).sum = (stream s).length := by
  induction s with
  | nil => rfl
  | cons e s ih =>
    rcases e with ⟨c, cs⟩ | done | _
    · simp [cuts, stream, ih]
      omega
    · cases done <;> simp [cuts, stream, ih]
    · rfl

theorem pos_of_mem_cuts {s : Socket} {l : ℕ} (h : l ∈ cuts s) : 0 < l := by
  induction s with
  | nil => simp [cuts] at h
  | cons e s ih =>
    rcases e with ⟨c, cs⟩ | done | _
    · rcases List.mem_cons.mp h with rfl | h
      · omega
      · exact ih h
    · cases done
      · exact ih h
      · simp [cuts] at h
    · simp [cuts] at h

theorem advance_zero {ls : List ℕ} (hpos : ∀ l ∈ ls, 0 < l) : advance 0 ls = ls := by
  cases ls with
  | nil => rfl
  | cons l ls => simp [advance, hpos l List.mem_cons_self]

theorem advance_zero_cuts (s : Socket) : advance 0 (cuts s) = cuts s :=
  advance_zero fun _ => pos_of_mem_cuts

theorem advance_add (n m : ℕ) (ls : List ℕ) : advance (n + m) ls = advance m (advance n ls) := by
  induction ls generalizing n with
  | nil => rfl
  | cons l ls ih =>
    by_cases hn : n < l
    · simp only [advance, if_pos hn]
      by_cases hm : n + m < l
      · rw [if_pos hm, if_pos (by omega)]
        congr 1
        omega
      · rw [if_neg hm, if_neg (by omega)]
        congr 1
        omega
    · simp only [advance, if_neg hn]
      rw [if_neg (by omega), ← ih]
      congr 1
      omega

theorem advance_of_sum_le {n : ℕ} {ls : List ℕ} (h : ls.sum ≤ n) (hpos : ∀ l ∈ ls, 0 < l) :
    advance n ls = [] := by
  induction ls generalizing n with
  | nil => rfl
  | cons l ls ih =>
    rw [List.sum_cons] at h
    rw [advance, if_neg (by omega)]
    exact ih (by omega) fun l' hl' => hpos l' (List.mem_cons_of_mem l hl')

theorem read_got {k : ℕ} {s s' : Socket} {b : Bytes} (h : read k s = (.got b, s')) :
    ∃ l ls, cuts s = l :: ls ∧ b.length = min k l ∧ stream s = b ++ stream s' ∧
      cuts s' = advance b.length (cuts s) ∧ (Clean s → Clean s') := by
  match s with
  | .chunk c cs :: s =>
    simp only [read, Prod.mk.injEq, ReadResult.got.injEq] at h
    obtain ⟨rfl, rfl⟩ := h
    refine ⟨cs.length + 1, cuts s, rfl, by simp, ?_, ?_, fun hc => clean_push hc.tail⟩
    · rw [stream_push, ← List.append_assoc, List.take_append_drop]
      rfl
    · rcases hd : (c :: cs).drop k with _ | ⟨d, ds⟩
      · have hl : (c :: cs).length ≤ k := List.drop_eq_nil_iff.mp hd
        rw [List.take_of_length_le hl]
        simp [push, cuts, advance, advance_zero_cuts]
      · have hl := congrArg List.length hd
        simp only [List.length_drop, List.length_cons] at hl
        simp only [push, cuts, advance, List.length_take, List.length_cons]
        rw [if_pos (by omega)]
        congr 1
        omega
  | [] => simp [read] at h
  | .again done :: s => simp [read] at h
  | .failed :: s => simp [read] at h

theorem read_again {k : ℕ} {s s' : Socket} (h : read k s = (.again false, s')) :
    stream s = stream s' ∧ cuts s = cuts s' ∧ (Clean s → Clean s') := by
  match s with
  | .again done :: s =>
    simp only [read, Prod.mk.injEq, ReadResult.again.injEq] at h
    obtain ⟨rfl, rfl⟩ := h
    exact ⟨rfl, rfl, Clean.tail⟩
  | [] => simp [read] at h
  | .chunk c cs :: s => simp [read] at h
  | .failed :: s => simp [read] at h

theorem read_stop {k : ℕ} {s s' : Socket} {r : ReadResult} (h : read k s = (r, s'))
    (hr : r = .again true ∨ r = .failed ∨ r = .eof) :
    stream s = [] ∧ cuts s = [] ∧ (Clean s → s' = []) := by
  match s with
  | [] =>
    cases h
    exact ⟨rfl, rfl, fun _ => rfl⟩
  | .chunk c cs :: s =>
    cases h
    simp at hr
  | .again done :: s =>
    cases h
    obtain rfl : done = true := by simpa using hr
    exact ⟨rfl, rfl, fun hc => absurd rfl (hc _ List.mem_cons_self).2⟩
  | .failed :: s =>
    exact ⟨rfl, rfl, fun hc => absurd rfl (hc _ List.mem_cons_self).1⟩

theorem readBodyLoop_fst (content_length body_read : ℕ) (raw : Bytes) (s : Socket) :
    (readBodyLoop content_length body_read raw s).1 =
      raw ++ (stream s).take (content_length - body_read) := by
  fun_induction readBodyLoop content_length body_read raw s with
  | case1 body_read raw s hlt b s' h ih =>
    obtain ⟨l, ls, -, hb, hs, -, -⟩ := read_got h
    have hle : b.length ≤ content_length - body_read := by omega
    rw [ih, hs, List.append_assoc, List.take_append, List.take_of_length_le hle, Nat.sub_sub]
  | case2 body_read raw s hlt s' h => rw [(read_stop h (by simp)).1]; simp
  | case3 body_read raw s hlt done s' h hd ih =>
    obtain rfl : done = false := by simpa using hd
    rw [ih, (read_again h).1]
  | case4 body_read raw s hlt s' h => rw [(read_stop h (by simp)).1]; simp
  | case5 body_read raw s hlt s' h => rw [(read_stop h (by simp)).1]; simp
  | case6 body_read raw s hlt =>
    rw [show content_length - body_read = 0 by omega]
    simp

theorem read_stop_clean {k : ℕ} {s s' : Socket} {r : ReadResult} (h : read k s = (r, s'))
    (hr : r = .again true ∨ r = .failed ∨ r = .eof) (hc : Clean s) (n : ℕ) :
    stream s' = (stream s).drop n ∧ cuts s' = advance n (cuts s) ∧ Clean s' := by
  obtain ⟨h1, h2, h3⟩ := read_stop h hr
  rw [h3 hc, h1, h2]
  exact ⟨by simp [stream], rfl, by simp [Clean]⟩

theorem readBodyLoop_snd {content_length body_read : ℕ} {raw : Bytes} {s : Socket} (hc : Clean s) :
    stream (readBodyLoop content_length body_read raw s).2 =
        (stream s).drop (content_length - body_read) ∧
      cuts (readBodyLoop content_length body_read raw s).2 =
        advance (content_length - body_read) (cuts s) ∧
      Clean (readBodyLoop content_length body_read raw s).2 := by
  fun_induction readBodyLoop content_length body_read raw s with
  | case1 body_read raw s hlt b s' h ih =>
    obtain ⟨l, ls, -, hb, hs, hcut, hcl⟩ := read_got h
    have hle : b.length ≤ content_length - body_read := by omega
    have hsplit : content_length - body_read = b.length + (content_length - (body_read + b.length)) := by
      omega
    obtain ⟨h1, h2, h3⟩ := ih (hcl hc)
    refine ⟨?_, ?_, h3⟩
    · rw [h1, hs, hsplit, List.drop_append]
      simp
    · rw [h2, hcut, hsplit, advance_add]
  | case2 body_read raw s hlt s' h => exact read_stop_clean h (by simp) hc _
  | case3 body_read raw s hlt done s' h hd ih =>
    obtain rfl : done = false := by simpa using hd
    obtain ⟨h1, h2, h3⟩ := read_again h
    rw [h1, h2]
    exact ih (h3 hc)
  | case4 body_read raw s hlt s' h => exact read_stop_clean h (by simp) hc _
  | case5 body_read raw s hlt s' h => exact read_stop_clean h (by simp) hc _
  | case6 body_read raw s hlt =>
    rw [show content_length - body_read = 0 by omega, advance_zero_cuts]
    exact ⟨rfl, rfl, hc⟩

/-- The next multiple of the buffer size. -/
def roundUp (n : ℕ) : ℕ := (n + bufSize - 1) / bufSize * bufSize

theorem roundUp_small {n : ℕ} (h0 : 0 < n) (h : n ≤ bufSize) : roundUp n = bufSize := by
  have hb : bufSize = 4095 := rfl
  rw [roundUp, show (n + bufSize - 1) / bufSize = 1 by rw [hb] at h ⊢; omega, one_mul]

theorem roundUp_step {n : ℕ} (h : bufSize < n) : roundUp n = bufSize + roundUp (n - bufSize) := by
  have hb : bufSize = 4095 := rfl
  have hdiv : (n + bufSize - 1) / bufSize = (n - bufSize + bufSize - 1) / bufSize + 1 := by
    rw [hb] at h ⊢
    omega
  rw [roundUp, roundUp, hdiv, Nat.succ_mul, Nat.add_comm]

/-- How many bytes come in when `need` of them are read in pieces of at most `bufSize`. -/
def taken : ℕ → List ℕ → ℕ
  | _, [] => 0
  | need, l :: ls =>
    if need = 0 then 0
    else if need ≤ l then min l (roundUp need)
    else l + taken (need - l) ls

theorem taken_zero (ls : List ℕ) : taken 0 ls = 0 := by
  cases ls <;> simp [taken]

theorem taken_within {need l : ℕ} {ls : List ℕ} (h0 : 0 < need) (h : need ≤ l) :
    taken need (l :: ls) = min l (roundUp need) := by
  rw [taken, if_neg (by omega), if_pos h]

theorem taken_beyond {need l : ℕ} {ls : List ℕ} (h : l < need) :
    taken need (l :: ls) = l + taken (need - l) ls := by
  rw [taken, if_neg (by omega), if_neg (by omega)]

theorem taken_step {need l : ℕ} {ls : List ℕ} (hn : 0 < need) (hls : ∀ k ∈ ls, 0 < k) :
    taken need (l :: ls) =
      min bufSize l + taken (need - min bufSize l) (advance (min bufSize l) (l :: ls)) := by
  by_cases hbl : bufSize < l
  · rw [Nat.min_eq_left hbl.le, advance, if_pos hbl]
    rcases Nat.lt_or_ge l need with hnl | hnl
    · rw [taken_beyond hnl, taken_beyond (by omega),
        show need - bufSize - (l - bufSize) = need - l by omega]
      omega
    · rw [taken_within hn hnl]
      rcases Nat.lt_or_ge bufSize need with hnb | hnb
      · rw [taken_within (by omega) (by omega), roundUp_step hnb]
        omega
      · rw [show need - bufSize = 0 by omega, taken_zero, roundUp_small hn hnb]
        omega
  · rw [Nat.min_eq_right (by omega), advance, if_neg (lt_irrefl l), Nat.sub_self, advance_zero hls]
    rcases Nat.lt_or_ge l need with hnl | hnl
    · exact taken_beyond hnl
    · rw [taken_within hn hnl, show need - l = 0 by omega, taken_zero, roundUp_small hn (by omega)]
      omega

theorem taken_of_read {need : ℕ} {s s' : Socket} {b : Bytes} (h0 : 0 < need)
    (h : read bufSize s = (.got b, s')) :
    taken need (cuts s) = b.length + taken (need - b.length) (cuts s') := by
  obtain ⟨l, ls, hcs, hb, -, hcut, -⟩ := read_got h
  have hls : ∀ k ∈ ls, 0 < k := fun k hk =>
    pos_of_mem_cuts (s := s) (hcs ▸ List.mem_cons_of_mem l hk)
  rw [hcut, hcs, taken_step h0 hls, hb]

theorem le_taken {need : ℕ} {ls : List ℕ} (h : need ≤ ls.sum) : need ≤ taken need ls := by
  induction ls generalizing need with
  | nil =>
    rw [List.sum_nil] at h
    omega
  | cons l ls ih =>
    rw [List.sum_cons] at h
    rcases Nat.eq_zero_or_pos need with rfl | h0
    · omega
    rcases Nat.lt_or_ge l need with hnl | hnl
    · rw [taken_beyond hnl]
      have := ih (show need - l ≤ ls.sum by omega)
      omega
    · rw [taken_within h0 hnl]
      have hround : need ≤ roundUp need := by
        have hb : bufSize = 4095 := rfl
        rw [roundUp, hb]
        omega
      omega

theorem taken_le_sum (need : ℕ) (ls : List ℕ) : taken need ls ≤ ls.sum := by
  induction ls generalizing need with
  | nil => exact le_refl _
  | cons l ls ih =>
    rw [List.sum_cons]
    rcases Nat.eq_zero_or_pos need with rfl | h0
    · rw [taken_zero]
      omega
    rcases Nat.lt_or_ge l need with hnl | hnl
    · rw [taken_beyond hnl]
      have := ih (need - l)
      omega
    · rw [taken_within h0 hnl]
      omega

theorem readHeaders_done {s : Socket} {raw : Bytes} (h : (find headerEnd raw).isSome) :
    readHeaders s raw = (true, raw, s) := by
  rw [readHeaders, if_pos h]

theorem readHeaders_block {s : Socket} {raw need b : Bytes}
    (hH : find headerEnd (raw ++ need) = some ((raw ++ need).length - 4))
    (hs : stream s = need ++ b) :
    ∃ s', readHeaders s raw =
        (true, raw ++ need ++ b.take (taken need.length (cuts s) - need.length), s') ∧
      stream s' = b.drop (taken need.length (cuts s) - need.length) ∧
      cuts s' = advance (taken need.length (cuts s)) (cuts s) ∧ (Clean s → Clean s') := by
  have hne : ∀ {raw need : Bytes}, ¬ (find headerEnd raw).isSome →
      find headerEnd (raw ++ need) = some ((raw ++ need).length - 4) → need ≠ [] := by
    rintro raw need hf hH rfl
    rw [List.append_nil] at hH
    simp [hH] at hf
  fun_induction readHeaders s raw generalizing need with
  | case1 s raw hf =>
    -- the block is complete already, so nothing of it is still to come
    obtain ⟨i, hi⟩ := Option.isSome_iff_exists.mp hf
    have hlen := find_add_length_le hi
    have heq : i = (raw ++ need).length - 4 := by
      simpa [find_append hi need] using hH
    have h4 : headerEnd.length = 4 := rfl
    obtain rfl : need = [] := List.eq_nil_of_length_eq_zero (by simp at heq; omega)
    refine ⟨s, ?_, ?_, ?_, id⟩
    · simp [taken_zero]
    · simpa [taken_zero] using hs
    · simp [taken_zero, advance_zero_cuts]
  | case2 s raw hf b' s' h ih =>
    obtain ⟨l, ls, hcs, hb', hst, hcut, hcl⟩ := read_got h
    have htaken := taken_of_read (List.length_pos_iff.mpr (hne hf hH)) h
    rw [hst] at hs
    -- either the read ends within the block, or the block within the read
    rcases List.append_eq_append_iff.mp hs with ⟨need', rfl, hs'⟩ | ⟨b₁, rfl, rfl⟩
    · -- the read brings a part of the block
      have hH' : find headerEnd (raw ++ b' ++ need') = some ((raw ++ b' ++ need').length - 4) := by
        simpa using hH
      obtain ⟨s₂, h1, h2, h3, h4⟩ := ih hH' hs'
      have hsub : (b' ++ need').length - b'.length = need'.length := by simp
      have hx : taken (b' ++ need').length (cuts s) - (b' ++ need').length =
          taken need'.length (cuts s') - need'.length := by
        rw [htaken, hsub, List.length_append]
        omega
      refine ⟨s₂, ?_, ?_, ?_, fun hc => h4 (hcl hc)⟩
      · rw [h1, hx, List.append_assoc raw b' need']
      · rw [h2, hx]
      · rw [h3, htaken, hsub, hcut, advance_add]
    · -- the read completes it
      have hsome : (find headerEnd (raw ++ (need ++ b₁))).isSome := by
        rw [← List.append_assoc, find_append hH b₁]
        rfl
      have hsub : need.length - (need ++ b₁).length = 0 := by simp
      have hx : taken need.length (cuts s) - need.length = b₁.length := by
        rw [htaken, hsub, taken_zero, List.length_append]
        omega
      refine ⟨s', ?_, ?_, ?_, hcl⟩
      · rw [readHeaders_done hsome, hx]
        simp
      · rw [hx]
        simp
      · rw [htaken, hsub, taken_zero, hcut, Nat.add_zero]
  | case3 s raw hf s' h => simp [(read_stop h (by simp)).1, hne hf hH] at hs
  | case4 s raw hf done s' h hd ih =>
    obtain rfl : done = false := by simpa using hd
    obtain ⟨h1, h2, h3⟩ := read_again h
    rw [h2]
    obtain ⟨s₂, h4, h5, h6, h7⟩ := ih hH (h1 ▸ hs)
    exact ⟨s₂, h4, h5, h6, fun hc => h7 (h3 hc)⟩
  | case5 s raw hf s' h => simp [(read_stop h (by simp)).1, hne hf hH] at hs
  | case6 s raw hf s' h => simp [(read_stop h (by simp)).1, hne hf hH] at hs

theorem readHeaders_none {s : Socket} {raw : Bytes} (hs : find headerEnd (raw ++ stream s) = none) :
    ∃ s', readHeaders s raw = (false, raw ++ stream s, s') ∧ (Clean s → s' = []) := by
  fun_induction readHeaders s raw with
  | case1 s raw hf =>
    obtain ⟨i, hi⟩ := Option.isSome_iff_exists.mp hf
    simp [find_append hi] at hs
  | case2 s raw hf b s' h ih =>
    obtain ⟨l, ls, -, -, hst, -, hcl⟩ := read_got h
    rw [hst, ← List.append_assoc] at hs ⊢
    obtain ⟨s₂, h1, h2⟩ := ih hs
    exact ⟨s₂, h1, fun hc => h2 (hcl hc)⟩
  | case3 s raw hf s' h =>
    obtain ⟨h1, -, h3⟩ := read_stop h (by simp)
    exact ⟨s', by simp [h1], h3⟩
  | case4 s raw hf done s' h hd ih =>
    obtain rfl : done = false := by simpa using hd
    obtain ⟨h1, -, h3⟩ := read_again h
    rw [h1] at hs ⊢
    obtain ⟨s₂, h4, h5⟩ := ih hs
    exact ⟨s₂, h4, fun hc => h5 (h3 hc)⟩
  | case5 s raw hf s' h =>
    obtain ⟨h1, -, h3⟩ := read_stop h (by simp)
    exact ⟨s', by simp [h1], h3⟩
  | case6 s raw hf s' h =>
    obtain ⟨h1, -, h3⟩ := read_stop h (by simp)
    exact ⟨s', by simp [h1], h3⟩

end SemanticSearch
