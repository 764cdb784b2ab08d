import SemanticSearch.BodyLength
import SemanticSearch.MutationEffects

namespace SemanticSearch

open FileSystem

variable {V : Type} {ctx : ClientCtx V} {w : World V}

theorem set_eq_self_iff {fs : FileSystem} {q : RealPath} {e : Entry} (hc : fs.CanSet q) :
    fs.set q e = fs ↔ fs.entries[q]? = some e := by
  constructor
  · intro h
    rw [← h, entries_set hc, if_pos rfl]
  · intro h
    apply ext_entries _ (cwd_set fs q e)
    intro p
    rw [entries_set hc]
    split_ifs with hp
    · rw [hp, h]
    · rfl

/-- The world already is what an empty body stored at `q` makes it: the file is there and
empty, the index has no entry for it, and the vector service has its empty text. -/
structure HoldsEmpty (ctx : ClientCtx V) (w : World V) (rel : Bytes) (q : RealPath) : Prop where
  file : w.fs.entries[q]? = some (.file [])
  index : InvertedIndex.removeFile rel w.index = w.index
  vec : ctx.addDoc rel [] w.vec = w.vec

theorem openTarget_of_set {fs : FileSystem} {rel : Bytes} {q : RealPath} {data : Bytes}
    (ho : fs.openTarget rel = .ok q) (he : fs.entries[q]? = some (.file data)) :
    fs.read rel = some data := by
  rcases openTarget_eq_ok.mp ho with ⟨d, n, hl, rfl⟩ | ⟨data', hr, -⟩
  · simp [(lookup_sound hl).2.1] at he
  · exact read_of_file hr he

theorem putAndIndex_empty_iff {rel : Bytes} {overwrite : Bool} {q : RealPath} {existed : Bool}
    (h : PutAccepted w.fs ctx.files_root rel overwrite q existed) :
    (putAndIndex ctx rel [] overwrite w).2 = w ↔ HoldsEmpty ctx w rel q := by
  have hc := canSet_of_openTarget h.target
  rw [putAndIndex_of_accepted h]
  have hadd : w.fs.entries[q]? = some (.file []) →
      InvertedIndex.addFile w.fs.view rel w.index = InvertedIndex.removeFile rel w.index := by
    intro he
    have hread : w.fs.view.read rel = some [] := openTarget_of_set h.target he
    simp [InvertedIndex.addFile, hread, InvertedIndex.countLines, getlines]
  constructor
  · intro heq
    have hfs : w.fs.set q (.file []) = w.fs := congrArg World.fs heq
    have hfile := (set_eq_self_iff hc).mp hfs
    have hindex := congrArg World.index heq
    simp only [hfs, hadd hfile] at hindex
    exact ⟨hfile, hindex, congrArg World.vec heq⟩
  · intro hh
    have hfs := (set_eq_self_iff hc).mpr hh.file
    simp only [hfs, hadd hh.file, hh.index, hh.vec]

theorem isSpace_of_isBlank {c : Byte} (h : isBlank c) : isSpace c := by
  obtain rfl | rfl : c = 32 ∨ c = 9 := by simpa [isBlank] using h
  · decide
  · decide

theorem isDigit_of_isBlank {c : Byte} (h : isBlank c) : isDigit c = false := by
  obtain rfl | rfl : c = 32 ∨ c = 9 := by simpa [isBlank] using h
  · decide
  · decide

/-- The text behind the colon of a `Content-Length` line. -/
def lengthText (line : Bytes) : Option Bytes :=
  (find [colon] line).bind fun c =>
    if (line.take c).map toLower = contentLength then some (line.drop (c + 1)) else none

/-- The number `n` in decimal, with blanks around it. -/
def SaysNumber (t : Bytes) (n : ℕ) : Prop :=
  ∃ before digits after, t = before ++ digits ++ after ∧ (∀ c ∈ before, isBlank c) ∧
    (∀ c ∈ after, isBlank c) ∧ digits ≠ [] ∧ (∀ c ∈ digits, isDigit c) ∧ digitsValue digits = n

/-- The headers declare a body of `n` bytes: there is a `Content-Length`, and each one says `n`,
whatever blanks stand around the number. -/
def DeclaresLength (H : Bytes) (n : ℕ) : Prop :=
  (linesOf H).filterMap lengthText ≠ [] ∧ ∀ t ∈ (linesOf H).filterMap lengthText, SaysNumber t n

/-- A digit right behind the colon, and then zeros. The parser drops the first byte and reads 0. -/
def DigitThenZeros (t : Bytes) : Prop :=
  ∃ c zeros after, t = c :: (zeros ++ after) ∧ isDigit c ∧ (∀ z ∈ zeros, z = 48) ∧
    ∀ c ∈ after, isBlank c

theorem headerValue_contentLength (lines : List Bytes) :
    headerValue lines contentLength = ((lines.filterMap lengthText).getLast?).map (·.drop 1) := by
  induction lines with
  | nil => rfl
  | cons l ls ih =>
    rw [headerValue] at ih ⊢
    rw [List.filterMap_cons, List.filterMap_cons]
    rcases hf : find [colon] l with _ | c
    · have h1 : headerField l = none := by rw [headerField, hf, Option.map_none]
      have h2 : lengthText l = none := by rw [lengthText, hf, Option.bind_none]
      rw [h1, h2]
      exact ih
    have h1 : headerField l = some ((l.take c).map toLower, l.drop (c + 2)) := by
      rw [headerField, hf, Option.map_some]
    rw [h1]
    simp only
    rw [List.reverse_cons, List.lookup_append, ih]
    by_cases hc : (l.take c).map toLower = contentLength
    · have h2 : lengthText l = some (l.drop (c + 1)) := by
        rw [lengthText, hf, Option.bind_some, if_pos hc]
      rw [h2, hc, List.lookup_cons_self]
      simp only
      rw [List.getLast?_cons]
      cases (ls.filterMap lengthText).getLast? <;> simp
    · have h2 : lengthText l = none := by rw [lengthText, hf, Option.bind_some, if_neg hc]
      rw [h2, List.lookup_cons, beq_eq_false_iff_ne.mpr (Ne.symm hc)]
      simp

theorem digitsValue_foldl_eq_zero {ds : Bytes} (hds : ∀ c ∈ ds, isDigit c) (a : ℕ) :
    ds.foldl (fun a c => a * 10 + (c.toNat - 48)) a = 0 ↔ a = 0 ∧ ∀ z ∈ ds, z = 48 := by
  induction ds generalizing a with
  | nil => simp
  | cons c ds ih =>
    rw [List.forall_mem_cons] at hds
    have hc : 48 ≤ c.toNat := by
      have h := hds.1
      simp only [isDigit, Bool.and_eq_true, decide_eq_true_eq, UInt8.le_iff_toNat_le] at h
      exact h.1
    have hzero : c.toNat - 48 = 0 ↔ c = 48 := by
      rw [← UInt8.toNat_inj]
      change _ ↔ c.toNat = 48
      omega
    have hsum : a * 10 + (c.toNat - 48) = 0 ↔ a = 0 ∧ c = 48 := by
      rw [← hzero]
      omega
    rw [List.foldl_cons, ih hds.2, List.forall_mem_cons, hsum, and_assoc]

theorem digitsValue_eq_zero {ds : Bytes} (hds : ∀ c ∈ ds, isDigit c) :
    digitsValue ds = 0 ↔ ∀ z ∈ ds, z = 48 := by
  rw [digitsValue, digitsValue_foldl_eq_zero hds]
  simp

theorem stoul_of_blanks {before digits after : Bytes} {d : ℕ} (hbefore : ∀ c ∈ before, isBlank c)
    (hafter : ∀ c ∈ after, isBlank c) (hdigits : ∀ c ∈ digits, isDigit c)
    (h : stoul (before ++ digits ++ after) = .ok d) : d = digitsValue digits := by
  have hspaces : ∀ t, (before ++ t).dropWhile isSpace = t.dropWhile isSpace := fun t =>
    List.dropWhile_append_of_pos fun c hc => isSpace_of_isBlank (hbefore c hc)
  rcases digits with _ | ⟨c, ds⟩
  · -- nothing but blanks: there is no number
    have hnone : numeral (before ++ [] ++ after) = (false, []) := by
      have hall : (before ++ [] ++ after).dropWhile isSpace = [] := by
        rw [List.append_nil, hspaces, List.dropWhile_eq_nil_iff]
        exact fun c hc => isSpace_of_isBlank (hafter c hc)
      rw [numeral, hall]
    unfold stoul at h
    rw [hnone] at h
    cases h
  · have hc := hdigits c List.mem_cons_self
    have hnumeral : numeral (before ++ (c :: ds) ++ after) = (false, (c :: ds) ++ after) := by
      have hn := numeral_of_digit hc (ds ++ after)
      unfold numeral at hn ⊢
      rw [List.append_assoc, hspaces, List.cons_append]
      exact hn
    rw [signedNumber_of_stoul h, signedNumber, hnumeral]
    simp only [Bool.false_eq_true, if_false]
    rw [writtenNumber_append, writtenNumber, List.takeWhile_eq_self_iff.mpr hdigits]
    intro x hx
    obtain ⟨u, rfl⟩ := List.head?_eq_some_iff.mp hx
    exact isDigit_of_isBlank (hafter x List.mem_cons_self)

theorem SaysNumber.stoul_eq_zero {t : Bytes} {n d : ℕ} (ht : SaysNumber t n) (hn : 1 < n)
    (h : stoul (t.drop 1) = .ok d) : d = 0 ↔ DigitThenZeros t := by
  obtain ⟨before, digits, after, rfl, hbefore, hafter, hne, hdigits, hvalue⟩ := ht
  rcases before with _ | ⟨b, before⟩
  · obtain ⟨c, ds, rfl⟩ := List.exists_cons_of_ne_nil hne
    rw [List.forall_mem_cons] at hdigits
    have hd : d = digitsValue ds := by
      refine @stoul_of_blanks [] ds after d (by simp) hafter hdigits.2 ?_
      simpa using h
    rw [hd, digitsValue_eq_zero hdigits.2]
    constructor
    · intro hzeros
      exact ⟨c, ds, after, by simp, hdigits.1, hzeros, hafter⟩
    · rintro ⟨c', zeros, after', hsplit, -, hzeros, hafter'⟩
      -- both splits end their digits at the first blank
      have htake : ∀ {l u : Bytes}, (∀ x ∈ l, isDigit x) → (∀ x ∈ u, isBlank x) →
          (l ++ u).takeWhile isDigit = l := by
        intro l u hl hu
        rw [List.takeWhile_append_of_pos hl]
        rcases u with _ | ⟨x, u⟩
        · simp
        · rw [List.takeWhile_cons_of_neg (by simp [isDigit_of_isBlank (hu x List.mem_cons_self)]),
            List.append_nil]
      have htail : ds ++ after = zeros ++ after' := by simpa using (List.cons.inj hsplit).2
      have hzdigits : ∀ x ∈ zeros, isDigit x := by
        intro x hx
        rw [hzeros x hx]
        decide
      rw [← htake hdigits.2 hafter, htail, htake hzdigits hafter']
      exact hzeros
  · rw [List.forall_mem_cons] at hbefore
    have hd : d = n := by
      rw [← hvalue]
      exact stoul_of_blanks hbefore.2 hafter hdigits (by simpa using h)
    refine iff_of_false (by omega) ?_
    rintro ⟨c, zeros, after', hsplit, hc, -⟩
    obtain rfl : b = c := by simpa using (List.cons.inj hsplit).1
    simp [isDigit_of_isBlank hbefore.1] at hc

section Cut

variable {H b : Bytes} {s : Socket} {served : List (Bytes × Bytes)} {r : Request} {n : ℕ}

/-- The pass handles the block with the bytes that the loops took behind it. -/
theorem pass_put (served : List (Bytes × Bytes)) (hH : IsHeaderBlock H) (hr : parseRequest H = .ok r)
    (hm : r.method = text "PUT" ∨ r.method = text "POST") (hp : staticPrefix <+: r.path)
    (hn : declaredLength r = .ok (some n)) (hs : stream s = H ++ b) {m : Option ℕ}
    (ha : announcedLength H H.length = .ok m) :
    ∃ go c', pass ctx ⟨w, s, served⟩ = .ok (go, c') ∧
      c'.world = (putAndIndex ctx (r.path.drop 8)
        ((b.take (max (readAhead H (cuts s)) (m.getD 0))).take n) (overwrites r) w).2 := by
  obtain ⟨s', hread, -⟩ := hH.readRawRequest_ok hs ha
  rw [pass_of_some (c := ⟨w, s, served⟩) hread (hH.find_append _), hH.parseRequest_body hr hn]
  simp only [bind, Except.bind]
  rw [respond_put (r := withBody r (some n) _) hm hp]
  exact ⟨_, _, rfl, rfl⟩

/-- The block in two pieces, with the byte `x` behind its end in the second one. -/
def twoPieces (H : Bytes) (x : Byte) : Socket :=
  push H.dropLast [.chunk (H.getLastD 0) [x]]

theorem stream_twoPieces (hH : IsHeaderBlock H) (x : Byte) :
    stream (twoPieces H x) = H ++ [x] := by
  obtain ⟨t, rfl⟩ := List.getLast?_eq_some_iff.mp hH.getLast?
  simp [twoPieces, stream_push, stream]

theorem readAhead_twoPieces (hH : IsHeaderBlock H) (x : Byte) :
    readAhead H (cuts (twoPieces H x)) = 1 := by
  have h4 := hH.four_le
  obtain ⟨c, cs, hc⟩ := List.exists_cons_of_ne_nil (l := H.dropLast) (by
    intro h0
    have := congrArg List.length h0
    simp at this
    omega)
  have hlen : cs.length + 1 = H.length - 1 := by
    have := congrArg List.length hc
    simpa using this.symm
  have hcuts : cuts (twoPieces H x) = [H.length - 1, 2] := by
    simp [twoPieces, hc, push, cuts, hlen]
  rw [hcuts, readAhead, taken_beyond (by omega), show H.length - (H.length - 1) = 1 by omega,
    taken_within (by omega) (by omega), roundUp_small (by omega) (by decide)]
  have : bufSize = 4095 := rfl
  omega

/-- A request whose body arrives short, at every cut, in every chunking and from every state. -/
def CutLeavesWorld (ctx : ClientCtx V) (w : World V) (H : Bytes) (n : ℕ) : Prop :=
  ∀ s b, stream s = H ++ b → b.length < n → ∀ served go c',
    pass ctx ⟨w, s, served⟩ = .ok (go, c') → c'.world = w

theorem CutLeavesWorld.holdsEmpty {d : ℕ} (h : CutLeavesWorld ctx w H n) (hH : IsHeaderBlock H)
    (hr : parseRequest H = .ok r) (hm : r.method = text "PUT" ∨ r.method = text "POST")
    (hp : staticPrefix <+: r.path) (hd : declaredLength r = .ok (some d))
    {m : Option ℕ} (ha : announcedLength H H.length = .ok m) (h0 : n ≠ 0)
    {q : RealPath} {existed : Bool}
    (hacc : PutAccepted w.fs ctx.files_root (r.path.drop 8) (overwrites r) q existed) :
    (n = 1 ∨ d = 0) ∧ HoldsEmpty ctx w (r.path.drop 8) q := by
  -- the stream may end right behind the block, so the empty body arrives
  have hempty : HoldsEmpty ctx w (r.path.drop 8) q := by
    have hs : stream (push H []) = H ++ [] := by rw [stream_push_nil, List.append_nil]
    obtain ⟨go, c', hpass, hw⟩ := pass_put [] hH hr hm hp hd hs ha
    rw [h _ [] hs (by simp; omega) _ _ _ hpass] at hw
    rw [← putAndIndex_empty_iff hacc]
    simpa using hw.symm
  refine ⟨?_, hempty⟩
  by_contra h1
  -- one byte can arrive alone and is stored, and the file cannot hold both bodies
  have hs := stream_twoPieces hH 0
  obtain ⟨go, c', hpass, hw⟩ := pass_put [] hH hr hm hp hd hs ha
  rw [h _ [0] hs (by simp; omega) _ _ _ hpass, readAhead_twoPieces hH] at hw
  have hbody : (([0] : Bytes).take (max 1 (m.getD 0))).take d = [0] := by
    rw [List.take_of_length_le (i := d) (by simp; omega), List.take_of_length_le (by simp)]
  rw [hbody, putAndIndex_of_accepted hacc] at hw
  have hfile := (set_eq_self_iff (canSet_of_openTarget hacc.target)).mp (congrArg World.fs hw).symm
  rw [hempty.file] at hfile
  simp at hfile

theorem cutLeavesWorld_iff_of_parsed {d : ℕ} (hH : IsHeaderBlock H) (hr : parseRequest H = .ok r)
    (hm : r.method = text "PUT" ∨ r.method = text "POST") (hp : staticPrefix <+: r.path)
    (hd : declaredLength r = .ok (some d)) {m : Option ℕ}
    (ha : announcedLength H H.length = .ok m) :
    CutLeavesWorld ctx w H n ↔ n = 0 ∨
      ∀ q existed, PutAccepted w.fs ctx.files_root (r.path.drop 8) (overwrites r) q existed →
        (n = 1 ∨ d = 0) ∧ HoldsEmpty ctx w (r.path.drop 8) q := by
  constructor
  · intro h
    rcases eq_or_ne n 0 with h0 | h0
    · exact Or.inl h0
    · exact Or.inr fun q existed hacc => h.holdsEmpty hH hr hm hp hd ha h0 hacc
  · intro h s b hs hb served go c' hpass
    obtain ⟨go', c'', hpass', hw⟩ := pass_put served hH hr hm hp hd hs ha
    obtain rfl : c'' = c' := by
      rw [hpass] at hpass'
      exact (Prod.mk.inj (Except.ok.inj hpass')).2.symm
    rcases h with h | h
    · omega
    by_cases hacc : ∃ q existed,
        PutAccepted w.fs ctx.files_root (r.path.drop 8) (overwrites r) q existed
    · obtain ⟨q, existed, hacc⟩ := hacc
      obtain ⟨hshort, hempty⟩ := h q existed hacc
      have hbody : (b.take (max (readAhead H (cuts s)) (m.getD 0))).take d = [] := by
        rcases hshort with rfl | rfl
        · obtain rfl : b = [] := List.eq_nil_of_length_eq_zero (by omega)
          simp
        · rfl
      rw [hw, hbody]
      exact (putAndIndex_empty_iff hacc).mpr hempty
    · push Not at hacc
      rw [hw]
      exact putAndIndex_of_refused hacc _

theorem exists_upload (hH : IsHeaderBlock H) (hparse : ParseSafe H)
    (hm : (requestLine H).1 = text "PUT" ∨ (requestLine H).1 = text "POST")
    (hp : staticPrefix <+: (splitQuery (requestLine H).2.1).1) (hn : DeclaresLength H n) :
    ∃ r t d, parseRequest H = .ok r ∧ r.method = (requestLine H).1 ∧
      r.path = (splitQuery (requestLine H).2.1).1 ∧ declaredLength r = .ok (some d) ∧
      ((linesOf H).filterMap lengthText).getLast? = some t ∧ stoul (t.drop 1) = .ok d := by
  obtain ⟨r, hr⟩ := (hH.parseRequest_ok_iff []).mpr hparse
  obtain ⟨r₀, k, h₀, hk, rfl⟩ := hH.exists_head hr
  rw [List.append_nil] at hr
  have hmethod : (requestLine H).1 ≠ [] := by
    rcases hm with h | h <;> rw [h] <;> decide
  have htarget : (requestLine H).2.1 ≠ [] := by
    intro h
    rw [h] at hp
    exact absurd hp (by decide)
  obtain ⟨hline, -⟩ | ⟨-, hmeth, hpath, -, -, hheaders⟩ := parseHead_ok h₀
  · exact absurd hline (by simp [hmethod, htarget])
  obtain ⟨t, ht⟩ := Option.ne_none_iff_exists'.mp (mt List.getLast?_eq_none_iff.mp hn.1)
  have hdeclared := hk
  unfold declaredLength at hk
  rw [hheaders, headerValue_contentLength, ht, Option.map_some] at hk
  simp only at hk
  rcases hs : stoul (t.drop 1) with e | d
  · rw [hs] at hk
    cases hk
  · rw [hs] at hk
    obtain rfl : some d = k := Except.ok.inj hk
    exact ⟨_, t, d, hr, hmeth, hpath, hdeclared, ht, hs⟩

end Cut

def putBlock : Bytes := text "PUT /static/root/a HTTP/1.1\r\nContent-Length: 5\r\n\r\n"

theorem declaresLength_putBlock : DeclaresLength putBlock 5 := by
  have htexts : (linesOf putBlock).filterMap lengthText = [text " 5"] := by decide
  rw [DeclaresLength, htexts]
  refine ⟨by simp, fun t ht => ?_⟩
  obtain rfl := List.mem_singleton.mp ht
  exact ⟨text " ", text "5", [], by decide, by decide +kernel, by simp, by decide,
    by decide +kernel, by decide⟩

end SemanticSearch
