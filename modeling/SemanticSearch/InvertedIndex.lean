import SemanticSearch.CountMap
import SemanticSearch.FileSystem
import SemanticSearch.MaximalRuns

namespace SemanticSearch

/-- One character of the scan: the tokens so far and the pending token `curr`. -/
def scanChar (st : List Bytes × Bytes) (c : Byte) : List Bytes × Bytes :=
  if isAlnum c then (st.1, st.2 ++ [toLower c])
  else if st.2 ≠ [] then (st.1 ++ [st.2], []) else st

/-- The end of the scan: a pending token is a token. -/
def flushToken (st : List Bytes × Bytes) : List Bytes :=
  if st.2 ≠ [] then st.1 ++ [st.2] else st.1

def tokenize (s : Bytes) : List Bytes := flushToken (s.foldl scanChar ([], []))

theorem foldl_scanChar_prefix (s : Bytes) (res res' : List Bytes) (curr : Bytes) :
    s.foldl scanChar (res ++ res', curr) =
      (res ++ (s.foldl scanChar (res', curr)).1, (s.foldl scanChar (res', curr)).2) := by
  induction s generalizing res' curr with
  | nil => rfl
  | cons c cs ih =>
    simp only [List.foldl_cons]
    have hstep : scanChar (res ++ res', curr) c =
        (res ++ (scanChar (res', curr) c).1, (scanChar (res', curr) c).2) := by
      simp only [scanChar]
      split_ifs <;> simp
    rw [hstep, ih]

theorem flushToken_prefix (res res' : List Bytes) (curr : Bytes) :
    flushToken (res ++ res', curr) = res ++ flushToken (res', curr) := by
  simp only [flushToken]
  split_ifs <;> simp

theorem tokenize_append_sep {c : Byte} (hc : isAlnum c = false) (a b : Bytes) :
    tokenize (a ++ c :: b) = tokenize a ++ tokenize b := by
  have hsep : ∀ st, scanChar st c = (flushToken st ++ [], []) := by
    rintro ⟨res, curr⟩
    simp only [scanChar, hc, flushToken]
    split_ifs <;> simp_all
  rw [tokenize, List.foldl_append, List.foldl_cons, hsep, foldl_scanChar_prefix,
    flushToken_prefix]
  rfl

theorem foldl_scanChar_word {w : Bytes} (hw : ∀ c ∈ w, isAlnum c) (res : List Bytes) (curr : Bytes) :
    w.foldl scanChar (res, curr) = (res, curr ++ w.map toLower) := by
  induction w generalizing curr with
  | nil => simp
  | cons c w ih =>
    rw [List.forall_mem_cons] at hw
    rw [List.foldl_cons, scanChar, if_pos hw.1, ih hw.2]
    simp

theorem tokenize_word {w : Bytes} (hw : ∀ c ∈ w, isAlnum c) (h0 : w ≠ []) :
    tokenize w = [w.map toLower] := by
  rw [tokenize, foldl_scanChar_word hw, flushToken, if_pos (by simpa using h0)]
  rfl

theorem scanChar_isAlnum {st : List Bytes × Bytes} (h : ∀ w ∈ st.2 :: st.1, ∀ c ∈ w, isAlnum c)
    (x : Byte) : ∀ w ∈ (scanChar st x).2 :: (scanChar st x).1, ∀ c ∈ w, isAlnum c := by
  rw [List.forall_mem_cons] at h ⊢
  unfold scanChar
  split_ifs with hx h0
  · refine ⟨fun c hc => ?_, h.2⟩
    rcases List.mem_append.mp hc with hc | hc
    · exact h.1 c hc
    · rw [List.mem_singleton.mp hc]
      exact isAlnum_toLower hx
  · refine ⟨by simp, fun w hw => ?_⟩
    rcases List.mem_append.mp hw with hw | hw
    · exact h.2 w hw
    · rw [List.mem_singleton.mp hw]
      exact h.1
  · exact h

theorem isAlnum_of_mem_tokenize {s w : Bytes} (h : w ∈ tokenize s) {c : Byte} (hc : c ∈ w) :
    isAlnum c := by
  have hscan := List.foldlRecOn s scanChar
    (motive := fun st => ∀ w ∈ st.2 :: st.1, ∀ c ∈ w, isAlnum c) (b := ([], []))
    (by simp) fun st hst x _ => scanChar_isAlnum hst x
  refine hscan w ?_ c hc
  unfold tokenize flushToken at h
  split_ifs at h
  · simpa [or_comm] using h
  · exact List.mem_cons_of_mem _ h

theorem flatMap_tokenize_getlines (s : Bytes) :
    (getlines newline s).flatMap tokenize = tokenize s := by
  induction s using lineInduction (d := newline) with
  | nil => rfl
  | last a ha h0 => simp [getlines_single ha h0]
  | line a b ha ih =>
    rw [getlines_append ha, List.flatMap_cons, ih, tokenize_append_sep (by decide)]

/-- The tokens of a text are its maximal runs of letters and digits, lower-cased, in the order in
which they stand, and the same tokens come from its lines one after the other. -/
theorem tokenize_maximalRuns (s : Bytes) :
    (∃ runs : List (ℕ × ℕ), (∀ r, r ∈ runs ↔ IsMaximalRun isAlnum s r) ∧
      runs.Pairwise (fun q r => q.2 < r.1) ∧
      tokenize s = runs.map fun r => (between s r).map toLower) ∧
    (∀ token ∈ tokenize s, token ≠ []) ∧ (getlines newline s).flatMap tokenize = tokenize s := by
  have hruns := exists_maximalRuns (p := isAlnum) tokenize (fun w => w.map toLower) rfl
    (fun w h0 hw => tokenize_word hw h0) (fun a c b hc => tokenize_append_sep hc a b) s
  refine ⟨hruns, ?_, flatMap_tokenize_getlines s⟩
  obtain ⟨runs, hmem, -, htokens⟩ := hruns
  intro token htoken
  rw [htokens, List.mem_map] at htoken
  obtain ⟨r, hr, rfl⟩ := htoken
  have hrun := (hmem r).mp hr
  have hlength : (between s r).length = r.2 - r.1 := by
    rw [between, List.length_take, List.length_drop]
    have hwithin := hrun.within
    omega
  apply List.ne_nil_of_length_pos
  rw [List.length_map, hlength]
  have hlt := hrun.nonempty
  omega

/-- A `directory_entry` of a walk: its path and what `is_regular_file()` answers. -/
structure DirEntry where
  path : Bytes
  isRegularFile : Except Errno Bool

/-- The file system as the index sees it. `walk` lists what a
`recursive_directory_iterator` visits, `read` is the content of a file that can be opened. -/
structure FileView where
  walk : Bytes → Except Errno (List DirEntry)
  read : Bytes → Option Bytes
  walk_nodup : ∀ root es, walk root = .ok es → (es.map DirEntry.path).Nodup

/-- `m_count[word][filepath]` is the count of `word` in `filepath`. -/
abbrev InvertedIndex := CountMap Bytes Bytes

namespace InvertedIndex

/-- The line loop: every token of every line is counted under `path`. -/
def countLines (path : Bytes) (content : Bytes) (m_count : InvertedIndex) : InvertedIndex :=
  (getlines newline content).foldl (fun m line =>
    (tokenize line).foldl (fun m token => m.bump token path) m) m_count

/-- One directory entry of `Build`. Folders are skipped, and files that cannot be opened. -/
def buildEntry (files : FileView) (m_count : InvertedIndex) (p : DirEntry) :
    Except Errno InvertedIndex := do
  if !(← p.isRegularFile) then
    return m_count
  match files.read p.path with
  | none => return m_count
  | some content => return countLines p.path content m_count

def build (files : FileView) (root : Bytes) : Except Errno InvertedIndex := do
  (← files.walk root).foldlM (buildEntry files) ∅

def removeFile (path : Bytes) (m_count : InvertedIndex) : InvertedIndex := m_count.dropDoc path

def addFile (files : FileView) (path : Bytes) (m_count : InvertedIndex) : InvertedIndex :=
  let m_count := removeFile path m_count
  match files.read path with
  | none => m_count
  | some content => countLines path content m_count

abbrev Snapshots := Bytes → Option Bytes

/-- How often `word` occurs in the snapshot of `path`. -/
def occurrences (S : Snapshots) (word path : Bytes) : ℕ :=
  match S path with
  | none => 0
  | some content => (tokenize content).count word

/-- The index is exactly the index of the snapshots. -/
def IndexOf (m_count : InvertedIndex) (S : Snapshots) : Prop :=
  m_count.Represents (occurrences S)

theorem countLines_eq (path content : Bytes) (m_count : InvertedIndex) :
    countLines path content m_count =
      (tokenize content).foldl (fun m token => m.bump token path) m_count := by
  rw [countLines, ← flatMap_tokenize_getlines, List.foldl_flatMap]

theorem indexOf_empty : IndexOf ∅ fun _ => none := CountMap.represents_empty

variable {m_count : InvertedIndex} {S S' : Snapshots}

theorem IndexOf.unique {m_count' : InvertedIndex} (h : IndexOf m_count S)
    (h' : IndexOf m_count' S) : m_count = m_count' := CountMap.Represents.unique h h'

theorem IndexOf.removeFile (h : IndexOf m_count S) (path : Bytes) :
    IndexOf (removeFile path m_count) (Function.update S path none) := by
  apply (CountMap.Represents.dropDoc h path).congr
  intro w p
  rcases eq_or_ne p path with rfl | hp
  · simp [occurrences]
  · simp [occurrences, hp]

theorem IndexOf.countLines (h : IndexOf m_count S) {path : Bytes} (hp : S path = none)
    (content : Bytes) :
    IndexOf (countLines path content m_count) (Function.update S path (some content)) := by
  rw [countLines_eq]
  apply (CountMap.Represents.bumpAll h (tokenize content) path).congr
  intro w p
  rcases eq_or_ne p path with rfl | hne
  · simp [occurrences, hp]
  · simp [occurrences, hne]

theorem IndexOf.addFile (h : IndexOf m_count S) (files : FileView) (path : Bytes) :
    IndexOf (addFile files path m_count) (Function.update S path (files.read path)) := by
  have hr := h.removeFile path
  rcases hf : files.read path with _ | content
  · simpa [InvertedIndex.addFile, hf] using hr
  · have hc := hr.countLines (Function.update_self path none S) content
    simpa [InvertedIndex.addFile, hf] using hc

end InvertedIndex
end SemanticSearch
