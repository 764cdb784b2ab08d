import SemanticSearch.SearchAndRank
import SemanticSearch.SharedMutex

namespace SemanticSearch
namespace InvertedIndex

open SharedMutex

inductive IndexAnswer
  | ranked (bm25 : List (Bytes × ℤ))
  | updated
  deriving DecidableEq, Repr

section Search

variable (int : IntType) (orders : SearchOrders)

/-- The end of `SearchAndRank`, which looks at its own two maps only. -/
def rankTally (numTerms : ℤ) (t : Tally) : List (Bytes × ℤ) :=
  orders.sort ((orders.matched t.matchCount.toList).filterMap fun (file, count) =>
    if count = numTerms then some (file, t.scores.getD file 0) else none)

/-- The loop over `it->second` from its entry `k` on, for at most `n` entries. -/
def filesReader (term : Bytes) (rest : Tally → Reader InvertedIndex IndexAnswer) :
    ℕ → ℕ → Tally → Reader InvertedIndex IndexAnswer
  | 0, _, t => rest t
  | n + 1, k, t => .read fun m_count =>
    match (orders.postings term (m_count.postings term))[k]? with
    | none => rest t
    | some p => filesReader term rest n (k + 1) (tallyFile int t p)

def termsReader (numTerms : ℤ) : List Bytes → Tally → Reader InvertedIndex IndexAnswer
  | [], t => .done (.ranked (rankTally orders numTerms t))
  | term :: terms, t => .read fun m_count =>
    match m_count[term]? with
    | none => .done (.ranked [])
    | some files => filesReader int orders term (termsReader numTerms terms) files.size 0 t

/-- `SearchAndRank`. -/
def searchSection (terms : List Bytes) : Reader InvertedIndex IndexAnswer :=
  if terms = [] then .done (.ranked []) else termsReader int orders (int.wrap terms.length) terms {}

variable {int orders} {m_count : InvertedIndex}

theorem run_filesReader (term : Bytes) (rest : Tally → Reader InvertedIndex IndexAnswer)
    (n k : ℕ) (t : Tally) (hk : k + n = (orders.postings term (m_count.postings term)).length) :
    (filesReader int orders term rest n k t).run m_count =
      (rest (((orders.postings term (m_count.postings term)).drop k).foldl
        (tallyFile int) t)).run m_count := by
  induction n generalizing k t with
  | zero =>
    have hnil : (orders.postings term (m_count.postings term)).drop k = [] := by
      apply List.drop_eq_nil_of_le
      omega
    rw [hnil]
    rfl
  | succ n ih =>
    have hlt : k < (orders.postings term (m_count.postings term)).length := by omega
    have hget := List.getElem?_eq_getElem hlt
    have hdrop := List.drop_eq_getElem_cons hlt
    rw [hdrop, List.foldl_cons, ← ih (k + 1) _ (by omega)]
    simp only [filesReader, Reader.run, hget]

theorem run_termsReader (numTerms : ℤ) (terms : List Bytes) (t : Tally) :
    (termsReader int orders numTerms terms t).run m_count =
      .ranked (((tallyTerms int orders m_count terms t).map (rankTally orders numTerms)).getD []) := by
  induction terms generalizing t with
  | nil => rfl
  | cons term terms ih =>
    rcases hm : m_count[term]? with _ | files
    · simp only [termsReader, Reader.run, hm, tallyTerms]
      rfl
    · have hfiles : m_count.postings term = files.toList := by
        rw [postings, hm]
        rfl
      have hlength : 0 + files.size = (orders.postings term (m_count.postings term)).length := by
        rw [hfiles, (orders.postings_perm term files.toList).length_eq,
          Std.ExtTreeMap.length_toList, zero_add]
      simp only [termsReader, Reader.run, hm, tallyTerms]
      rw [run_filesReader term _ files.size 0 t hlength, List.drop_zero, hfiles, ih]

theorem run_searchSection (terms : List Bytes) :
    (searchSection int orders terms).run m_count =
      .ranked (searchAndRank int orders m_count terms) := by
  unfold searchSection searchAndRank
  split_ifs with h0
  · rfl
  · rw [run_termsReader]
    rcases tallyTerms int orders m_count terms {} with _ | t
    · rfl
    · rfl

end Search

/-- `it->second.erase(path)`. -/
def eraseFile (path word : Bytes) (m_count : InvertedIndex) : InvertedIndex :=
  m_count.alter word (Option.map (·.erase path))

/-- `it->second.empty()` and then `m_count.erase(it)`. -/
def eraseEmpty (word : Bytes) (m_count : InvertedIndex) : InvertedIndex :=
  m_count.alter word (Option.filter fun inner => !inner.isEmpty)

/-- The order in which a walk of `m_count` meets its words. -/
structure WordOrder where
  walk : List Bytes → List Bytes
  walk_perm : ∀ l, (walk l).Perm l

def WordOrder.keys : WordOrder := ⟨id, List.Perm.refl⟩

/-- The loop of `RemoveFile`. -/
def removeWriter (order : WordOrder) (path : Bytes) :
    SharedMutex.Writer InvertedIndex Unit :=
  .write id fun m_count =>
    .effects ((order.walk m_count.keys).flatMap fun word => [eraseFile path word, eraseEmpty word])
      (.done ())

/-- What `RemoveFile` leaves of the files of a word. -/
def withoutFile (path : Bytes) (inner : Std.ExtTreeMap Bytes ℕ) :
    Option (Std.ExtTreeMap Bytes ℕ) :=
  if (inner.erase path).isEmpty then none else some (inner.erase path)

theorem getElem?_eraseEmpty_eraseFile (path word word' : Bytes) (m_count : InvertedIndex) :
    (eraseEmpty word (eraseFile path word m_count))[word']? =
      if word' = word then m_count[word']?.bind (withoutFile path) else m_count[word']? := by
  simp only [eraseEmpty, eraseFile, Std.ExtTreeMap.getElem?_alter,
    Std.LawfulEqCmp.compare_eq_iff_eq, eq_comm (a := word)]
  split_ifs with hw
  · subst hw
    rcases m_count[word']? with _ | inner
    · rfl
    · cases he : (inner.erase path).isEmpty <;>
        simp only [withoutFile, Option.map_some, Option.bind_some, Option.filter_some, he] <;> rfl
  · rfl

theorem getElem?_removeWords (path : Bytes) (words : List Bytes) (hwords : words.Nodup)
    (m_count : InvertedIndex) (word : Bytes) :
    ((words.flatMap fun word => [eraseFile path word, eraseEmpty word]).foldl
        (fun m effect => effect m) m_count)[word]? =
      if word ∈ words then m_count[word]?.bind (withoutFile path) else m_count[word]? := by
  induction words generalizing m_count with
  | nil => simp
  | cons w words ih =>
    obtain ⟨hw, hwords⟩ := List.nodup_cons.mp hwords
    simp only [List.flatMap_cons, List.foldl_append, List.foldl_cons, List.foldl_nil]
    rw [ih hwords, getElem?_eraseEmpty_eraseFile]
    by_cases hword : word = w
    · subst hword
      simp [hw]
    · simp [hword]

theorem run_removeWriter (order : WordOrder) (path : Bytes) (m_count : InvertedIndex) :
    (removeWriter order path).run m_count = (removeFile path m_count, ()) := by
  have hwalk : (order.walk m_count.keys).Nodup :=
    (order.walk_perm m_count.keys).nodup_iff.mpr m_count.nodup_keys
  have hmap : (((order.walk m_count.keys).flatMap fun word =>
      [eraseFile path word, eraseEmpty word]).foldl (fun m effect => effect m) m_count) =
      removeFile path m_count := by
    apply Std.ExtTreeMap.ext_getElem?
    intro word
    rw [getElem?_removeWords path _ hwalk]
    simp only [(order.walk_perm m_count.keys).mem_iff, removeFile, CountMap.dropDoc, Std.ExtTreeMap.getElem?_filterMap,
      Std.ExtTreeMap.mem_keys]
    rcases hm : m_count[word]? with _ | inner
    · simp
    · have hmem : word ∈ m_count := by
        rw [Std.ExtTreeMap.mem_iff_isSome_getElem?, hm]
        rfl
      simp [hmem, withoutFile]
  simp only [removeWriter, Writer.run_write, id_eq, Writer.run_effects, Writer.run_done, hmap]

/-- `m_count[token]`. -/
def findWord (token : Bytes) (m_count : InvertedIndex) : InvertedIndex :=
  m_count.alter token fun inner => some (inner.getD ∅)

/-- `m_count[token][path]`. -/
def findFile (token path : Bytes) (m_count : InvertedIndex) : InvertedIndex :=
  m_count.alter token (Option.map (·.alter path fun n => some (n.getD 0)))

/-- `m_count[token][path]++`, once the entry is there. -/
def increment (token path : Bytes) (m_count : InvertedIndex) : InvertedIndex :=
  m_count.alter token (Option.map (·.alter path (Option.map (· + 1))))

/-- The line loop of `AddFile`. -/
def linesWriter (path : Bytes) (lines : List Bytes) :
    SharedMutex.Writer InvertedIndex IndexAnswer :=
  .effects (lines.flatMap fun line => (tokenize line).flatMap fun token =>
    [findWord token, findFile token path, increment token path]) (.done .updated)

theorem increment_findFile_findWord (token path : Bytes) (m_count : InvertedIndex) :
    increment token path (findFile token path (findWord token m_count)) =
      m_count.bump token path := by
  apply Std.ExtTreeMap.ext_getElem?
  intro word
  simp only [increment, findFile, findWord, CountMap.bump, Std.ExtTreeMap.getElem?_alter,
    Std.LawfulEqCmp.compare_eq_iff_eq]
  split_ifs with hw
  · simp only [Option.map_some, Option.some.injEq]
    apply Std.ExtTreeMap.ext_getElem?
    intro file
    simp only [Std.ExtTreeMap.getElem?_alter, Std.LawfulEqCmp.compare_eq_iff_eq]
    split_ifs <;> rfl
  · rfl

theorem run_linesWriter (path content : Bytes) (m_count : InvertedIndex) :
    (linesWriter path (getlines newline content)).run m_count =
      (countLines path content m_count, .updated) := by
  simp only [linesWriter, Writer.run_effects, Writer.run_done, countLines, List.foldl_flatMap,
    List.foldl_cons, List.foldl_nil, increment_findFile_findWord]

/-- `AddFile`: the entries of the file go, and then the file is opened and read, in one look. No lock
keeps another request from changing it between two reads; such runs are left out. -/
def addSection (order : WordOrder) (path : Bytes) :
    Update InvertedIndex (Option Bytes) IndexAnswer where
  before := removeWriter order path
  after
    | none => .done .updated
    | some content => linesWriter path (getlines newline content)

/-- `RemoveFile`, which does not look at the file. -/
def removeSection (order : WordOrder) (path : Bytes) :
    Update InvertedIndex (Option Bytes) IndexAnswer where
  before := removeWriter order path
  after _ := .done .updated

theorem apply_addSection (order : WordOrder) (path : Bytes) (files : FileView)
    (m_count : InvertedIndex) :
    (addSection order path).apply (files.read path) m_count =
      (addFile files path m_count, .updated) := by
  simp only [Update.apply, addSection, run_removeWriter, addFile]
  rcases files.read path with _ | content
  · rfl
  · exact run_linesWriter path content _

theorem apply_removeSection (order : WordOrder) (path : Bytes) (content : Option Bytes)
    (m_count : InvertedIndex) :
    (removeSection order path).apply content m_count = (removeFile path m_count, .updated) := by
  simp only [Update.apply, removeSection, run_removeWriter]
  rfl

end InvertedIndex
end SemanticSearch
