import SemanticSearch.LiveIndex
import SemanticSearch.PercentCoding
import SemanticSearch.RequestRoundTrip
import SemanticSearch.ResponseFraming
import SemanticSearch.RootCheck
import SemanticSearch.SearchAndRank

namespace SemanticSearch

open FileSystem InvertedIndex

variable {V : Type}

/-- The bytes that a browser encodes in the path of a URL. -/
def inPathSet (c : Byte) : Bool := c ≤ 32 || 127 ≤ c || c ∈ text "\"#<>?^`\x7b\x7d"

def encodedPath (id : Bytes) : Bytes := percentEncode inPathSet id

theorem inPathSet_encodedPath {id : Bytes} {c : Byte} (h : c ∈ encodedPath id) :
    inPathSet c = false := by
  have hdigit : ∀ n < 16, inPathSet (hexDigit n) = false := by decide
  rcases mem_percentEncode h with ⟨-, hc⟩ | rfl | ⟨n, hn, rfl⟩
  · exact hc
  · decide
  · exact hdigit n hn

theorem encodedPath_eq_self_iff (id : Bytes) :
    encodedPath id = id ↔ ∀ c ∈ id, inPathSet c = false := percentEncode_eq_self_iff

theorem ne_of_inPathSet {c d : Byte} (hc : inPathSet c = false) (hd : inPathSet d) : c ≠ d := by
  rintro rfl
  rw [hc] at hd
  cases hd

theorem isSpace_of_inPathSet {c : Byte} (hc : inPathSet c = false) : isSpace c = false := by
  by_contra hs
  simp only [inPathSet, Bool.or_eq_false_iff, decide_eq_false_iff_not, UInt8.le_iff_toNat_le] at hc
  simp only [isSpace, Bool.not_eq_false, Bool.or_eq_true, beq_iff_eq, Bool.and_eq_true,
    decide_eq_true_eq, UInt8.le_iff_toNat_le] at hs
  have h32 : (32 : Byte).toNat = 32 := rfl
  have h13 : (13 : Byte).toNat = 13 := rfl
  rcases hs with rfl | ⟨-, hs⟩ <;> omega

/-- A GET for the link of `id`, without a body and with any other header lines that have a
value. -/
structure HitRequest (id : Bytes) extends WireRequest where
  get : method = text "GET"
  link : target = staticPrefix ++ encodedPath id
  noLength : ∀ f ∈ fields, ¬ f.Named contentLength
  values : ∀ f ∈ fields, f.value ≠ []

theorem HitRequest.parse {id : Bytes} (R : HitRequest id) :
    ∃ req, parseRequest R.head = .ok req ∧ req.method = text "GET" ∧
      req.path = staticPrefix ++ encodedPath id := by
  obtain ⟨r, hr, hmethod, hsides, -, hkeys⟩ := R.parseHead_head R.values
  have hquestion : questionMark ∉ R.target := by
    rw [R.link]
    intro h
    rcases List.mem_append.mp h with h | h
    · exact absurd h (by decide)
    · exact ne_of_inPathSet (inPathSet_encodedPath h) (by decide) rfl
  have hpath : r.path = R.target := by
    rcases hsides with ⟨-, hpath, -⟩ | ⟨-, htarget⟩
    · exact hpath
    · rw [htarget] at hquestion
      exact absurd (List.mem_append_right _ List.mem_cons_self) hquestion
  have hlength : declaredLength r = .ok none := by
    have hnone : (R.fields.map WireRequest.parsedField).reverse.lookup contentLength = none := by
      rw [List.lookup_eq_none_iff]
      intro p hp
      obtain ⟨f, hf, rfl⟩ := List.mem_map.mp (List.mem_reverse.mp hp)
      exact bne_iff_ne.mpr fun he => R.noLength f hf he.symm
    rw [declaredLength, hkeys, hnone]
  refine ⟨withBody r none [], ?_, hmethod.trans R.get, hpath.trans R.link⟩
  have hparse := R.isHeaderBlock.parseRequest_append []
  rw [hr, List.append_nil] at hparse
  simp only [bind, Except.bind, hlength] at hparse
  exact hparse

theorem responseBody_ok (data : Bytes) {contentType : Bytes} (h : InLine contentType) :
    responseBody (makeResponse kHttpOk data contentType []) = data := by
  have hblock : IsHeaderBlock (blockText (text "HTTP/1.1 200 OK")
      [text "Content-Type: " ++ contentType, text "Content-Length: " ++ decimal data.length]) := by
    apply isHeaderBlock_blockText (by decide)
    intro l hl
    simp only [List.mem_cons, List.not_mem_nil, or_false] at hl
    rcases hl with rfl | rfl
    · exact ⟨by simp [text], (inLine_append (by decide) h).1⟩
    · exact ⟨by simp [text], (inLine_append (by decide) (inLine_decimal _)).1⟩
  have htext : makeResponse kHttpOk data contentType [] = blockText (text "HTTP/1.1 200 OK")
      [text "Content-Type: " ++ contentType, text "Content-Length: " ++ decimal data.length] ++
        data := by
    have hfirst : text "HTTP/1.1 " ++ decimal kHttpOk ++ [space] ++ defaultReason kHttpOk =
        text "HTTP/1.1 200 OK" := by decide
    simp only [makeResponse, if_true, hfirst, blockText]
    simp
  have hlen := hblock.four_le
  rw [responseBody, htext, hblock.find_append]
  simp only
  rw [Nat.sub_add_cancel hlen, List.drop_left]

theorem inLine_contentTypeFor (p : Bytes) : InLine (contentTypeFor p) := by
  unfold contentTypeFor
  split_ifs <;> decide

theorem staticGet_content_iff {fs : FileSystem} {root p content : Bytes} {r : RealPath}
    (htree : RootedTree fs root r) :
    (∃ resp, staticGet fs root p = .ok resp ∧ Answers resp kHttpOk ∧ responseBody resp = content) ↔
      r ≠ [] ∧ ∃ q, fs.resolve p = .ok q ∧ r <+: q ∧ fs.entries[q]? = some (.file content) := by
  have h0 : root ≠ [] := filesRoot_ne_nil htree.resolve
  constructor
  · rintro ⟨resp, hget, hok, hbody⟩
    obtain ⟨r', q, data, hr', hq, hpre, he, rfl⟩ := staticGet_within_root h0 hget hok
    obtain rfl : r' = r := Except.ok.inj (hr'.symm.trans htree.resolve)
    obtain rfl : data = content :=
      (responseBody_ok data (inLine_contentTypeFor p)).symm.trans hbody
    refine ⟨?_, q, hq, hpre, he⟩
    rintro rfl
    -- the root `/` admits itself only
    have hcheck := checkWithinRoot_eq h0 htree.resolve (weaklyCanonical_of_resolve hq)
    have hq0 : q ≠ [] := by
      rintro rfl
      simp [fs.root_dir] at he
    rw [if_neg (by simp [Admitted, hq0])] at hcheck
    simp only [staticGet, hcheck, bind, Except.bind, ne_eq, forbidden_ne_nil, not_false_eq_true,
      if_true] at hget
    rw [← Except.ok.inj hget] at hok
    exact not_answers_ok_forbidden hok
  · rintro ⟨hr0, q, hq, hpre, he⟩
    have hcheck := checkWithinRoot_eq h0 htree.resolve (weaklyCanonical_of_resolve hq)
    rw [if_pos ⟨hpre, fun h => absurd h hr0⟩] at hcheck
    have hfile : fs.isRegularFile p = .ok true := isRegularFile_eq_true.mpr ⟨q, content, hq, he⟩
    refine ⟨makeResponse kHttpOk content (contentTypeFor p) [], ?_, answers_makeResponse _ _ _ _,
      responseBody_ok content (inLine_contentTypeFor p)⟩
    simp only [staticGet, hcheck, hfile, bind, Except.bind]
    simp only [readAll, read_of_file hq he]
    rfl

theorem RootedTree.file_of_hit {fs : FileSystem} {root : Bytes} {r : RealPath}
    {m_count : InvertedIndex} {int : IntType} {orders : SearchOrders} {terms : List Bytes}
    {id : Bytes} {score : ℤ} (htree : RootedTree fs root r)
    (hbuild : InvertedIndex.build fs.view root = .ok m_count)
    (hhit : (id, score) ∈ searchAndRank int orders m_count terms) :
    ∃ q content, fs.resolve id = .ok (r ++ q) ∧
      fs.entries[r ++ q]? = some (.file content) := by
  obtain ⟨-, hcounts, -, -⟩ := mem_searchAndRank_iff.mp hhit
  obtain ⟨n, hn⟩ := List.exists_mem_of_ne_nil _ hcounts
  obtain ⟨term, -, hcell⟩ := List.mem_filterMap.mp hn
  -- the file has a word, so it was read
  have hwords : ¬ ∀ word, occurrences (snapshotsOf fs.view root) word id = 0 := by
    intro hzero
    rw [(indexOf_build hbuild).cell_eq, if_pos (hzero term)] at hcell
    cases hcell
  rw [occurrences_eq_zero] at hwords
  push Not at hwords
  obtain ⟨content, hcontent, htokens⟩ := hwords
  unfold snapshotsOf at hcontent
  split_ifs at hcontent with hmem
  obtain ⟨q, data, rfl, he⟩ := htree.mem_regularFiles.mp hmem
  refine ⟨q, data, ?_, he⟩
  have hread := htree.read_name he
  rw [htree.linkFree.resolve_underRoot htree.resolve htree.dir he]
  unfold underRootTarget at hread ⊢
  split_ifs at hread ⊢ with hz hlong
  · have hempty : content = [] := by simpa using (hread.symm.trans hcontent).symm
    exact absurd (by rw [hempty]; rfl) htokens
  · exact absurd (hread.symm.trans hcontent) (by simp)
  · rfl

/-- A hit opens, with its own content, if and only if the root is not `/` and its name is its own
encoding or the encoding names a file below the root with the same content. -/
theorem hit_opens_iff {ctx : ClientCtx V} {w : World V} {r : RealPath} {m_count : InvertedIndex}
    {int : IntType} {orders : SearchOrders} {terms : List Bytes} {id : Bytes} {score : ℤ}
    (htree : RootedTree w.fs ctx.files_root r)
    (hbuild : InvertedIndex.build w.fs.view ctx.files_root = .ok m_count)
    (hhit : (id, score) ∈ searchAndRank int orders m_count terms) (R : HitRequest id) :
    ∃ req content, parseRequest R.head = .ok req ∧ w.fs.read id = some content ∧
      ((∃ resp, handleGetRequest ctx req w = .ok resp ∧ Answers resp kHttpOk ∧
          responseBody resp = content) ↔
        r ≠ [] ∧ (encodedPath id = id ∨ ∃ q, w.fs.resolve (encodedPath id) = .ok q ∧ r <+: q ∧
          w.fs.entries[q]? = some (.file content))) := by
  obtain ⟨req, hparse, -, hpath⟩ := R.parse
  obtain ⟨q, content, hq, he⟩ := htree.file_of_hit hbuild hhit
  refine ⟨req, content, hparse, read_of_file hq he, ?_⟩
  have hprefix : staticPrefix <+: req.path := hpath ▸ List.prefix_append _ _
  have hlen : staticPrefix.length = 8 := rfl
  have hdrop : req.path.drop 8 = encodedPath id := by rw [hpath, ← hlen, List.drop_left]
  obtain ⟨h1, h2, h3, h4, h5, h6⟩ := staticPrefix_ne hprefix
  have hget : handleGetRequest ctx req w =
      (staticGet w.fs ctx.files_root (encodedPath id)).mapError .filesystem_error := by
    simp only [handleGetRequest, hprefix, h1, h2, h3, h4, h5, h6, or_self, if_false, if_true, hdrop]
  have hanswer : (∃ resp, handleGetRequest ctx req w = .ok resp ∧ Answers resp kHttpOk ∧
      responseBody resp = content) ↔ ∃ resp, staticGet w.fs ctx.files_root (encodedPath id) =
        .ok resp ∧ Answers resp kHttpOk ∧ responseBody resp = content := by
    rw [hget]
    rcases staticGet w.fs ctx.files_root (encodedPath id) with e | resp <;> simp [Except.mapError]
  rw [hanswer, staticGet_content_iff htree]
  refine and_congr_right fun _ => ⟨Or.inr, ?_⟩
  rintro (hsame | hfile)
  · rw [hsame]
    exact ⟨r ++ q, hq, List.prefix_append r q, he⟩
  · exact hfile

def blankTree : FileSystem :=
  smallTree.set [text "srv", text "root", text "a b"] (.file (text "hat"))

theorem rootedTree_blankTree : RootedTree blankTree (text "root") [text "srv", text "root"] where
  linkFree := rootedTree_smallTree.linkFree.set _ (by simp)
  resolve := by decide
  dir := by decide

def blankIndex : InvertedIndex :=
  match InvertedIndex.build blankTree.view (text "root") with
  | .ok m_count => m_count
  | .error _ => ∅

theorem build_blankTree : InvertedIndex.build blankTree.view (text "root") = .ok blankIndex := by
  obtain ⟨m_count, hm⟩ := rootedTree_blankTree.build_ok
  rw [blankIndex, hm]

theorem noSpace_link (id : Bytes) :
    staticPrefix ++ encodedPath id ≠ [] ∧ NoSpace (staticPrefix ++ encodedPath id) := by
  refine ⟨by simp [staticPrefix, text], fun c hc => ?_⟩
  rcases List.mem_append.mp hc with hc | hc
  · exact (by decide : NoSpace staticPrefix) c hc
  · exact isSpace_of_inPathSet (inPathSet_encodedPath hc)

/-- `GET` and the link of `id`, and nothing else. -/
def plainHit (id : Bytes) : HitRequest id where
  toWireRequest :=
    { getHome with target := staticPrefix ++ encodedPath id, target_ok := noSpace_link id }
  get := rfl
  link := rfl
  noLength := by simp [getHome]
  values := by simp [getHome]

/-- `root/a b` is found, and its link `/static/root/a%20b` answers 404. -/
theorem hit_blank_not_found :
    InvertedIndex.build blankTree.view (text "root") = .ok blankIndex ∧
    (text "root/a b", 1) ∈ searchAndRank .unbounded .stable blankIndex [text "hat"] ∧
    blankTree.read (text "root/a b") = some (text "hat") ∧ ¬ Answers notFoundPage kHttpOk ∧
    ∃ req, parseRequest (plainHit (text "root/a b")).head = .ok req ∧
      handleGetRequest plainCtx req ⟨blankTree, blankIndex, ()⟩ = .ok notFoundPage := by
  refine ⟨build_blankTree, by decide +kernel, by decide +kernel, not_answers_ok_notFound, ?_⟩
  exact ⟨{ method := text "GET", path := text "/static/root/a%20b" }, by decide +kernel,
    by decide +kernel⟩

theorem hit_opens_plain :
    InvertedIndex.build blankTree.view (text "root") = .ok blankIndex ∧
    (text "root/a", 1) ∈ searchAndRank .unbounded .stable blankIndex [text "hello"] ∧
    ∃ req content, parseRequest (plainHit (text "root/a")).head = .ok req ∧
      blankTree.read (text "root/a") = some content ∧
      ∃ resp, handleGetRequest plainCtx req ⟨blankTree, blankIndex, ()⟩ = .ok resp ∧
        Answers resp kHttpOk ∧ responseBody resp = content := by
  have hhit : (text "root/a", 1) ∈ searchAndRank .unbounded .stable blankIndex [text "hello"] := by
    decide +kernel
  obtain ⟨req, content, hparse, hread, hopens⟩ :=
    @hit_opens_iff Unit plainCtx ⟨blankTree, blankIndex, ()⟩ _ _ _ _ _ _ _ rootedTree_blankTree
      build_blankTree hhit (plainHit (text "root/a"))
  exact ⟨build_blankTree, hhit, req, content, hparse, hread,
    hopens.mpr ⟨by decide, Or.inl (by decide)⟩⟩

end SemanticSearch
