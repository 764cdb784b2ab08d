import SemanticSearch.HttpRequest
import SemanticSearch.SearchAndRank

namespace SemanticSearch

/-- The punctuation that `encodeURIComponent` leaves as it is. -/
def isMark (c : Byte) : Bool := c ∈ text "-_.!~*'()"

/-- Letters, digits, marks and spaces: text whose encoding only replaces the spaces. -/
def isQueryChar (c : Byte) : Bool := isAlnum c || isMark c || c == space

def escapeSpaces (t : Bytes) : Bytes := t.flatMap fun c => if c = space then text "%20" else [c]

variable {t : Bytes}

theorem unescapeSpaces_cons {c : Byte} (hc : c ≠ 37) (cs : Bytes) :
    unescapeSpaces (c :: cs) = c :: unescapeSpaces cs := by
  rw [unescapeSpaces]
  exact fun _ h _ => hc h

theorem unescapeSpaces_escapeSpaces (ht : 37 ∉ t) :
    unescapeSpaces (escapeSpaces t) = t.map fun c => if c = space then 43 else c := by
  induction t with
  | nil => rfl
  | cons c t ih =>
    rw [List.mem_cons, not_or] at ht
    rw [escapeSpaces, List.flatMap_cons, List.map_cons, ← ih ht.2]
    split_ifs with hc
    · rfl
    · exact unescapeSpaces_cons (Ne.symm ht.1) _

theorem getlines_plus (ht : 43 ∉ t) :
    getlines 43 (t.map fun c => if c = space then 43 else c) = getlines space t := by
  induction t with
  | nil => rfl
  | cons c t ih =>
    rw [List.mem_cons, not_or] at ht
    rw [List.map_cons, getlines, getlines, ih ht.2]
    by_cases hc : c = space
    · rw [if_pos hc, if_pos hc, if_pos rfl]
    · rw [if_neg hc, if_neg hc, if_neg (Ne.symm ht.1)]

theorem isQueryChar_ne {c d : Byte} (hc : isQueryChar c) (hd : isQueryChar d = false) : d ≠ c := by
  rintro rfl
  rw [hc] at hd
  cases hd

theorem splitTerms_query (ht : ∀ c ∈ t, isQueryChar c) :
    splitTerms (text "terms=" ++ escapeSpaces t) =
      ((getlines space t).filter (· ≠ [])).map (·.map toLower) := by
  have hpercent : 37 ∉ t := fun h => isQueryChar_ne (ht 37 h) (by decide) rfl
  have hplus : 43 ∉ t := fun h => isQueryChar_ne (ht 43 h) (by decide) rfl
  have hfind : find (text "=") (text "terms=" ++ escapeSpaces t) = some 5 :=
    find_append (by decide) _
  have hdrop : (text "terms=" ++ escapeSpaces t).drop (5 + 1) = escapeSpaces t := rfl
  unfold splitTerms
  rw [hfind]
  simp only [hdrop, unescapeSpaces_escapeSpaces hpercent, getlines_plus hplus]

theorem tokenize_eq_pieces (ht : ∀ c ∈ t, isAlnum c ∨ c = space) :
    tokenize t = ((getlines space t).filter (· ≠ [])).map (·.map toLower) := by
  have hword : ∀ a : Bytes, space ∉ a → (∀ c ∈ a, isAlnum c ∨ c = space) → ∀ c ∈ a, isAlnum c :=
    fun a ha hall c hc => (hall c hc).resolve_right fun he => ha (he ▸ hc)
  induction t using lineInduction (d := space) with
  | nil => rfl
  | last a ha h0 =>
    rw [getlines_single ha h0, tokenize_word (hword a ha ht) h0]
    simp [h0]
  | line a b ha ih =>
    have hab := List.forall_mem_append.mp ht
    rw [getlines_append ha, tokenize_append_sep (by decide),
      ih (List.forall_mem_cons.mp hab.2).2]
    rcases eq_or_ne a [] with rfl | h0
    · rfl
    · rw [tokenize_word (hword a ha hab.1) h0]
      simp [h0]

namespace InvertedIndex

variable {m_count : InvertedIndex} {S : Snapshots} {content file : Bytes}

theorem IndexOf.isAlnum_of_term (h : IndexOf m_count S) {term : Bytes}
    (hterm : m_count[term]? ≠ none) {c : Byte} (hc : c ∈ term) : isAlnum c := by
  by_contra hnot
  have hocc : ∀ path, occurrences S term path = 0 := by
    intro path
    unfold occurrences
    rcases S path with _ | content
    · rfl
    · exact List.count_eq_zero.mpr fun hw => hnot (isAlnum_of_mem_tokenize hw hc)
  obtain ⟨files, hfiles⟩ := Option.ne_none_iff_exists'.mp hterm
  have hempty : files = ∅ := Std.ExtTreeMap.ext_getElem? fun path => by
    have hcell := h.cell_eq term path
    rw [if_pos (hocc path), CountMap.cell, hfiles] at hcell
    simpa using hcell
  exact h.pruned term (hempty ▸ hfiles)

theorem IndexOf.cell_isSome (h : IndexOf m_count S) (hf : S file = some content) {term : Bytes}
    (hterm : term ∈ tokenize content) : (m_count.cell term file).isSome := by
  have hocc : occurrences S term file ≠ 0 := by
    simp only [occurrences, hf]
    exact (List.count_pos_iff.mpr hterm).ne'
  rw [h.cell_eq, if_neg hocc]
  rfl

/-- The search for a line of an indexed file finds the file exactly when the line has nothing but
letters, digits and spaces: a word with a mark in it is one term of the query and no word of the
index, and one such term empties the result. -/
theorem line_found_iff (h : IndexOf m_count S) (hf : S file = some content)
    (hline : t ∈ getlines newline content) (ht : ∀ c ∈ t, isQueryChar c)
    (hword : ∃ c ∈ t, isAlnum c) (int : IntType) (orders : SearchOrders) :
    (∃ score, (file, score) ∈
        searchAndRank int orders m_count (splitTerms (text "terms=" ++ escapeSpaces t))) ↔
      ∀ c ∈ t, isAlnum c ∨ c = space := by
  -- the piece around a character, lower-cased, is a term
  have hpiece : ∀ c ∈ t, c ≠ space → ∃ l : Bytes, c ∈ l ∧
      l.map toLower ∈ ((getlines space t).filter (· ≠ [])).map (·.map toLower) := by
    intro c hc hs
    obtain ⟨l, hl, hcl⟩ := exists_mem_getlines hs hc
    exact ⟨l, hcl, List.mem_map_of_mem
      (List.mem_filter.mpr ⟨hl, by simpa using List.ne_nil_of_mem hcl⟩)⟩
  rw [splitTerms_query ht]
  constructor
  · rintro ⟨score, hmem⟩ c hc
    by_contra hnot
    rw [not_or, Bool.not_eq_true] at hnot
    obtain ⟨l, hcl, hterm⟩ := hpiece c hc hnot.2
    have hlower := h.isAlnum_of_term ((mem_searchAndRank_iff.mp hmem).1 _ hterm)
      (List.mem_map_of_mem hcl)
    rw [toLower_of_not_isAlnum hnot.1, hnot.1] at hlower
    cases hlower
  · intro hall
    obtain ⟨c, hc, halnum⟩ := hword
    obtain ⟨l, -, hterm⟩ := hpiece c hc (by rintro rfl; cases halnum)
    rw [← tokenize_eq_pieces hall] at hterm ⊢
    apply exists_mem_searchAndRank (List.ne_nil_of_mem hterm)
    intro term hmem
    apply h.cell_isSome hf
    rw [← flatMap_tokenize_getlines]
    exact List.mem_flatMap_of_mem hline hmem

def storyText : Bytes := text "The Red hat\na well-known hat\n"

def storyIndex : InvertedIndex := countLines (text "story.txt") storyText ∅

def storySnapshots : Snapshots := Function.update (fun _ => none) (text "story.txt") (some storyText)

theorem indexOf_story : IndexOf storyIndex storySnapshots := indexOf_empty.countLines rfl storyText

theorem line_found_redHat :
    ∃ score, (text "story.txt", score) ∈ searchAndRank .int32 .stable storyIndex
      (splitTerms (text "terms=" ++ escapeSpaces (text "The Red hat"))) :=
  (line_found_iff indexOf_story rfl (by decide) (by decide +kernel) ⟨84, by decide⟩ .int32
    .stable).mpr (by decide +kernel)

/-- The term `well-known` is no word of any file. -/
theorem line_hidden_wellKnown :
    IndexOf storyIndex storySnapshots ∧ storySnapshots (text "story.txt") = some storyText ∧
      text "a well-known hat" ∈ getlines newline storyText ∧
      (∀ c ∈ text "a well-known hat", isQueryChar c) ∧
      (∃ c ∈ text "a well-known hat", isAlnum c) ∧
      ∀ int orders, searchAndRank int orders storyIndex
        (splitTerms (text "terms=" ++ escapeSpaces (text "a well-known hat"))) = [] := by
  refine ⟨indexOf_story, rfl, by decide, by decide +kernel, ⟨97, by decide⟩, fun int orders => ?_⟩
  exact searchAndRank_eq_nil ⟨text "well-known", by decide, by decide⟩

end InvertedIndex
end SemanticSearch
