import SemanticSearch.HeaderBlock

namespace SemanticSearch

def blockText (first : Bytes) (lines : List Bytes) : Bytes :=
  first ++ crlf ++ lines.flatMap (· ++ crlf) ++ crlf

theorem find_headerEnd_skip {a : Bytes} (ha : carriageReturn ∉ a) (t : Bytes) :
    find headerEnd (a ++ t) = (find headerEnd t).map (· + a.length) := by
  induction a with
  | nil => simp
  | cons c cs ih =>
    have hc : carriageReturn ≠ c := fun h => ha (h ▸ List.mem_cons_self)
    have hpre : headerEnd.isPrefixOf (c :: (cs ++ t)) = false := by
      simp [headerEnd, crlf, List.isPrefixOf, hc]
    rw [List.cons_append, find, hpre, ih fun h => ha (List.mem_cons_of_mem c h)]
    cases find headerEnd t <;> simp [Nat.add_assoc]

theorem find_headerEnd_crlf {c : Byte} (hc : c ≠ carriageReturn) (t : Bytes) :
    find headerEnd (crlf ++ c :: t) = (find headerEnd (c :: t)).map (· + 2) := by
  have h1 : headerEnd.isPrefixOf (carriageReturn :: newline :: c :: t) = false := by
    simp [headerEnd, crlf, List.isPrefixOf, hc.symm]
  have h2 : headerEnd.isPrefixOf (newline :: c :: t) = false := by
    simp [headerEnd, crlf, List.isPrefixOf, carriageReturn, newline]
  change find headerEnd (carriageReturn :: newline :: c :: t) = _
  rw [find, h1, find, h2]
  cases find headerEnd (c :: t) <;> simp

theorem find_headerEnd_lines {lines : List Bytes}
    (h : ∀ l ∈ lines, l ≠ [] ∧ carriageReturn ∉ l) :
    find headerEnd (lines.flatMap (crlf ++ ·) ++ headerEnd) =
      some (lines.flatMap (crlf ++ ·)).length := by
  induction lines with
  | nil => decide
  | cons l lines ih =>
    obtain ⟨h0, hcr⟩ := h l List.mem_cons_self
    obtain ⟨c, cs, rfl⟩ := List.exists_cons_of_ne_nil h0
    have hc : c ≠ carriageReturn := fun he => hcr (he ▸ List.mem_cons_self)
    rw [List.flatMap_cons, List.append_assoc, List.append_assoc, List.cons_append,
      find_headerEnd_crlf hc, ← List.cons_append, find_headerEnd_skip hcr,
      ih fun l' hl' => h l' (List.mem_cons_of_mem _ hl')]
    simp [crlf]
    omega

theorem flatMap_crlf_comm (lines : List Bytes) :
    crlf ++ lines.flatMap (· ++ crlf) = lines.flatMap (crlf ++ ·) ++ crlf := by
  induction lines with
  | nil => simp
  | cons l lines ih => simp only [List.flatMap_cons, List.append_assoc, ih]

theorem isHeaderBlock_blockText {first : Bytes} {lines : List Bytes}
    (hfirst : carriageReturn ∉ first) (hlines : ∀ l ∈ lines, l ≠ [] ∧ carriageReturn ∉ l) :
    IsHeaderBlock (blockText first lines) := by
  have htext : blockText first lines = first ++ (lines.flatMap (crlf ++ ·) ++ headerEnd) := by
    rw [headerEnd, ← List.append_assoc (List.flatMap _ _), ← flatMap_crlf_comm lines]
    simp [blockText]
  rw [IsHeaderBlock, htext, find_headerEnd_skip hfirst, find_headerEnd_lines hlines]
  simp [headerEnd, crlf]
  omega

theorem getlines_lines {lines : List Bytes} (h : ∀ l ∈ lines, newline ∉ l) :
    getlines newline (lines.flatMap (· ++ crlf) ++ crlf) =
      lines.map (· ++ [carriageReturn]) ++ [[carriageReturn]] := by
  induction lines with
  | nil => decide
  | cons l lines ih =>
    have hline : newline ∉ l ++ [carriageReturn] := by
      have h1 : newline ≠ carriageReturn := by decide
      simp [h l List.mem_cons_self, h1]
    have hsplit : (l :: lines).flatMap (· ++ crlf) ++ crlf =
        (l ++ [carriageReturn]) ++ newline :: (lines.flatMap (· ++ crlf) ++ crlf) := by
      simp [crlf]
    rw [hsplit, getlines_append hline, ih fun k hk => h k (List.mem_cons_of_mem l hk)]
    rfl

theorem headerLines_lines {lines : List Bytes} (h : ∀ l ∈ lines, l ≠ []) :
    headerLines (lines.map (· ++ [carriageReturn]) ++ [[carriageReturn]]) = lines := by
  have hpop : (popCarriageReturn ∘ fun l => l ++ [carriageReturn]) = id := by
    funext l
    simp [popCarriageReturn]
  rw [headerLines_append _ _ (rfl : popCarriageReturn _ = []), headerLines, List.map_map, hpop,
    List.map_id, List.takeWhile_eq_self_iff]
  intro l hl
  simpa using h l hl

theorem linesOf_blockText {first : Bytes} {lines : List Bytes} (hfirst : newline ∉ first)
    (hlines : ∀ l ∈ lines, l ≠ [] ∧ newline ∉ l) : linesOf (blockText first lines) = lines := by
  have hfirst' : newline ∉ first ++ [carriageReturn] := by
    have h1 : newline ≠ carriageReturn := by decide
    simp [hfirst, h1]
  have htext : blockText first lines =
      (first ++ [carriageReturn]) ++ newline :: (lines.flatMap (· ++ crlf) ++ crlf) := by
    simp [blockText, crlf]
  have hrest : (requestLine (blockText first lines)).2.2 = lines.flatMap (· ++ crlf) ++ crlf := by
    rw [htext, requestLine, dropWhile_ne hfirst']
    rfl
  rw [linesOf, hrest, getlines_lines fun l hl => (hlines l hl).2,
    headerLines_lines fun l hl => (hlines l hl).1]

theorem headerField_colon {name : Bytes} (hname : colon ∉ name) (value : Bytes) :
    headerField (name ++ colon :: value) = some (name.map toLower, value.drop 1) := by
  rw [headerField, find_append_cons hname, Option.map_some]
  simp

end SemanticSearch
