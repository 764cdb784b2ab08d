import SemanticSearch.Bytes

namespace SemanticSearch

theorem find_eq_some_iff {pat s : Bytes} (h0 : pat ≠ []) {i : ℕ} :
    find pat s = some i ↔ pat <+: s.drop i ∧ ∀ j < i, ¬ pat <+: s.drop j := by
  induction s generalizing i with
  | nil => simp [find, h0]
  | cons c s ih =>
    rw [find]
    by_cases hp : pat <+: c :: s
    · rw [if_pos (List.isPrefixOf_iff_prefix.mpr hp)]
      cases i with
      | zero => simp [hp]
      | succ i =>
        refine iff_of_false (fun h => ?_) fun h => h.2 0 (Nat.succ_pos i) hp
        cases h
    · rw [if_neg fun hc => hp (List.isPrefixOf_iff_prefix.mp hc)]
      cases i with
      | zero => simp [hp]
      | succ i =>
        have hshift : (∀ j < i + 1, ¬ pat <+: (c :: s).drop j) ↔ ∀ j < i, ¬ pat <+: s.drop j := by
          constructor
          · exact fun h j hj => h (j + 1) (Nat.succ_lt_succ hj)
          · intro h j hj
            cases j with
            | zero => exact hp
            | succ j => exact h j (Nat.lt_of_succ_lt_succ hj)
        rw [hshift, List.drop_succ_cons, ← ih]
        simp

theorem find_append_self_iff {pat : Bytes} (hlen : 1 < pat.length)
    (hoverlap : ∀ k, 0 < k → k + 1 < pat.length → ¬ pat.drop k <+: pat) (a t : Bytes) :
    find pat (a ++ pat ++ t) = some a.length ↔ ¬ pat <:+: a ++ pat.take 1 := by
  have h0 : pat ≠ [] := List.ne_nil_of_length_pos (by omega)
  have hat : pat <+: (a ++ pat ++ t).drop a.length := by simp
  rw [find_eq_some_iff h0, and_iff_right hat]
  have htake : (a ++ pat.take 1).length = a.length + 1 := by
    rw [List.length_append, List.length_take]
    omega
  have hpre : a ++ pat.take 1 <+: a ++ pat ++ t := by
    rw [List.append_assoc, List.prefix_append_right_inj]
    exact (List.take_prefix 1 pat).trans (List.prefix_append pat t)
  constructor
  · rintro hfirst ⟨u, v, huv⟩
    have hu : u.length + pat.length + v.length = a.length + 1 := by
      rw [← htake, ← huv, List.length_append, List.length_append]
    apply hfirst u.length (by omega)
    obtain ⟨w, hw⟩ := hpre
    rw [← hw, ← huv, List.append_assoc, List.append_assoc, List.drop_left]
    exact List.prefix_append pat (v ++ w)
  · intro hnot j hj hocc
    by_cases hin : j + pat.length ≤ a.length + 1
    · -- the occurrence ends with the first byte of `pat` or before
      refine hnot ⟨(a ++ pat.take 1).take j, (a ++ pat.take 1).drop (j + pat.length), ?_⟩
      obtain ⟨w, hw⟩ := hpre
      have hdrop : pat <+: (a ++ pat.take 1).drop j := by
        rw [← hw, List.drop_append_of_le_length (by omega)] at hocc
        exact List.prefix_of_prefix_length_le hocc (List.prefix_append _ w)
          (by rw [List.length_drop]; omega)
      have hmiddle : ((a ++ pat.take 1).drop j).take pat.length = pat :=
        (List.prefix_iff_eq_take.mp hdrop).symm
      rw [← List.drop_drop]
      nth_rewrite 2 [← hmiddle]
      rw [List.append_assoc, List.take_append_drop, List.take_append_drop]
    · -- it reaches into the second byte of `pat`
      apply hoverlap (a.length - j) (by omega) (by omega)
      rw [List.append_assoc, List.drop_append_of_le_length hj.le] at hocc
      obtain ⟨w, hw⟩ := hocc
      have hsecond : pat.drop (a.length - j) ++ w = pat ++ t := by
        have hw' := congrArg (List.drop (a.length - j)) hw
        have hrest : (a.drop j ++ (pat ++ t)).drop (a.length - j) = pat ++ t := by
          rw [← List.length_drop, List.drop_left]
        rwa [List.drop_append_of_le_length (by omega), hrest] at hw'
      exact List.prefix_of_prefix_length_le ⟨w, hsecond⟩ (List.prefix_append pat t)
        (by rw [List.length_drop]; omega)

def kSep : Bytes := newline :: text "---SOURCES---" ++ [newline]

def askBody (answer : Bytes) (sources : List Bytes) : Bytes :=
  answer ++ kSep ++ [newline].intercalate sources

/-- The end of `VectorClient::Ask`. -/
def parseAsk (body : Bytes) : Bytes × List Bytes :=
  if body.isEmpty then ([], []) else
  match find kSep body with
  | none => (body, [])
  | some sep => (body.take sep, (getlines newline (body.drop (sep + kSep.length))).filter
      fun line => !line.isEmpty)

theorem kSep_overlap (k : ℕ) (h0 : 0 < k) (hk : k + 1 < kSep.length) : ¬ kSep.drop k <+: kSep := by
  have hall : ∀ k < kSep.length - 1, 0 < k → ¬ (kSep.drop k).isPrefixOf kSep := by decide
  rw [← List.isPrefixOf_iff_prefix]
  exact hall k (by omega) h0

/-- An answer comes back with its sources if and only if it has no separator in it or at its end. -/
theorem parseAsk_askBody_iff (answer : Bytes) (sources : List Bytes)
    (hsources : ∀ s ∈ sources, s ≠ [] ∧ newline ∉ s) :
    parseAsk (askBody answer sources) = (answer, sources) ↔
      ¬ kSep <:+: answer ++ [newline] := by
  have htake : kSep.take 1 = [newline] := rfl
  rw [← htake, ← find_append_self_iff (by decide) kSep_overlap answer
    ([newline].intercalate sources)]
  have hbody : (askBody answer sources).isEmpty = false := by simp [askBody, kSep]
  simp only [parseAsk, hbody, Bool.false_eq_true, if_false]
  rw [← askBody]
  constructor
  · intro h
    rcases hf : find kSep (askBody answer sources) with _ | sep
    · rw [hf] at h
      have hlen := congrArg List.length (congrArg Prod.fst h)
      simp [askBody, kSep] at hlen
    · rw [hf] at h
      have hlen := congrArg List.length (congrArg Prod.fst h)
      have hle := find_add_length_le hf
      rw [List.length_take, min_eq_left (by omega)] at hlen
      rw [hlen]
  · intro h
    rw [h]
    have hfilter : sources.filter (fun line => !line.isEmpty) = sources := by
      rw [List.filter_eq_self]
      intro s hs
      simpa using (hsources s hs).1
    have hdrop : (askBody answer sources).drop (answer.length + kSep.length) =
        [newline].intercalate sources := by
      rw [← List.length_append, askBody, List.drop_left]
    simp only
    rw [hdrop, getlines_intercalate hsources, hfilter, askBody, List.append_assoc, List.take_left]

/-- A separator in the answer ends it. -/
theorem parseAsk_askBody_separator :
    parseAsk (askBody (text "a\n---SOURCES---\nb") [text "f"]) = (text "a", [text "b",
      text "---SOURCES---", text "f"]) ∧
    parseAsk (askBody (text "a\n---SOURCES---\nb") [text "f"]) ≠
      (text "a\n---SOURCES---\nb", [text "f"]) := by
  decide

theorem parseAsk_askBody_newlines :
    (∀ s ∈ [text "f", text "g"], s ≠ [] ∧ newline ∉ s) ∧
    (parseAsk (askBody (text "a\n\n") [text "f", text "g"]) = (text "a\n\n", [text "f", text "g"]) ↔
      ¬ kSep <:+: text "a\n\n" ++ [newline]) :=
  ⟨by decide +kernel, parseAsk_askBody_iff _ _ (by decide +kernel)⟩

end SemanticSearch
