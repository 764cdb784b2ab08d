import SemanticSearch.FixedText
import SemanticSearch.SearchBody

namespace SemanticSearch

def threshold : ℚ := 5404319552844595 / 2 ^ 54

/-- `float(score) >= 0.3`. -/
def isListed : Binary32 → Bool
  | .finite false x => threshold ≤ x.1
  | .infinite false => true
  | _ => false

def listed (ranked : List (Bytes × Binary32)) : List (Bytes × Binary32) :=
  ranked.filter fun p => isListed p.2

/-- One line. The id of a file whose name is not UTF-8 holds surrogates, which are not encoded. -/
def searchLine (p : Bytes × Binary32) : Option Bytes :=
  (utf8Decode p.1).map fun id => utf8 id ++ tab :: fixedText p.2

/-- The body of the answer, if it can be encoded. -/
def searchText (ranked : List (Bytes × Binary32)) : Option Bytes :=
  ((listed ranked).mapM searchLine).map ([newline].intercalate ·)

/-- The client gets the same ids in the same order, with the scores that were printed. -/
def RoundTrips (underflows : ℚ → Bool) (ranked : List (Bytes × Binary32)) : Prop :=
  ∃ tsv, searchText ranked = some tsv ∧
    parseTsv underflows tsv = (listed ranked).map fun p => (p.1, printedScore p.2)

/-- A name in UTF-8 without the two separators. -/
def IsPlainId (id : Bytes) : Prop := (utf8Decode id).isSome ∧ tab ∉ id ∧ newline ∉ id

instance (id : Bytes) : Decidable (IsPlainId id) := inferInstanceAs (Decidable (_ ∧ _))

theorem mapM_eq_some {α β : Type} {f : α → Option β} {l : List α} {l' : List β}
    (h : l.mapM f = some l') : ∀ a ∈ l, (f a).isSome := by
  induction l generalizing l' with
  | nil => simp
  | cons a l ih =>
    rw [List.mapM_cons] at h
    rcases ha : f a with _ | b
    · simp [ha] at h
    · rcases hl : l.mapM f with _ | bs
      · simp [ha, hl] at h
      · exact List.forall_mem_cons.mpr ⟨by rw [ha]; rfl, ih hl⟩

theorem mapM_of_eq_some {α β : Type} {f : α → Option β} {g : α → β} {l : List α}
    (h : ∀ a ∈ l, f a = some (g a)) : l.mapM f = some (l.map g) := by
  induction l with
  | nil => rfl
  | cons a l ih =>
    rw [List.forall_mem_cons] at h
    rw [List.mapM_cons, h.1, ih h.2]
    rfl

theorem searchLine_eq {p : Bytes × Binary32} (h : (utf8Decode p.1).isSome) :
    searchLine p = some (p.1 ++ tab :: fixedText p.2) := by
  obtain ⟨id, hid⟩ := Option.isSome_iff_exists.mp h
  rw [searchLine, hid, Option.map_some, utf8Decode_eq_some_iff.mp hid]

theorem plain_of_mem_parseTsv {underflows : ℚ → Bool} {tsv : Bytes} {p : Bytes × Binary32}
    (h : p ∈ parseTsv underflows tsv) : tab ∉ p.1 ∧ newline ∉ p.1 := by
  obtain ⟨line, hline, hp⟩ := List.mem_filterMap.mp h
  obtain ⟨f, hf, hscore⟩ := Option.bind_eq_some_iff.mp hp
  obtain ⟨score, -, rfl⟩ := Option.map_eq_some_iff.mp hscore
  unfold tsvFields at hf
  split_ifs at hf with h0
  obtain ⟨i, hi, rfl⟩ := Option.map_eq_some_iff.mp hf
  exact ⟨notMem_take_of_find hi, fun hm =>
    notMem_of_mem_getlines hline (List.mem_of_mem_take hm)⟩

theorem newline_notMem_millionths (n : ℕ) : newline ∉ millionths n := by
  intro hmem
  rcases List.mem_append.mp hmem with hmem | hmem
  · exact absurd (isDigit_of_mem_decimal hmem) (by decide)
  · rcases List.mem_cons.mp hmem with hmem | hmem
    · exact absurd hmem (by decide)
    · exact absurd (isDigit_of_mem_sixPlaces hmem) (by decide)

variable {underflows : ℚ → Bool} {x : Binary32}

theorem stof_fixedText (hu : ∀ q, 2 ^ (-126 : ℤ) ≤ q → underflows q = false) (hx : isListed x) :
    stof underflows (fixedText x) = .ok (printedScore x) ∧ newline ∉ fixedText x := by
  rcases x with ⟨_ | _, m⟩ | _ | _
  · have hthreshold : threshold ≤ m.1 := by simpa [isListed] using hx
    have hmicros : 299999 ≤ micros m.1 := by
      apply le_micros
      have hlow : (0.299999 : ℚ) ≤ threshold := by
        norm_num [threshold]
      push_cast
      linarith
    have hnormal : (2 : ℚ) ^ (-126 : ℤ) ≤ micros m.1 / 10 ^ 6 := by
      have hcast : (299999 : ℚ) ≤ micros m.1 := by exact_mod_cast hmicros
      have hsmall : (2 : ℚ) ^ (-126 : ℤ) ≤ 1 / 4 := by norm_num
      refine hsmall.trans ?_
      rw [le_div_iff₀ (by norm_num)]
      linarith
    exact ⟨stof_millionths (isFinite_printed m.2) (hu _ hnormal), newline_notMem_millionths _⟩
  · simp [isListed] at hx
  · rename_i neg
    cases neg with
    | false => exact ⟨rfl, by decide⟩
    | true => simp [isListed] at hx
  · simp [isListed] at hx

theorem tsvFields_line {id : Bytes} (hid : tab ∉ id) (score : Bytes) :
    tsvFields (id ++ tab :: score) = some (id, score) := by
  have hne : id ++ tab :: score ≠ [] := by simp
  rw [tsvFields, if_neg hne, find_append_cons hid, Option.map_some, List.take_left, List.drop_append]
  simp

variable {ranked : List (Bytes × Binary32)}

theorem searchText_eq (h : ∀ p ∈ listed ranked, (utf8Decode p.1).isSome) :
    searchText ranked =
      some ([newline].intercalate ((listed ranked).map fun p => p.1 ++ tab :: fixedText p.2)) := by
  rw [searchText, mapM_of_eq_some fun p hp => searchLine_eq (h p hp), Option.map_some]

/-- All results arrive, in their order and under their ids, exactly when each id is a name in UTF-8
without a tab and without a newline. -/
theorem roundTrips_iff (hu : ∀ q, 2 ^ (-126 : ℤ) ≤ q → underflows q = false) :
    RoundTrips underflows ranked ↔ ∀ p ∈ listed ranked, IsPlainId p.1 := by
  constructor
  · rintro ⟨tsv, htext, hparse⟩ p hp
    have hmem : (p.1, printedScore p.2) ∈ parseTsv underflows tsv := by
      rw [hparse]
      exact List.mem_map_of_mem hp
    obtain ⟨lines, hlines, -⟩ := Option.map_eq_some_iff.mp htext
    have hencoded : (searchLine p).isSome := mapM_eq_some hlines p hp
    have hplain := plain_of_mem_parseTsv hmem
    refine ⟨?_, hplain⟩
    rwa [searchLine, Option.isSome_map] at hencoded
  · intro h
    refine ⟨_, searchText_eq fun p hp => (h p hp).1, ?_⟩
    have hscore : ∀ p ∈ listed ranked, stof underflows (fixedText p.2) = .ok (printedScore p.2) ∧
        newline ∉ fixedText p.2 := fun p hp =>
      stof_fixedText hu (List.mem_filter.mp hp).2
    have hlines : ∀ l ∈ (listed ranked).map fun p => p.1 ++ tab :: fixedText p.2,
        l ≠ [] ∧ newline ∉ l := by
      intro l hl
      obtain ⟨p, hp, rfl⟩ := List.mem_map.mp hl
      have hne : newline ≠ tab := by decide
      exact ⟨by simp, by simp [(h p hp).2.2, (hscore p hp).2, hne]⟩
    rw [parseTsv, getlines_intercalate hlines, List.filterMap_map, ← List.filterMap_eq_map]
    apply List.filterMap_congr
    intro p hp
    simp only [Function.comp, tsvFields_line (h p hp).2.1, Option.bind_some, (hscore p hp).1]
    rfl

def half : Binary32 := .finite false ⟨1 / 2, 1, -1, by decide, by decide, by decide, by norm_num⟩

theorem roundTrips_two :
    RoundTrips (fun q => decide (q < 2 ^ (-126 : ℤ))) [(text "root/a b", half), (text "root/c", half)] := by
  refine (roundTrips_iff ?_).mpr ?_
  · intro q hq
    simpa using hq
  · have hplain : IsPlainId (text "root/a b") ∧ IsPlainId (text "root/c") := by decide
    intro p hp
    rcases List.mem_cons.mp (List.mem_filter.mp hp).1 with rfl | hp
    · exact hplain.1
    · obtain rfl := List.mem_singleton.mp hp
      exact hplain.2

/-- A name with a tab in it: the rest of the name is taken for the score, and the result is lost. -/
theorem roundTrips_tab :
    searchText [(text "root/a\tb", half)] = some (text "root/a\tb\t0.500000") ∧
      parseTsv (fun q => decide (q < 2 ^ (-126 : ℤ))) (text "root/a\tb\t0.500000") = [] ∧
      ¬ RoundTrips (fun q => decide (q < 2 ^ (-126 : ℤ))) [(text "root/a\tb", half)] := by
  have htext : searchText [(text "root/a\tb", half)] = some (text "root/a\tb\t0.500000") := by
    decide +kernel
  have hparse : parseTsv (fun q => decide (q < 2 ^ (-126 : ℤ))) (text "root/a\tb\t0.500000") = [] := by
    decide
  refine ⟨htext, hparse, ?_⟩
  rintro ⟨tsv, hsome, h⟩
  rw [htext] at hsome
  obtain rfl := Option.some.inj hsome
  have hlisted : listed [(text "root/a\tb", half)] = [(text "root/a\tb", half)] := by
    decide +kernel
  rw [hparse, hlisted] at h
  cases h

end SemanticSearch
