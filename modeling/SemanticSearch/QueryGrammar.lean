import SemanticSearch.HttpRequest

namespace SemanticSearch

def separators : List Bytes := [text "+", text "%20"]

def StartsSeparator (t : Bytes) : Prop := ∃ sep ∈ separators, sep <+: t

instance (t : Bytes) : Decidable (StartsSeparator t) :=
  inferInstanceAs (Decidable (∃ sep ∈ separators, sep <+: t))

/-- The text is cut into the pieces from left to right, each time at the first separator and with
the rest going on behind it. -/
inductive Cut : Bytes → List Bytes → Prop
  | last {a : Bytes} (h : ∀ i, ¬ StartsSeparator (a.drop i)) : Cut a [a]
  | next {a sep b : Bytes} {pieces : List Bytes} (hsep : sep ∈ separators)
      (h : ∀ i < a.length, ¬ StartsSeparator ((a ++ sep ++ b).drop i)) (hb : Cut b pieces) :
      Cut (a ++ sep ++ b) (a :: pieces)

def equalsSign : Byte := 61

/-- `q` is the part of the query behind the first `=`, or the whole query. -/
def BehindEquals (query q : Bytes) : Prop :=
  (equalsSign ∉ query ∧ q = query) ∨
    ∃ key, equalsSign ∉ key ∧ query = key ++ equalsSign :: q

/-- `q.find(pat, pos)`. -/
def findFrom (pat q : Bytes) (pos : ℕ) : Option ℕ := (find pat (q.drop pos)).map (pos + ·)

theorem findFrom_add_length_le {pat q : Bytes} {pos i : ℕ} (h0 : pat ≠ [])
    (h : findFrom pat q pos = some i) : i + pat.length ≤ q.length := by
  obtain ⟨j, hj, rfl⟩ := Option.map_eq_some_iff.mp h
  have hlen := find_add_length_le hj
  rw [List.length_drop] at hlen
  have hpos := List.length_pos_iff.mpr h0
  omega

/-- `while ((pos = q.find("%20", pos)) != npos) q.replace(pos, 3, "+")`. -/
def replaceSpaces (q : Bytes) (pos : ℕ) : Bytes :=
  match _h : findFrom (text "%20") q pos with
  | none => q
  | some pos => replaceSpaces (q.take pos ++ text "+" ++ q.drop (pos + 3)) pos
termination_by q.length
decreasing_by
  have hlen : pos + 3 ≤ q.length := findFrom_add_length_le (by decide) _h
  have hplus : (text "+").length = 1 := rfl
  simp only [List.length_append, List.length_take, List.length_drop, hplus]
  omega

theorem unescapeSpaces_skip {c : Byte} {t : Bytes} (h : ¬ text "%20" <+: c :: t) :
    unescapeSpaces (c :: t) = c :: unescapeSpaces t := by
  rw [unescapeSpaces]
  rintro rest rfl rfl
  exact h ⟨rest, rfl⟩

theorem unescapeSpaces_of_find_none {t : Bytes} (h : find (text "%20") t = none) :
    unescapeSpaces t = t := by
  induction t with
  | nil => rfl
  | cons c t ih =>
    rw [find] at h
    split_ifs at h with hpre
    rw [List.isPrefixOf_iff_prefix] at hpre
    rw [unescapeSpaces_skip hpre, ih (Option.map_eq_none_iff.mp h)]

theorem unescapeSpaces_of_find {t : Bytes} {i : ℕ} (h : find (text "%20") t = some i) :
    unescapeSpaces t = t.take i ++ 43 :: unescapeSpaces (t.drop (i + 3)) := by
  induction t generalizing i with
  | nil => cases h
  | cons c t ih =>
    rw [find] at h
    split_ifs at h with hpre
    · obtain ⟨rest, hrest⟩ := List.isPrefixOf_iff_prefix.mp hpre
      obtain rfl : 0 = i := Option.some.inj h
      rw [← hrest]
      rfl
    · obtain ⟨j, hj, rfl⟩ := Option.map_eq_some_iff.mp h
      rw [List.isPrefixOf_iff_prefix] at hpre
      rw [unescapeSpaces_skip hpre, ih hj]
      rfl

theorem replaceSpaces_unfold (q : Bytes) (pos : ℕ) :
    replaceSpaces q pos = match findFrom (text "%20") q pos with
      | none => q
      | some pos => replaceSpaces (q.take pos ++ text "+" ++ q.drop (pos + 3)) pos := by
  rw [replaceSpaces]
  split <;> rename_i hfind <;> rw [hfind]

theorem replaceSpaces_append (a t : Bytes) :
    replaceSpaces (a ++ t) a.length = a ++ unescapeSpaces t := by
  induction hn : t.length using Nat.strong_induction_on generalizing a t with
  | _ n ih =>
    have hfrom : findFrom (text "%20") (a ++ t) a.length =
        (find (text "%20") t).map (a.length + ·) := by
      rw [findFrom, List.drop_left]
    rw [replaceSpaces_unfold, hfrom]
    rcases hf : find (text "%20") t with _ | i
    · rw [unescapeSpaces_of_find_none hf]
      rfl
    · have hlen : i + 3 ≤ t.length := find_add_length_le hf
      have htake : (a ++ t).take (a.length + i) = a ++ t.take i := by
        rw [List.take_append, List.take_of_length_le (by omega), Nat.add_sub_cancel_left]
      have hdrop : (a ++ t).drop (a.length + i + 3) = t.drop (i + 3) := by
        rw [List.drop_append, List.drop_of_length_le (by omega), List.nil_append, Nat.add_assoc,
          Nat.add_sub_cancel_left]
      have hpos : (a ++ t.take i).length = a.length + i := by
        rw [List.length_append, List.length_take, min_eq_left (by omega)]
      have hshorter : (text "+" ++ t.drop (i + 3)).length < n := by
        have hplus : (text "+").length = 1 := rfl
        rw [List.length_append, hplus, List.length_drop]
        omega
      simp only [Option.map_some, htake, hdrop]
      rw [List.append_assoc, ← hpos, ih _ hshorter _ _ rfl, unescapeSpaces_of_find hf,
        List.append_assoc]
      rfl

theorem replaceSpaces_zero (q : Bytes) : replaceSpaces q 0 = unescapeSpaces q :=
  replaceSpaces_append [] q

/-- The terms of what is behind the first `=`. -/
def pieceTerms (q : Bytes) : List Bytes :=
  ((getlines 43 (unescapeSpaces q)).filter (· ≠ [])).map (·.map toLower)

theorem splitTerms_eq {query q : Bytes} (h : BehindEquals query q) :
    splitTerms query = pieceTerms q := by
  rcases h with ⟨hnot, rfl⟩ | ⟨key, hkey, rfl⟩
  · rw [splitTerms, show text "=" = [equalsSign] from rfl, find_eq_none hnot]
    rfl
  · have hdrop : (key ++ equalsSign :: q).drop (key.length + 1) = q := by simp
    rw [splitTerms, show text "=" = [equalsSign] from rfl, find_append_cons hkey]
    simp only [hdrop]
    rfl

theorem unescapeSpaces_append {sep : Bytes} (hsep : sep ∈ separators) (a b : Bytes) :
    unescapeSpaces (a ++ sep ++ b) = unescapeSpaces a ++ 43 :: unescapeSpaces b := by
  have hhead : ∃ c rest, sep = c :: rest ∧ c ≠ 50 ∧ c ≠ 48 := by
    rcases List.mem_pair.mp hsep with rfl | rfl
    · exact ⟨_, _, rfl, by decide, by decide⟩
    · exact ⟨_, _, rfl, by decide, by decide⟩
  induction a using unescapeSpaces.induct with
  | case1 a ih =>
    simp only [List.cons_append, unescapeSpaces, ih]
  | case2 c a hskip ih =>
    have hescape : ∀ t, text "%20" <+: c :: t ↔ c = 37 ∧ [50, 48] <+: t := by
      intro t
      rw [show text "%20" = [37, 50, 48] from rfl, List.cons_prefix_cons, eq_comm]
    have hpre : ¬ text "%20" <+: c :: a := by
      rw [hescape]
      rintro ⟨rfl, rest, rfl⟩
      exact hskip rest rfl rfl
    have hpre' : ¬ text "%20" <+: c :: (a ++ sep ++ b) := by
      rw [hescape]
      obtain ⟨d, sep', rfl, h50, h48⟩ := hhead
      rintro ⟨rfl, hrest⟩
      rcases a with _ | ⟨x, _ | ⟨y, a⟩⟩
      · exact h50 (List.cons_prefix_cons.mp hrest).1.symm
      · exact h48 (List.cons_prefix_cons.mp (List.cons_prefix_cons.mp hrest).2).1.symm
      · obtain ⟨rfl, hsecond⟩ := List.cons_prefix_cons.mp hrest
        obtain ⟨rfl, -⟩ := List.cons_prefix_cons.mp hsecond
        exact hskip a rfl rfl
    rw [List.cons_append, List.cons_append, unescapeSpaces_skip hpre', ih,
      unescapeSpaces_skip hpre, List.cons_append]
  | case3 =>
    rcases List.mem_pair.mp hsep with rfl | rfl
    · have hpre : ¬ text "%20" <+: 43 :: b := by
        rw [show text "%20" = [37, 50, 48] from rfl, List.cons_prefix_cons]
        exact fun h => absurd h.1 (by decide)
      exact unescapeSpaces_skip hpre
    · rfl

theorem filter_getlines_append (d : Byte) (a b : Bytes) :
    (getlines d (a ++ d :: b)).filter (· ≠ []) =
      (getlines d a).filter (· ≠ []) ++ (getlines d b).filter (· ≠ []) := by
  induction a using lineInduction (d := d) with
  | nil => simp [getlines]
  | last a ha h0 => simp [getlines_append ha, getlines_single ha h0, h0]
  | line a a' ha ih =>
    rw [List.append_assoc, List.cons_append, getlines_append ha, getlines_append ha,
      List.filter_cons, List.filter_cons, ih]
    split_ifs <;> rfl

theorem pieceTerms_append {sep : Bytes} (hsep : sep ∈ separators) (a b : Bytes) :
    pieceTerms (a ++ sep ++ b) = pieceTerms a ++ pieceTerms b := by
  rw [pieceTerms, unescapeSpaces_append hsep, filter_getlines_append, List.map_append]
  rfl

theorem pieceTerms_of_not {a : Bytes} (h : ∀ i < a.length, ¬ StartsSeparator (a.drop i)) :
    pieceTerms a = ([a].filter (· ≠ [])).map (·.map toLower) := by
  have hplus : 43 ∉ a := by
    intro hmem
    obtain ⟨u, v, rfl, -⟩ := List.eq_append_cons_of_mem hmem
    refine h u.length (by simp) ⟨text "+", List.mem_cons_self, v, ?_⟩
    rw [List.drop_left]
    rfl
  have hfind : find (text "%20") a = none := by
    rcases hf : find (text "%20") a with _ | i
    · rfl
    · have hlen : i + 3 ≤ a.length := find_add_length_le hf
      exact absurd ⟨text "%20", List.mem_cons_of_mem _ List.mem_cons_self, find_some_prefix hf⟩
        (h i (by omega))
  rw [pieceTerms, unescapeSpaces_of_find_none hfind]
  rcases eq_or_ne a [] with rfl | h0
  · rfl
  · rw [getlines_single hplus h0]

theorem pieceTerms_of_cut {q : Bytes} {pieces : List Bytes} (h : Cut q pieces) :
    pieceTerms q = (pieces.filter (· ≠ [])).map (·.map toLower) := by
  induction h with
  | last h => exact pieceTerms_of_not fun i _ => h i
  | @next a sep b pieces hsep h hb ih =>
    have ha : ∀ i < a.length, ¬ StartsSeparator (a.drop i) := by
      rintro i hi ⟨s, hs, t, ht⟩
      refine h i hi ⟨s, hs, t ++ sep ++ b, ?_⟩
      rw [List.append_assoc a, List.drop_append_of_le_length hi.le, ← ht]
      simp
    rw [pieceTerms_append hsep, pieceTerms_of_not ha, ih, ← List.map_append, ← List.filter_append,
      List.singleton_append]

theorem exists_cut (q : Bytes) : ∃ pieces, Cut q pieces := by
  induction hn : q.length using Nat.strong_induction_on generalizing q with
  | _ n ih =>
    by_cases hex : ∃ i, StartsSeparator (q.drop i)
    · -- the first place where a separator starts
      obtain ⟨sep, hsep, b, hb⟩ := Nat.find_spec hex
      set i := Nat.find hex
      have hq : q.take i ++ sep ++ b = q := by
        rw [List.append_assoc, hb, List.take_append_drop]
      have hpos : 0 < sep.length := by
        rcases List.mem_pair.mp hsep with rfl | rfl <;> decide
      have hi : i < q.length := by
        by_contra hge
        rw [List.drop_of_length_le (by omega)] at hb
        have hlen := congrArg List.length hb
        rw [List.length_append, List.length_nil] at hlen
        omega
      have hlt : b.length < n := by
        have hlen := congrArg List.length hq
        rw [List.length_append, List.length_append] at hlen
        omega
      obtain ⟨pieces, hpieces⟩ := ih b.length hlt b rfl
      refine ⟨q.take i :: pieces, ?_⟩
      have hfirst : ∀ j < (q.take i).length, ¬ StartsSeparator ((q.take i ++ sep ++ b).drop j) := by
        intro j hj
        rw [hq]
        rw [List.length_take] at hj
        exact Nat.find_min hex (by omega)
      have hcut := Cut.next hsep hfirst hpieces
      rwa [hq] at hcut
    · exact ⟨[q], Cut.last fun i hi => hex ⟨i, hi⟩⟩

theorem exists_behindEquals (query : Bytes) : ∃ q, BehindEquals query q := by
  by_cases h : equalsSign ∈ query
  · obtain ⟨key, q, hquery, hkey⟩ := List.eq_append_cons_of_mem h
    exact ⟨q, Or.inr ⟨key, hkey, hquery⟩⟩
  · exact ⟨query, Or.inl ⟨h, rfl⟩⟩

/-- The loop replaces every `%20` from left to right, the terms are the pieces behind the first `=`
that are not empty, lower-cased, and a separator between two values puts their terms one behind
the other. -/
theorem splitTerms_grammar (query : Bytes) :
    (∃ q, BehindEquals query q) ∧
    (∀ q, BehindEquals query q → replaceSpaces q 0 = unescapeSpaces q ∧
      (∃ pieces, Cut q pieces) ∧ ∀ pieces, Cut q pieces →
        splitTerms query = (pieces.filter (· ≠ [])).map (·.map toLower)) ∧
    ∀ key a b sep, equalsSign ∉ key → sep ∈ separators →
      splitTerms (key ++ equalsSign :: (a ++ sep ++ b)) =
        splitTerms (key ++ equalsSign :: a) ++ splitTerms (key ++ equalsSign :: b) := by
  refine ⟨exists_behindEquals query, ?_, ?_⟩
  · intro q hq
    refine ⟨replaceSpaces_zero q, exists_cut q, fun pieces hcut => ?_⟩
    rw [splitTerms_eq hq, pieceTerms_of_cut hcut]
  · intro key a b sep hkey hsep
    have hbehind : ∀ t, BehindEquals (key ++ equalsSign :: t) t := fun t =>
      Or.inr ⟨key, hkey, rfl⟩
    rw [splitTerms_eq (hbehind _), splitTerms_eq (hbehind a), splitTerms_eq (hbehind b),
      pieceTerms_append hsep]

end SemanticSearch
