import Mathlib.Data.List.TakeWhile
import Mathlib.Data.UInt
import Mathlib.Tactic.Common

namespace SemanticSearch

abbrev Byte := UInt8
abbrev Bytes := List Byte

instance : LawfulBEq Bytes := inferInstance
instance : Std.TransOrd Bytes := inferInstance
instance : Std.LawfulEqOrd Bytes := inferInstance

def text (s : String) : Bytes := s.toList.map fun c => UInt8.ofNat c.toNat

def newline : Byte := 10
def carriageReturn : Byte := 13
def space : Byte := 32

def isDigit (c : Byte) : Bool := 48 ≤ c && c ≤ 57
def isUpper (c : Byte) : Bool := 65 ≤ c && c ≤ 90
def isAlpha (c : Byte) : Bool := isUpper c || (97 ≤ c && c ≤ 122)
def isAlnum (c : Byte) : Bool := isDigit c || isAlpha c
def isSpace (c : Byte) : Bool := c == 32 || (9 ≤ c && c ≤ 13)

def isBlank (c : Byte) : Bool := c == 32 || c == 9
def toLower (c : Byte) : Byte := if isUpper c then c + 32 else c

theorem isSpace_of_isDigit {c : Byte} (hc : isDigit c) : isSpace c = false := by
  simp only [isDigit, Bool.and_eq_true, decide_eq_true_eq, UInt8.le_iff_toNat_le] at hc
  have hlo : 48 ≤ c.toNat := hc.1
  have hne : c ≠ 32 := by
    rintro rfl
    exact absurd hlo (by decide)
  have hgt : ¬ c ≤ 13 := by
    rw [UInt8.le_iff_toNat_le]
    have : (13 : Byte).toNat = 13 := rfl
    omega
  simp [isSpace, hne, hgt]

theorem notMem_of_isSpace {t : Bytes} (h : ∀ c ∈ t, isSpace c = false) {c : Byte}
    (hc : isSpace c) : c ∉ t :=
  fun hm => absurd hc (by simp [h c hm])

theorem isAlnum_toLower {c : Byte} (h : isAlnum c) : isAlnum (toLower c) := by
  unfold toLower
  split_ifs with hu
  · obtain ⟨hlo, hhi⟩ : 65 ≤ c.toNat ∧ c.toNat ≤ 90 := by
      simpa [isUpper, UInt8.le_iff_toNat_le] using hu
    have hadd : (c + 32).toNat = c.toNat + 32 := by
      rw [UInt8.toNat_add]
      exact Nat.mod_eq_of_lt (by simp; omega)
    have hrange : 97 ≤ (c + 32).toNat ∧ (c + 32).toNat ≤ 122 := by omega
    simp only [isAlnum, isAlpha, Bool.or_eq_true, Bool.and_eq_true, decide_eq_true_eq,
      UInt8.le_iff_toNat_le]
    exact Or.inr (Or.inr hrange)
  · exact h

theorem toLower_of_not_isAlnum {c : Byte} (h : isAlnum c = false) : toLower c = c := by
  refine if_neg fun hu => ?_
  simp [isAlnum, isAlpha, hu] at h

/-- `std::to_string` of an unsigned number. -/
def decimal (n : ℕ) : Bytes := text (toString n)

/-- `s.find(pat)`: the first position at which `pat` occurs. -/
def find (pat : Bytes) : Bytes → Option ℕ
  | [] => if pat = [] then some 0 else none
  | c :: cs => if pat.isPrefixOf (c :: cs) then some 0 else (find pat cs).map (· + 1)

theorem find_some_prefix {pat s : Bytes} {i : ℕ} (h : find pat s = some i) :
    pat <+: s.drop i := by
  induction s generalizing i with
  | nil =>
    simp only [find] at h
    split_ifs at h with hp
    simp [hp]
  | cons c cs ih =>
    simp only [find] at h
    split_ifs at h with hp
    · obtain rfl : 0 = i := by simpa using h
      simpa using hp
    · obtain ⟨j, hj, rfl⟩ := Option.map_eq_some_iff.mp h
      simpa using ih hj

theorem find_add_length_le {pat s : Bytes} {i : ℕ} (h : find pat s = some i) :
    i + pat.length ≤ s.length := by
  induction s generalizing i with
  | nil =>
    simp only [find] at h
    split_ifs at h with hp
    subst hp
    simpa using h.symm
  | cons c cs ih =>
    simp only [find] at h
    split_ifs at h with hp
    · obtain rfl : 0 = i := by simpa using h
      simpa using (List.isPrefixOf_iff_prefix.mp hp).length_le
    · obtain ⟨j, hj, rfl⟩ := Option.map_eq_some_iff.mp h
      have := ih hj
      simp only [List.length_cons]
      omega

theorem find_append {pat s : Bytes} {i : ℕ} (h : find pat s = some i) (t : Bytes) :
    find pat (s ++ t) = some i := by
  induction s generalizing i with
  | nil =>
    simp only [find] at h
    split_ifs at h with hp
    subst hp
    cases t <;> simpa [find] using h
  | cons c cs ih =>
    simp only [find] at h
    simp only [List.cons_append, find]
    split_ifs at h with hp
    · have hpre : pat <+: c :: (cs ++ t) :=
        (List.isPrefixOf_iff_prefix.mp hp).trans ⟨t, by simp⟩
      rw [if_pos (List.isPrefixOf_iff_prefix.mpr hpre)]
      exact h
    · obtain ⟨j, hj, rfl⟩ := Option.map_eq_some_iff.mp h
      have hnp : ¬ pat.isPrefixOf (c :: (cs ++ t)) := by
        intro hc
        apply hp
        have hlen : pat.length ≤ (c :: cs).length := by
          have := find_add_length_le hj
          simp only [List.length_cons]
          omega
        exact List.isPrefixOf_iff_prefix.mpr
          (List.prefix_of_prefix_length_le (List.isPrefixOf_iff_prefix.mp hc) ⟨t, by simp⟩ hlen)
      rw [if_neg hnp, ih hj]
      rfl

theorem find_take {pat s : Bytes} {i : ℕ} (h : find pat s = some i) :
    find pat (s.take (i + pat.length)) = some i := by
  have hlen := find_add_length_le h
  rcases hf : find pat (s.take (i + pat.length)) with _ | j
  · induction s generalizing i with
    | nil =>
      simp only [List.take_nil] at hf
      rw [hf] at h
      exact h
    | cons c cs ih =>
      simp only [find] at h
      split_ifs at h with hp
      · obtain rfl : 0 = i := by simpa using h
        have hpre : (c :: cs).take (0 + pat.length) = pat := by
          rw [Nat.zero_add]
          exact (List.prefix_iff_eq_take.mp (List.isPrefixOf_iff_prefix.mp hp)).symm
        rw [hpre] at hf
        cases pat <;> simp [find] at hf
      · obtain ⟨j, hj, rfl⟩ := Option.map_eq_some_iff.mp h
        rw [show j + 1 + pat.length = (j + pat.length) + 1 by omega, List.take_succ_cons, find] at hf
        split_ifs at hf
        have hj' := ih hj (find_add_length_le hj) (Option.map_eq_none_iff.mp hf)
        simp at hj'
  · have := find_append hf (s.drop (i + pat.length))
    rw [List.take_append_drop, h] at this
    exact this.symm

theorem find_append_cons {c : Byte} {a : Bytes} (ha : c ∉ a) (b : Bytes) :
    find [c] (a ++ c :: b) = some a.length := by
  induction a with
  | nil => simp [find]
  | cons x a ih =>
    have hx : c ≠ x := fun h => ha (h ▸ List.mem_cons_self)
    have hpre : ([c] : Bytes).isPrefixOf (x :: (a ++ c :: b)) = false := by
      simp [List.isPrefixOf, hx]
    rw [List.cons_append, find, hpre, ih fun h => ha (List.mem_cons_of_mem x h)]
    rfl

theorem notMem_take_of_find {c : Byte} {s : Bytes} {i : ℕ} (h : find [c] s = some i) :
    c ∉ s.take i := by
  by_cases hc : c ∈ s
  · obtain ⟨a, b, rfl, ha⟩ := List.eq_append_cons_of_mem hc
    rw [find_append_cons ha] at h
    obtain rfl := Option.some.inj h
    rwa [List.take_left]
  · exact fun hm => hc (List.mem_of_mem_take hm)

theorem find_eq_none {c : Byte} {s : Bytes} (hs : c ∉ s) : find [c] s = none := by
  induction s with
  | nil => rfl
  | cons x s ih =>
    have hx : c ≠ x := fun h => hs (h ▸ List.mem_cons_self)
    have hpre : ([c] : Bytes).isPrefixOf (x :: s) = false := by simp [List.isPrefixOf, hx]
    rw [find, hpre, ih fun h => hs (List.mem_cons_of_mem x h)]
    rfl

section Joining

variable {α β : Type*} {sep : List α} {ws : List (List α)} {x : α}

theorem flatMap_intercalate (f : α → List β) (sep : List α) (ws : List (List α)) :
    (sep.intercalate ws).flatMap f = (sep.flatMap f).intercalate (ws.map (·.flatMap f)) := by
  induction ws with
  | nil => rfl
  | cons w ws ih =>
    rcases eq_or_ne ws [] with rfl | hws
    · simp
    · rw [List.map_cons, List.intercalate_cons_of_ne_nil hws,
        List.intercalate_cons_of_ne_nil (by simpa using hws), List.flatMap_append,
        List.flatMap_append, ih]

theorem map_intercalate (f : α → β) (sep : List α) (ws : List (List α)) :
    (sep.intercalate ws).map f = (sep.map f).intercalate (ws.map (List.map f)) := by
  have hmap : ∀ t : List α, t.flatMap (fun a => [f a]) = t.map f := fun t =>
    List.map_eq_flatMap.symm
  have h := flatMap_intercalate (fun a => [f a]) sep ws
  simpa only [hmap] using h

theorem mem_intercalate_of_mem {w : List α} (hw : w ∈ ws) (hx : x ∈ w) :
    x ∈ sep.intercalate ws := by
  induction ws with
  | nil => cases hw
  | cons w' ws ih =>
    rcases eq_or_ne ws [] with rfl | hws
    · rw [List.intercalate_singleton, ← List.mem_singleton.mp hw]
      exact hx
    · rw [List.intercalate_cons_of_ne_nil hws]
      rcases List.mem_cons.mp hw with rfl | hw
      · exact List.mem_append_left _ (List.mem_append_left _ hx)
      · exact List.mem_append_right _ (ih hw)

theorem mem_of_mem_intercalate (h : x ∈ sep.intercalate ws) : x ∈ sep ∨ ∃ w ∈ ws, x ∈ w := by
  induction ws with
  | nil => cases h
  | cons w ws ih =>
    rcases eq_or_ne ws [] with rfl | hws
    · rw [List.intercalate_singleton] at h
      exact Or.inr ⟨w, List.mem_cons_self, h⟩
    · rw [List.intercalate_cons_of_ne_nil hws, List.mem_append, List.mem_append] at h
      rcases h with (h | h) | h
      · exact Or.inr ⟨w, List.mem_cons_self, h⟩
      · exact Or.inl h
      · rcases ih h with h | ⟨u, hu, hx⟩
        · exact Or.inl h
        · exact Or.inr ⟨u, List.mem_cons_of_mem w hu, hx⟩

theorem intercalate_eq_nil_iff (h : ∀ w ∈ ws, w ≠ []) : sep.intercalate ws = [] ↔ ws = [] := by
  constructor
  · intro hnil
    by_contra hws
    obtain ⟨w, hw⟩ := List.exists_mem_of_ne_nil ws hws
    obtain ⟨x, hx⟩ := List.exists_mem_of_ne_nil w (h w hw)
    have hmem : x ∈ sep.intercalate ws := mem_intercalate_of_mem hw hx
    rw [hnil] at hmem
    cases hmem
  · rintro rfl
    rfl

end Joining

theorem takeWhile_ne {d : Byte} {a : Bytes} (ha : d ∉ a) (b : Bytes) :
    (a ++ d :: b).takeWhile (· ≠ d) = a := by
  rw [List.takeWhile_append_of_pos fun c hc => by simpa using fun he : c = d => ha (he ▸ hc)]
  simp

theorem dropWhile_ne {d : Byte} {a : Bytes} (ha : d ∉ a) (b : Bytes) :
    (a ++ d :: b).dropWhile (· ≠ d) = d :: b := by
  rw [List.dropWhile_append_of_pos fun c hc => by simpa using fun he : c = d => ha (he ▸ hc)]
  simp

/-- `std::getline(in, out, d)`: the text before the first `d` and what is left of the
stream, nothing when the stream is already at its end. -/
def getline (d : Byte) (s : Bytes) : Option (Bytes × Bytes) :=
  if s = [] then none else some (s.takeWhile (· ≠ d), (s.dropWhile (· ≠ d)).tail)

/-- Puts a byte in front of the first line. -/
def consLine (c : Byte) : List Bytes → List Bytes
  | [] => [[c]]
  | l :: ls => (c :: l) :: ls

/-- All the lines `while (std::getline(in, line, d))` sees. A last line that `d` does not
end counts if it is not empty. -/
def getlines (d : Byte) : Bytes → List Bytes
  | [] => []
  | c :: cs => if c = d then [] :: getlines d cs else consLine c (getlines d cs)

theorem getlines_append {d : Byte} {a : Bytes} (ha : d ∉ a) (b : Bytes) :
    getlines d (a ++ d :: b) = a :: getlines d b := by
  induction a with
  | nil => simp [getlines]
  | cons c cs ih =>
    have hc : c ≠ d := fun h => ha (by simp [h])
    rw [List.cons_append, getlines, if_neg hc, ih fun h => ha (by simp [h])]
    rfl

theorem getlines_single {d : Byte} {a : Bytes} (ha : d ∉ a) (h0 : a ≠ []) :
    getlines d a = [a] := by
  induction a with
  | nil => exact absurd rfl h0
  | cons c cs ih =>
    have hc : c ≠ d := fun h => ha (by simp [h])
    rw [getlines, if_neg hc]
    rcases eq_or_ne cs [] with rfl | hcs
    · rfl
    · rw [ih (fun h => ha (by simp [h])) hcs]
      rfl

theorem getlines_getline {d : Byte} {s : Bytes} :
    getlines d s = match getline d s with
      | none => []
      | some (l, rest) => l :: getlines d rest := by
  induction s with
  | nil => rfl
  | cons c cs ih =>
    rcases eq_or_ne c d with rfl | hc
    · simp [getlines, getline]
    · rw [getlines, if_neg hc, ih]
      rcases eq_or_ne cs [] with rfl | hcs
      · simp [getline, hc, consLine, getlines]
      · simp [getline, hc, hcs, consLine]

theorem getlines_append_lines {d : Byte} {a : Bytes} (ha : a = [] ∨ a.getLast? = some d)
    (b : Bytes) : getlines d (a ++ b) = getlines d a ++ getlines d b := by
  induction hn : a.length using Nat.strong_induction_on generalizing a with
  | _ n ih =>
    rcases ha with rfl | ha
    · rfl
    · have hd : d ∈ a := List.mem_of_getLast? ha
      obtain ⟨l, a', rfl, hl⟩ := List.eq_append_cons_of_mem hd
      have ha' : a' = [] ∨ a'.getLast? = some d := by
        rcases eq_or_ne a' [] with h0 | h0
        · exact Or.inl h0
        · refine Or.inr ?_
          rwa [List.getLast?_append_of_ne_nil _ (by simp), List.getLast?_cons_of_ne_nil h0] at ha
      rw [List.append_assoc, List.cons_append, getlines_append hl, getlines_append hl,
        ih a'.length (by simp at hn; omega) ha' rfl]
      rfl

theorem lineInduction {d : Byte} {P : Bytes → Prop} (nil : P [])
    (last : ∀ a, d ∉ a → a ≠ [] → P a) (line : ∀ a b, d ∉ a → P b → P (a ++ d :: b))
    (s : Bytes) : P s := by
  induction hn : s.length using Nat.strong_induction_on generalizing s with
  | _ n ih =>
    by_cases hd : d ∈ s
    · obtain ⟨a, b, rfl, ha⟩ := List.eq_append_cons_of_mem hd
      exact line a b ha (ih b.length (by simp at hn; omega) b rfl)
    · rcases eq_or_ne s [] with rfl | h0
      · exact nil
      · exact last s hd h0

theorem notMem_of_mem_getlines {d : Byte} {s l : Bytes} (h : l ∈ getlines d s) : d ∉ l := by
  induction s using lineInduction (d := d) with
  | nil => cases h
  | last a ha h0 =>
    rw [getlines_single ha h0, List.mem_singleton] at h
    exact h ▸ ha
  | line a b ha ih =>
    rw [getlines_append ha] at h
    rcases List.mem_cons.mp h with rfl | h
    · exact ha
    · exact ih h

theorem exists_mem_getlines {c d : Byte} (hcd : c ≠ d) {s : Bytes} (hc : c ∈ s) :
    ∃ l ∈ getlines d s, c ∈ l := by
  induction s using lineInduction (d := d) with
  | nil => cases hc
  | last a ha h0 => exact ⟨a, by simp [getlines_single ha h0], hc⟩
  | line a b ha ih =>
    rw [getlines_append ha]
    rcases List.mem_append.mp hc with hc | hc
    · exact ⟨a, List.mem_cons_self, hc⟩
    · obtain ⟨l, hl, hcl⟩ := ih (List.mem_of_ne_of_mem hcd hc)
      exact ⟨l, List.mem_cons_of_mem a hl, hcl⟩

theorem mem_of_mem_getlines {c d : Byte} {s l : Bytes} (hl : l ∈ getlines d s) (hc : c ∈ l) :
    c ∈ s := by
  induction s using lineInduction (d := d) with
  | nil => cases hl
  | last a ha h0 =>
    rw [getlines_single ha h0, List.mem_singleton] at hl
    exact hl ▸ hc
  | line a b ha ih =>
    rw [getlines_append ha] at hl
    rcases List.mem_cons.mp hl with rfl | hl
    · exact List.mem_append_left _ hc
    · exact List.mem_append_right _ (List.mem_cons_of_mem d (ih hl))

theorem getlines_intercalate {d : Byte} {lines : List Bytes}
    (h : ∀ l ∈ lines, l ≠ [] ∧ d ∉ l) : getlines d ([d].intercalate lines) = lines := by
  induction lines with
  | nil => rfl
  | cons l lines ih =>
    rw [List.forall_mem_cons] at h
    cases lines with
    | nil =>
      rw [List.intercalate_singleton]
      exact getlines_single h.1.2 h.1.1
    | cons l' lines =>
      rw [List.intercalate_cons_cons, List.append_assoc, List.singleton_append,
        getlines_append h.1.2, ih h.2]

theorem getlines_prefix {d : Byte} {s t : Bytes} (h : t <+: s) :
    ∃ k part, getlines d t = (getlines d s).take k ++ part ∧
      (part = [] ∨ ∃ l' l, part = [l'] ∧ l' <+: l ∧ (getlines d s)[k]? = some l) := by
  induction t generalizing s with
  | nil => exact ⟨0, [], by simp [getlines], Or.inl rfl⟩
  | cons c t ih =>
    obtain ⟨u, rfl⟩ := h
    obtain ⟨k, part, hlines, hpart⟩ := ih (List.prefix_append t u)
    rw [List.cons_append, getlines, getlines]
    by_cases hc : c = d
    · rw [if_pos hc, if_pos hc]
      refine ⟨k + 1, part, by rw [hlines, List.take_succ_cons, List.cons_append], ?_⟩
      simpa only [List.getElem?_cons_succ] using hpart
    · rw [if_neg hc, if_neg hc, hlines]
      -- the byte goes in front of the first line, if there is one
      rcases hs : getlines d (t ++ u) with _ | ⟨l, ls⟩
      · rcases hpart with rfl | ⟨l', l, -, -, hl⟩
        · exact ⟨0, [[c]], by simp [consLine], Or.inr ⟨[c], [c], rfl, List.prefix_refl _, rfl⟩⟩
        · rw [hs] at hl
          simp at hl
      · cases k with
        | succ k =>
          refine ⟨k + 1, part, by simp [consLine], ?_⟩
          rw [hs] at hpart
          simpa [consLine] using hpart
        | zero =>
          rw [hs] at hpart
          rcases hpart with rfl | ⟨l', l'', rfl, hl', hl⟩
          · exact ⟨0, [[c]], by simp [consLine], Or.inr ⟨[c], c :: l, rfl, by simp, rfl⟩⟩
          · obtain rfl : l = l'' := Option.some.inj hl
            exact ⟨0, [c :: l'], by simp [consLine],
              Or.inr ⟨c :: l', c :: l, rfl, (List.prefix_cons_inj c).mpr hl', rfl⟩⟩

end SemanticSearch
