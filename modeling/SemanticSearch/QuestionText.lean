import Mathlib.Data.List.DropRight
import SemanticSearch.HttpServer
import SemanticSearch.PercentCoding
import SemanticSearch.QueryGrammar
import SemanticSearch.QueryTerms
import SemanticSearch.Utf8

namespace SemanticSearch

/-- The bytes that `encodeURIComponent` escapes. -/
def inComponentSet (c : Byte) : Bool := !(isAlnum c || isMark c)

/-- `encodeURIComponent`. -/
def encodeURIComponent (typed : List Char) : Bytes := percentEncode inComponentSet (utf8 typed)

def squeezeSpaces : Bytes → Bytes
  | [] => []
  | c :: t => if c = space ∧ t.head? = some space then squeezeSpaces t else c :: squeezeSpaces t

def trimSpaces (t : Bytes) : Bytes := (t.dropWhile (· = space)).rdropWhile (· = space)

def plainSpaced (t : Bytes) : Bytes := (trimSpaces (squeezeSpaces t)).map toLower

example : plainSpaced (text "  The  Red Hat ") = text "the red hat" := by decide

def spacedWords (t : Bytes) : List Bytes := (getlines space t).filter (· ≠ [])

variable {t a b : Bytes} {c : Byte}

theorem squeezeSpaces_cons_of_ne (h : c ≠ space) (t : Bytes) :
    squeezeSpaces (c :: t) = c :: squeezeSpaces t := by
  rw [squeezeSpaces, if_neg fun hc => h hc.1]

theorem squeezeSpaces_append (h : space ∉ a) (t : Bytes) :
    squeezeSpaces (a ++ t) = a ++ squeezeSpaces t := by
  induction a with
  | nil => rfl
  | cons c a ih =>
    rw [List.mem_cons, not_or] at h
    rw [List.cons_append, squeezeSpaces_cons_of_ne (Ne.symm h.1), ih h.2, List.cons_append]

theorem squeezeSpaces_space (t : Bytes) :
    squeezeSpaces (space :: t) = space :: (squeezeSpaces t).dropWhile (· = space) := by
  induction t with
  | nil => rfl
  | cons c t ih =>
    by_cases hc : c = space
    · rw [squeezeSpaces, if_pos ⟨rfl, by rw [hc]; rfl⟩, hc, ih,
        List.dropWhile_cons_of_pos (by simp), List.dropWhile_idempotent]
    · have hhead : (c :: t).head? ≠ some space := by simpa using hc
      rw [squeezeSpaces, if_neg fun h => hhead h.2, squeezeSpaces_cons_of_ne hc,
        List.dropWhile_cons_of_neg (by simpa using hc)]

theorem rdropWhile_append_of_ne_nil {p : Byte → Bool} (h : b.rdropWhile p ≠ []) (a : Bytes) :
    (a ++ b).rdropWhile p = a ++ b.rdropWhile p := by
  have hne : (b.reverse.dropWhile p).isEmpty = false := by
    simpa [List.rdropWhile] using h
  rw [List.rdropWhile, List.reverse_append, List.dropWhile_append, if_neg (by simp [hne]),
    List.reverse_append, List.reverse_reverse, List.rdropWhile]

theorem trimSpaces_append (ha : space ∉ a) (h0 : a ≠ []) (t : Bytes) :
    trimSpaces (a ++ t) = a ++ t.rdropWhile (· = space) := by
  have hne : ∀ c ∈ a, ¬ c = space := fun c hc he => ha (he ▸ hc)
  have hdrop : (a ++ t).dropWhile (· = space) = a ++ t := by
    obtain ⟨c, a', rfl⟩ := List.exists_cons_of_ne_nil h0
    rw [List.cons_append]
    exact List.dropWhile_cons_of_neg (by simpa using hne c List.mem_cons_self)
  rw [trimSpaces, hdrop]
  by_cases ht : t.rdropWhile (· = space) = []
  · rw [ht, List.append_nil]
    have hlast : a.rdropWhile (· = space) = a := by
      rw [List.rdropWhile_eq_self_iff]
      intro hl
      simpa using hne _ (List.getLast_mem hl)
    have hspaces : (t.reverse.dropWhile (· = space)).isEmpty := by
      simpa [List.rdropWhile] using ht
    rw [List.rdropWhile, List.reverse_append, List.dropWhile_append, if_pos hspaces,
      ← List.rdropWhile, hlast]
  · exact rdropWhile_append_of_ne_nil ht a

theorem spacedWords_cons (ha : space ∉ a) (t : Bytes) :
    spacedWords (a ++ space :: t) = if a = [] then spacedWords t else a :: spacedWords t := by
  rw [spacedWords, getlines_append ha, List.filter_cons]
  split_ifs with h1 h2 h2
  · simp [h2] at h1
  · rfl
  · rfl
  · simp [h2] at h1

theorem ne_nil_of_mem_spacedWords {w : Bytes} (h : w ∈ spacedWords t) : w ≠ [] := by
  simpa using (List.mem_filter.mp h).2

theorem trimSpaces_squeezeSpaces (t : Bytes) :
    trimSpaces (squeezeSpaces t) = [space].intercalate (spacedWords t) := by
  induction t using lineInduction (d := space) with
  | nil => rfl
  | last a ha h0 =>
    have hsqueeze := squeezeSpaces_append ha []
    rw [List.append_nil] at hsqueeze
    rw [hsqueeze, trimSpaces_append ha h0, spacedWords, getlines_single ha h0]
    simp [h0, squeezeSpaces]
  | line a b ha ih =>
    have hidem : ((squeezeSpaces b).dropWhile (· = space)).dropWhile (· = space) =
        (squeezeSpaces b).dropWhile (· = space) := List.dropWhile_idempotent _ _
    have hnil : ((squeezeSpaces b).dropWhile (· = space)).rdropWhile (· = space) = [] ↔
        spacedWords b = [] := by
      rw [← trimSpaces, ih]
      apply intercalate_eq_nil_iff
      intro w hw
      exact ne_nil_of_mem_spacedWords hw
    rw [squeezeSpaces_append ha, squeezeSpaces_space, spacedWords_cons ha]
    by_cases h0 : a = []
    · rw [if_pos h0, ← ih, h0, List.nil_append, trimSpaces, List.dropWhile_cons_of_pos (by simp),
        hidem]
      rfl
    · rw [if_neg h0, trimSpaces_append ha h0]
      by_cases hwords : spacedWords b = []
      · -- nothing but spaces behind the word
        have hspaces : (squeezeSpaces b).dropWhile (· = space) = [] := by
          rw [← hidem, List.dropWhile_eq_nil_iff]
          exact List.rdropWhile_eq_nil_iff.mp (hnil.mpr hwords)
        rw [hspaces, hwords, List.intercalate_singleton]
        simp [List.rdropWhile]
      · rw [List.intercalate_cons_of_ne_nil hwords, ← ih, trimSpaces, List.append_assoc,
          ← rdropWhile_append_of_ne_nil (mt hnil.mp hwords), List.singleton_append]

theorem hexDigit_ne {n : ℕ} (hn : n < 16) :
    hexDigit n ≠ percent ∧ hexDigit n ≠ space ∧ hexDigit n ≠ 43 := by
  have hall : ∀ n < 16, hexDigit n ≠ percent ∧ hexDigit n ≠ space ∧ hexDigit n ≠ 43 := by decide
  exact hall n hn

theorem percentEncode_cons (set : Byte → Bool) (c : Byte) (t : Bytes) :
    percentEncode set (c :: t) = (if set c then percentByte c else [c]) ++ percentEncode set t :=
  List.flatMap_cons

theorem unescapeSpaces_percentByte (hc : c ≠ space) (u : Bytes) :
    unescapeSpaces (percentByte c ++ u) = percentByte c ++ unescapeSpaces u := by
  have hall : ∀ n < 256, hexDigit 2 = hexDigit (n / 16) → hexDigit 0 = hexDigit (n % 16) →
      n = 32 := by decide +kernel
  have hlt : c.toNat < 256 := c.toNat_lt_size
  have hskip : ¬ text "%20" <+: percent :: hexDigit (c.toNat / 16) :: hexDigit (c.toNat % 16) :: u := by
    rw [show text "%20" = [percent, hexDigit 2, hexDigit 0] from rfl]
    simp only [List.cons_prefix_cons, true_and]
    rintro ⟨hhigh, hlow, -⟩
    exact hc (UInt8.toNat_inj.mp (hall c.toNat hlt hhigh hlow))
  change unescapeSpaces (percent :: hexDigit (c.toNat / 16) :: hexDigit (c.toNat % 16) :: u) = _
  rw [unescapeSpaces_skip hskip, unescapeSpaces_cons (hexDigit_ne (by omega)).1,
    unescapeSpaces_cons (hexDigit_ne (by omega)).1]
  rfl

theorem unescapeSpaces_percentEncode {set : Byte → Bool} (hspace : set space) (hpercent : set percent)
    (t : Bytes) :
    unescapeSpaces (percentEncode set t) =
      (percentEncode (fun c => set c && c ≠ space) t).map fun c => if c = space then 43 else c := by
  induction t with
  | nil => rfl
  | cons c t ih =>
    rw [percentEncode_cons, percentEncode_cons, List.map_append, ← ih]
    by_cases hc : c = space
    · subst hc
      rw [if_pos hspace, if_neg (by simp), List.map_singleton, if_pos rfl]
      rfl
    · have hkept : (percentByte c).map (fun c => if c = space then 43 else c) = percentByte c := by
        have hlt : c.toNat < 256 := c.toNat_lt_size
        have h1 := (hexDigit_ne (show c.toNat / 16 < 16 by omega)).2.1
        have h2 := (hexDigit_ne (show c.toNat % 16 < 16 by omega)).2.1
        have h3 : percent ≠ space := by decide
        simp only [percentByte, List.map_cons, List.map_nil, if_neg h1, if_neg h2, if_neg h3]
      by_cases hset : set c
      · rw [if_pos hset, if_pos (by simp [hset, hc]), unescapeSpaces_percentByte hc, hkept]
      · have hpercent' : 37 ≠ c := fun h => hset (h ▸ hpercent)
        rw [if_neg hset, if_neg (by simp [hset]), List.map_singleton, if_neg hc,
          List.singleton_append, unescapeSpaces_cons hpercent'.symm, List.singleton_append]

theorem spacedWords_percentEncode {set : Byte → Bool} (hspace : set space = false) (t : Bytes) :
    spacedWords (percentEncode set t) = (spacedWords t).map (percentEncode set) := by
  have hword : ∀ a : Bytes, space ∉ a → space ∉ percentEncode set a := by
    intro a ha hmem
    rcases mem_percentEncode hmem with ⟨h, -⟩ | h | ⟨n, hn, h⟩
    · exact ha h
    · exact absurd h (by decide)
    · exact (hexDigit_ne hn).2.1 h.symm
  have hnil : ∀ a : Bytes, percentEncode set a = [] ↔ a = [] := by
    intro a
    have hlen : a.length ≤ (percentEncode set a).length := length_le_percentEncode a
    constructor
    · intro h
      rw [h] at hlen
      exact List.eq_nil_of_length_eq_zero (Nat.le_zero.mp hlen)
    · rintro rfl
      rfl
  induction t using lineInduction (d := space) with
  | nil => rfl
  | last a ha h0 =>
    rw [spacedWords, spacedWords, getlines_single ha h0,
      getlines_single (hword a ha) (mt (hnil a).mp h0)]
    simp [h0, hnil]
  | line a b ha ih =>
    have hcut : percentEncode set (a ++ space :: b) =
        percentEncode set a ++ space :: percentEncode set b := by
      rw [percentEncode, List.flatMap_append, List.flatMap_cons, hspace]
      rfl
    rw [hcut, spacedWords_cons (hword a ha), spacedWords_cons ha, ih]
    by_cases h0 : a = []
    · rw [if_pos h0, if_pos ((hnil a).mpr h0)]
    · rw [if_neg h0, if_neg (mt (hnil a).mp h0), List.map_cons]

theorem percentEncode_intercalate {set : Byte → Bool} (hspace : set space = false)
    (ws : List Bytes) :
    [space].intercalate (ws.map (percentEncode set)) =
      percentEncode set ([space].intercalate ws) := by
  have hsep : percentEncode set [space] = [space] := by
    rw [percentEncode_cons, hspace]
    rfl
  have h := flatMap_intercalate (fun c => if set c then percentByte c else [c]) [space] ws
  change percentEncode set _ = (percentEncode set [space]).intercalate _ at h
  rw [h, hsep]
  rfl

theorem joinTerms_splitTerms_encodeURIComponent (typed : List Char) :
    joinTerms (splitTerms (text "q=" ++ encodeURIComponent typed)) =
      (percentEncode (fun c => inComponentSet c && c ≠ space)
        ([space].intercalate (spacedWords (utf8 typed)))).map toLower := by
  have hbehind : BehindEquals (text "q=" ++ encodeURIComponent typed) (encodeURIComponent typed) :=
    Or.inr ⟨text "q", by decide, rfl⟩
  have hplus : 43 ∉ percentEncode (fun c => inComponentSet c && c ≠ space) (utf8 typed) := by
    intro hmem
    rcases mem_percentEncode hmem with ⟨-, h⟩ | h | ⟨n, hn, h⟩
    · exact absurd h (by decide)
    · exact absurd h (by decide)
    · exact (hexDigit_ne hn).2.2 h.symm
  rw [splitTerms_eq hbehind, pieceTerms, encodeURIComponent,
    unescapeSpaces_percentEncode (by decide) (by decide), getlines_plus hplus, ← spacedWords,
    spacedWords_percentEncode (by decide), joinTerms, ← percentEncode_intercalate (by decide),
    map_intercalate]
  rfl

/-- The question arrives as it was typed, up to case and spacing, exactly when it has nothing but
letters and digits of ASCII, the marks that are never escaped, and spaces. -/
theorem question_intact_iff (typed : List Char) :
    joinTerms (splitTerms (text "q=" ++ encodeURIComponent typed)) = plainSpaced (utf8 typed) ↔
      ∀ c ∈ utf8 typed, isQueryChar c := by
  have hset : ∀ c, (inComponentSet c && decide (c ≠ space)) = false ↔ isQueryChar c := by
    intro c
    simp only [inComponentSet, isQueryChar]
    by_cases hc : c = space
    · simp [hc]
    · cases isAlnum c <;> simp [hc]
  rw [joinTerms_splitTerms_encodeURIComponent, plainSpaced, trimSpaces_squeezeSpaces]
  constructor
  · intro h c hc
    by_cases hs : c = space
    · rw [hs]
      rfl
    · obtain ⟨l, hl, hcl⟩ := exists_mem_getlines hs hc
      have hword : l ∈ spacedWords (utf8 typed) :=
        List.mem_filter.mpr ⟨hl, by simpa using List.ne_nil_of_mem hcl⟩
      have hlength := congrArg List.length h
      rw [List.length_map, List.length_map, length_percentEncode_iff] at hlength
      exact (hset c).mp (hlength c (mem_intercalate_of_mem hword hcl))
  · intro h
    rw [percentEncode_eq_self]
    intro c hc
    rw [hset]
    rcases mem_of_mem_intercalate hc with hc | ⟨w, hw, hcw⟩
    · rw [List.mem_singleton.mp hc]
      rfl
    · exact h c (mem_of_mem_getlines (List.mem_filter.mp hw).1 hcw)

/-- A question mark arrives as its escape. -/
theorem question_mark_lost :
    joinTerms (splitTerms (text "q=" ++ encodeURIComponent ['W', 'h', 'o', '?'])) =
      text "who%3f" ∧
    joinTerms (splitTerms (text "q=" ++ encodeURIComponent ['W', 'h', 'o', '?'])) ≠
      plainSpaced (utf8 ['W', 'h', 'o', '?']) := by
  decide +kernel

end SemanticSearch
