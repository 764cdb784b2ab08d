import SemanticSearch.Json
import SemanticSearch.Utf8

namespace SemanticSearch

open Json

def jsonByte (c : Byte) : Bytes :=
  if c = 34 then text "\\\""
  else if c = 92 then text "\\\\"
  else if c = 10 then text "\\n"
  else if c = 13 then text "\\r"
  else if c = 9 then text "\\t"
  else [c]

/-- `JsonStr`. -/
def jsonStr (s : Bytes) : Bytes := s.flatMap jsonByte

/-- `VectorClient::JsonEscape`. -/
def jsonEscape (s : Bytes) : Bytes := s.flatMap jsonByte

/-- A control character that is written as it is. -/
def isRawControl (c : Byte) : Bool := c < 32 && c != 9 && c != 10 && c != 13

/-- What a reader makes of the string that is written for `s`. -/
def received (s : Bytes) : Option (List Char) := if s.any isRawControl then none else utf8Decode s

def escapeChar (c : Char) : List Char :=
  if c = '"' then ['\\', '"']
  else if c = '\\' then ['\\', '\\']
  else if c = '\n' then ['\\', 'n']
  else if c = '\r' then ['\\', 'r']
  else if c = '\t' then ['\\', 't']
  else [c]

def escape (cs : List Char) : List Char := cs.flatMap escapeChar

/-- Whether `JsonStr` writes something else for a byte. -/
def IsEscaped (c : Byte) : Prop := c = 34 ∨ c = 92 ∨ c = 10 ∨ c = 13 ∨ c = 9

instance (c : Byte) : Decidable (IsEscaped c) := inferInstanceAs (Decidable (_ ∨ _))

theorem jsonByte_of_not {c : Byte} (h : ¬ IsEscaped c) : jsonByte c = [c] := by
  simp only [IsEscaped, not_or] at h
  simp [jsonByte, h]

theorem exists_of_isEscaped {c : Byte} (h : IsEscaped c) :
    ∃ d, [c] = utf8 [d] ∧ jsonByte c = utf8 (escapeChar d) ∧ escapeChar d ≠ [] := by
  rcases h with rfl | rfl | rfl | rfl | rfl
  · exact ⟨'"', by decide, by decide, by decide⟩
  · exact ⟨'\\', by decide, by decide, by decide⟩
  · exact ⟨'\n', by decide, by decide, by decide⟩
  · exact ⟨'\r', by decide, by decide, by decide⟩
  · exact ⟨'\t', by decide, by decide, by decide⟩

theorem escape_of_not {w : Bytes} (h : ∀ c ∈ w, ¬ IsEscaped c) {cs : List Char}
    (hcs : utf8Decode w = some cs) : escape cs = cs := by
  rw [utf8Decode_eq_some_iff] at hcs
  subst hcs
  induction cs with
  | nil => rfl
  | cons c cs ih =>
    rw [utf8_cons, List.forall_mem_append] at h
    have hc : escapeChar c = [c] := by
      have hmem : ∀ d, c = d → ∀ b, String.utf8EncodeChar d = [b] → ¬ IsEscaped b := by
        rintro d rfl b hb
        exact h.1 b (by simp [hb])
      unfold escapeChar
      rw [if_neg, if_neg, if_neg, if_neg, if_neg]
      · exact fun he => hmem _ he 9 (by decide) (by decide)
      · exact fun he => hmem _ he 13 (by decide) (by decide)
      · exact fun he => hmem _ he 10 (by decide) (by decide)
      · exact fun he => hmem _ he 92 (by decide) (by decide)
      · exact fun he => hmem _ he 34 (by decide) (by decide)
    have htail : escape cs = cs := ih h.2
    rw [escape, List.flatMap_cons, hc, ← escape, htail]
    rfl

theorem utf8Decode_flatMap_jsonByte (s : Bytes) :
    utf8Decode (s.flatMap jsonByte) = (utf8Decode s).map escape := by
  have hprefix : ∀ w : Bytes, (∀ c ∈ w, ¬ IsEscaped c) →
      utf8Decode (w ++ s.flatMap jsonByte) = (utf8Decode (w ++ s)).map escape := by
    induction s with
    | nil =>
      intro w hw
      rw [List.flatMap_nil, List.append_nil]
      rcases hd : utf8Decode w with _ | cs
      · rfl
      · rw [Option.map_some, escape_of_not hw hd]
    | cons c s ih =>
      intro w hw
      rw [List.flatMap_cons]
      by_cases hc : IsEscaped c
      · obtain ⟨d, hd, hbyte, hne⟩ := exists_of_isEscaped hc
        have hsplit : w ++ c :: s = w ++ utf8 [d] ++ s := by rw [← hd]; simp
        have htail := ih [] (by simp)
        rw [List.nil_append, List.nil_append] at htail
        rw [hsplit, hbyte, ← List.append_assoc, utf8Decode_append _ _ hne,
          utf8Decode_append _ _ (List.cons_ne_nil d []), htail]
        rcases hwd : utf8Decode w with _ | a
        · rfl
        rcases utf8Decode s with _ | b
        · rfl
        · have ha := escape_of_not hw hwd
          simp only [escape] at ha
          simp [escape, ha]
      · have hnext := ih (w ++ [c]) (by simpa [or_imp, forall_and] using ⟨hw, hc⟩)
        rw [jsonByte_of_not hc]
        simpa using hnext
  simpa using hprefix [] (by simp)

theorem jsonStr_utf8 (cs : List Char) : jsonStr (utf8 cs) = utf8 (escape cs) := by
  rw [← utf8Decode_eq_some_iff, jsonStr, utf8Decode_flatMap_jsonByte, utf8Decode_utf8,
    Option.map_some]

def isRawChar (c : Char) : Bool := isControl c && c != '\t' && c != '\n' && c != '\r'

theorem any_isRawControl_utf8 (cs : List Char) : (utf8 cs).any isRawControl = cs.any isRawChar := by
  induction cs with
  | nil => rfl
  | cons c cs ih =>
    rw [utf8_cons, List.any_append, ih, List.any_cons]
    congr 1
    by_cases hc : c.toNat < 128
    · have hlow : ∀ n < 128, isRawControl (UInt8.ofNat n) = isRawChar (Char.ofNat n) := by
        decide
      rw [utf8EncodeChar_of_lt hc, List.any_cons, List.any_nil, Bool.or_false, hlow _ hc,
        Char.ofNat_toNat]
    · have hchar : isRawChar c = false := by
        have : ¬ c.toNat < 32 := by omega
        simp [isRawChar, isControl, this]
      rw [hchar, List.any_eq_false]
      intro b hb
      have hle := le_of_mem_utf8EncodeChar (by omega) hb
      have hnot : ¬ b < 32 := by
        rw [UInt8.le_iff_toNat_le] at hle
        rw [UInt8.lt_iff_toNat_lt]
        have h128 : (128 : Byte).toNat = 128 := rfl
        have h32 : (32 : Byte).toNat = 32 := rfl
        omega
      simp [isRawControl, hnot]

theorem received_utf8 (cs : List Char) :
    received (utf8 cs) = if cs.any isRawChar then none else some cs := by
  rw [received, any_isRawControl_utf8, utf8Decode_utf8]

theorem received_of_clean {cs : List Char} (h : (utf8 cs).any isRawControl = false) :
    received (utf8 cs) = some cs := by
  rw [received, h, if_neg Bool.false_ne_true, utf8Decode_utf8]

theorem received_of_raw {s : Bytes} (h : s.any isRawControl) : received s = none := by
  rw [received, h, if_pos rfl]

theorem escapeChar_cases (c : Char) :
    (∃ e, escapeChar c = ['\\', e] ∧ escapedChar e = some c ∧ isRawChar c = false) ∨
      (escapeChar c = [c] ∧ (c ≠ '"' ∧ c ≠ '\\') ∧ isControl c = isRawChar c) := by
  by_cases h1 : c = '"'
  · subst h1
    exact Or.inl ⟨'"', rfl, rfl, rfl⟩
  by_cases h2 : c = '\\'
  · subst h2
    exact Or.inl ⟨'\\', rfl, rfl, rfl⟩
  by_cases h3 : c = '\n'
  · subst h3
    exact Or.inl ⟨'n', rfl, rfl, rfl⟩
  by_cases h4 : c = '\r'
  · subst h4
    exact Or.inl ⟨'r', rfl, rfl, rfl⟩
  by_cases h5 : c = '\t'
  · subst h5
    exact Or.inl ⟨'t', rfl, rfl, rfl⟩
  refine Or.inr ⟨?_, ⟨h1, h2⟩, ?_⟩
  · rw [escapeChar, if_neg h1, if_neg h2, if_neg h3, if_neg h4, if_neg h5]
  · rw [isRawChar, bne_iff_ne.mpr h3, bne_iff_ne.mpr h4, bne_iff_ne.mpr h5, Bool.and_true,
      Bool.and_true, Bool.and_true]

theorem readPieces_escapeChar (c : Char) (s : List Char) :
    readPieces (escapeChar c ++ s) =
      if isRawChar c then none else (readPieces s).map fun p => (.char c :: p.1, p.2) := by
  rcases escapeChar_cases c with ⟨e, he, hc, hraw⟩ | ⟨he, hc, hraw⟩
  · rw [he, hraw]
    exact readPieces_escape hc s
  · rw [he, ← hraw]
    rcases hcontrol : isControl c with _ | _
    · exact readPieces_plain hc hcontrol s
    · exact readPieces_control hcontrol s

theorem standsFor_escape (cs : List Char) : StandsFor (escape cs) (received (utf8 cs)) := by
  intro rest
  have hpieces : readPieces (escape cs ++ '"' :: rest) =
      if cs.any isRawChar then none else some (cs.map .char, rest) := by
    induction cs with
    | nil => exact readPieces_quote rest
    | cons c cs ih =>
      rw [escape, List.flatMap_cons, List.append_assoc, readPieces_escapeChar, ← escape, ih,
        List.any_cons]
      rcases isRawChar c with - | -
      · rcases cs.any isRawChar with - | - <;> rfl
      · rfl
  rw [readString, hpieces, received_utf8]
  split_ifs
  · rfl
  · rw [Option.bind_some, joinPieces_map_char]

end SemanticSearch
