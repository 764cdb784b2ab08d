import SemanticSearch.RequestRoundTrip
import SemanticSearch.KeyedFolds

namespace SemanticSearch

open KeyedFold

structure SpacedField where
  name : Bytes
  spaces : ℕ
  value : Bytes
  name_ok : name ≠ [] ∧ colon ∉ name ∧ ∀ c ∈ name, isSpace c = false
  value_ok : value ≠ [] ∧ carriageReturn ∉ value ∧ newline ∉ value ∧ value.head? ≠ some space ∧
    value.getLast? ≠ some space

namespace SpacedField

def key (f : SpacedField) : Bytes := f.name.map toLower

def field (f : SpacedField) : HeaderField where
  name := f.name
  value := List.replicate f.spaces space ++ f.value
  name_ok := f.name_ok
  value_ok := by
    have h1 : carriageReturn ≠ space := by decide
    have h2 : newline ≠ space := by decide
    simp [f.value_ok.2.1, f.value_ok.2.2.1, List.mem_replicate, h1, h2]

def kept (f : SpacedField) : Bytes := (List.replicate f.spaces space ++ f.value).drop 1

theorem kept_eq_iff (f : SpacedField) : f.kept = f.value ↔ f.spaces = 1 := by
  have hpos := List.length_pos_iff.mpr f.value_ok.1
  constructor
  · intro h
    have hlen := congrArg List.length h
    simp only [kept, List.length_drop, List.length_append, List.length_replicate] at hlen
    omega
  · intro h
    rw [kept, h]
    rfl

end SpacedField

/-- A decimal number that fits in `size_t`. -/
def IsSize (v : Bytes) : Prop := v ≠ [] ∧ (∀ c ∈ v, isDigit c) ∧ digitsValue v < ulongBound

instance (v : Bytes) : Decidable (IsSize v) := inferInstanceAs (Decidable (_ ∧ _))

theorem IsSize.isULong {v : Bytes} (h : IsSize v) : IsULong v := by
  obtain ⟨hne, hdigits, hvalue⟩ := h
  obtain ⟨c, cs, rfl⟩ := List.exists_cons_of_ne_nil hne
  rw [IsULong, numeral_of_digit (hdigits c List.mem_cons_self),
    List.takeWhile_eq_self_iff.mpr hdigits]
  exact ⟨hne, hvalue⟩

/-- A well-formed request line with header lines of any spacing. A `Content-Length`, if there is
one, is a number. -/
structure SpacedHead where
  method : Bytes
  target : Bytes
  version : Bytes
  fields : List SpacedField
  method_ok : method ≠ [] ∧ ∀ c ∈ method, isSpace c = false
  target_ok : target ≠ [] ∧ ∀ c ∈ target, isSpace c = false
  version_ok : version ≠ [] ∧ ∀ c ∈ version, isSpace c = false
  length_ok : ∀ f, IsLast SpacedField.key f fields → f.key = contentLength → IsSize f.value

namespace SpacedHead

def head (R : SpacedHead) : RequestHead where
  method := R.method
  target := R.target
  version := R.version
  fields := R.fields.map SpacedField.field
  method_ok := R.method_ok
  target_ok := R.target_ok
  version_ok := R.version_ok

/-- The value of the last line of each name. -/
def lastValue (R : SpacedHead) (key : Bytes) : Option Bytes :=
  (R.fields.map fun f => (f.key, f.value)).reverse.lookup key

/-- The request parses, and its headers are the values that were written and no others. -/
def Kept (R : SpacedHead) (b : Bytes) : Prop :=
  ∃ r, parseRequest (R.head.render ++ b) = .ok r ∧ ∀ key, r.headers[key]? = R.lastValue key

theorem map_parsedField (R : SpacedHead) :
    R.head.fields.map WireRequest.parsedField = R.fields.map fun f => (f.key, f.kept) := by
  rw [head, List.map_map]
  rfl

theorem parseHead_head (R : SpacedHead) :
    ∃ r, parseHead R.head.render = .ok r ∧
      ∀ key, r.headers[key]? = (R.fields.map fun f => (f.key, f.kept)).reverse.lookup key := by
  obtain ⟨r, hr, -, -, -, hkeys⟩ := R.head.parseHead_render fun f hf => by
    obtain ⟨g, -, rfl⟩ := List.mem_map.mp hf
    simp [SpacedField.field, g.value_ok.1]
  rw [R.map_parsedField] at hkeys
  exact ⟨r, hr, hkeys⟩

/-- The headers are kept exactly when the last line of each name has one space behind its colon. -/
theorem headersKept_iff (R : SpacedHead) (b : Bytes) :
    R.Kept b ↔ ∀ f, IsLast SpacedField.key f R.fields → f.spaces = 1 := by
  obtain ⟨r₀, h₀, hkeys⟩ := R.parseHead_head
  have hsame : (∀ key, r₀.headers[key]? = R.lastValue key) ↔
      ∀ f, IsLast SpacedField.key f R.fields → f.spaces = 1 := by
    simp only [hkeys, lastValue, lookup_reverse_congr_iff, SpacedField.kept_eq_iff]
  have hparse := R.head.isHeaderBlock.parseRequest_append b
  simp only [h₀, bind, Except.bind] at hparse
  rw [← hsame, Kept, hparse]
  constructor
  · rintro ⟨r, hr, h⟩
    rcases hn : declaredLength r₀ with e | n
    · rw [hn] at hr
      cases hr
    · rw [hn] at hr
      obtain rfl := Except.ok.inj hr
      exact h
  · intro h
    have hlength : ∀ v ∈ r₀.headers[contentLength]?, IsULong v := by
      intro v hv
      rw [Option.mem_def, h, lastValue, lookup_reverse_eq_some_iff] at hv
      obtain ⟨f, hf, hkey, rfl⟩ := hv
      exact (R.length_ok f hf hkey).isULong
    obtain ⟨n, hn⟩ := declaredLength_ok_iff.mpr hlength
    rw [hn]
    exact ⟨_, rfl, h⟩

end SpacedHead

theorem connection_ok : text "Connection" ≠ [] ∧ colon ∉ text "Connection" ∧
    NoSpace (text "Connection") := by decide

theorem close_ok : text "close" ≠ [] ∧ carriageReturn ∉ text "close" ∧ newline ∉ text "close" ∧
    (text "close").head? ≠ some space ∧ (text "close").getLast? ≠ some space := by decide

def closeField : SpacedField := ⟨text "Connection", 0, text "close", connection_ok, close_ok⟩

theorem closeField_key : closeField.key ≠ contentLength := by decide

theorem get_ok : text "GET" ≠ [] ∧ NoSpace (text "GET") := by decide

theorem slash_ok : text "/" ≠ [] ∧ NoSpace (text "/") := by decide

theorem http_ok : text "HTTP/1.1" ≠ [] ∧ NoSpace (text "HTTP/1.1") := by decide

theorem closeField_length (f : SpacedField) (hf : IsLast SpacedField.key f [closeField])
    (hkey : f.key = contentLength) : IsSize f.value :=
  absurd hkey (List.mem_singleton.mp hf.mem ▸ closeField_key)

/-- A client that ends its connection, without a space behind the colon. -/
def closeHead : SpacedHead where
  method := text "GET"
  target := text "/"
  version := text "HTTP/1.1"
  fields := [closeField]
  method_ok := get_ok
  target_ok := slash_ok
  version_ok := http_ok
  length_ok := closeField_length

/-- The server finds another value and keeps the connection open. -/
theorem closeHead_lost :
    closeHead.head.render = text "GET / HTTP/1.1\r\nConnection:close\r\n\r\n" ∧
      (parseRequest closeHead.head.render).map (·.headers[connection]?) =
        .ok (some (text "lose")) ∧ ¬ closeHead.Kept [] := by
  have hlose : (parseRequest closeHead.head.render).map (·.headers[connection]?) =
      .ok (some (text "lose")) := by decide
  refine ⟨rfl, hlose, ?_⟩
  rintro ⟨r, hr, hkeys⟩
  rw [List.append_nil] at hr
  have hvalue : closeHead.lastValue connection = some (text "close") := by decide
  rw [hr, Except.map, hkeys, hvalue] at hlose
  exact absurd hlose (by decide)

end SemanticSearch
