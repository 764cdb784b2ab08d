import SemanticSearch.FileSystem
import SemanticSearch.HttpResponse

namespace SemanticSearch

inductive Exn
  | out_of_range | invalid_argument | filesystem_error (code : Errno)
  deriving DecidableEq, Repr

def colon : Byte := 58

/-- `s.substr(pos)` throws when `pos` is past the end. -/
def substr (s : Bytes) (pos : ℕ) : Except Exn Bytes :=
  if s.length < pos then .error .out_of_range else .ok (s.drop pos)

def ulongBound : ℕ := 2 ^ 64

def digitsValue (ds : Bytes) : ℕ := ds.foldl (fun a c => a * 10 + (c.toNat - 48)) 0

/-- What `strtoul` sees: whether there is a minus sign, and the text behind white space and
sign. -/
def numeral (s : Bytes) : Bool × Bytes :=
  match s.dropWhile isSpace with
  | [] => (false, [])
  | c :: cs => if c = 43 then (false, cs) else if c = 45 then (true, cs) else (false, c :: cs)

/-- `std::stoul`. A minus sign negates modulo the bound, as `strtoul` does. -/
def stoul (s : Bytes) : Except Exn ℕ :=
  let ds := (numeral s).2.takeWhile isDigit
  if ds = [] then .error .invalid_argument
  else if ulongBound ≤ digitsValue ds then .error .out_of_range
  else if (numeral s).1 then .ok ((ulongBound - digitsValue ds) % ulongBound)
  else .ok (digitsValue ds)

/-- The texts that `std::stoul` accepts. -/
def IsULong (s : Bytes) : Prop :=
  (numeral s).2.takeWhile isDigit ≠ [] ∧
    digitsValue ((numeral s).2.takeWhile isDigit) < ulongBound

instance (s : Bytes) : Decidable (IsULong s) := inferInstanceAs (Decidable (_ ∧ _))

theorem stoul_ok_iff {s : Bytes} : (∃ n, stoul s = .ok n) ↔ IsULong s := by
  unfold stoul IsULong
  constructor
  · rintro ⟨n, h⟩
    dsimp only at h
    split_ifs at h with h0 h1
    · exact ⟨h0, by omega⟩
    · exact ⟨h0, by omega⟩
  · rintro ⟨h0, h1⟩
    dsimp only
    rw [if_neg h0, if_neg (by omega)]
    split_ifs
    · exact ⟨_, rfl⟩
    · exact ⟨_, rfl⟩

abbrev Headers := Std.ExtTreeMap Bytes Bytes

structure Request where
  method : Bytes := []
  path : Bytes := []
  query : Bytes := []
  headers : Headers := ∅
  body : Bytes := []
  deriving DecidableEq

def contentLength : Bytes := text "content-length"
def connection : Bytes := text "connection"

def headerEnd : Bytes := crlf ++ crlf

/-- A line without the `\r` before its `\n`. -/
def popCarriageReturn (line : Bytes) : Bytes :=
  if line.getLast? = some carriageReturn then line.dropLast else line

/-- One header line: the key is lower-cased, the value starts two bytes behind the colon. -/
def parseHeader (headers : Headers) (line : Bytes) : Except Exn Headers :=
  match find [colon] line with
  | none => .ok headers
  | some c => do
    let val ← substr line (c + 2)
    return headers.insert ((line.take c).map toLower) val

def parseHeaders : List Bytes → Headers → Except Exn Headers
  | [], headers => .ok headers
  | l :: ls, headers =>
    if popCarriageReturn l = [] then .ok headers
    else do parseHeaders ls (← parseHeader headers (popCarriageReturn l))

/-- The path and the query around the first `?`. -/
def splitQuery (path : Bytes) : Bytes × Bytes :=
  match find (text "?") path with
  | none => (path, [])
  | some pos => (path.take pos, path.drop (pos + 1))

/-- The words of the request line and the text below it. -/
def requestLine (raw : Bytes) : Bytes × Bytes × Bytes :=
  let first_line := raw.takeWhile (· ≠ newline)
  (first_line.takeWhile (· ≠ space),
    (first_line.dropWhile (· ≠ space)).tail.takeWhile (· ≠ space),
    (raw.dropWhile (· ≠ newline)).tail)

/-- The body: as many bytes behind the blank line as `Content-Length` says. -/
def parseBody (headers : Headers) (raw : Bytes) : Except Exn Bytes :=
  match headers[contentLength]? with
  | none => .ok []
  | some value => do
    let body_len ← stoul value
    match find headerEnd raw with
    | none => return []
    | some sep => return (raw.drop (sep + 4)).take body_len

def parseRequest (raw : Bytes) : Except Exn Request := do
  let (method, target, rest) := requestLine raw
  if method = [] ∨ target = [] then
    return {}
  let (path, query) := splitQuery target
  let headers ← parseHeaders (getlines newline rest) ∅
  let body ← parseBody headers raw
  return { method, path, query, headers, body }

/-- Replaces every `%20` by `+`. -/
def unescapeSpaces : Bytes → Bytes
  | 37 :: 50 :: 48 :: cs => 43 :: unescapeSpaces cs
  | c :: cs => c :: unescapeSpaces cs
  | [] => []

def splitTerms (query : Bytes) : List Bytes :=
  let q := match find (text "=") query with
    | none => query
    | some eq => query.drop (eq + 1)
  ((getlines 43 (unescapeSpaces q)).filter (· ≠ [])).map (·.map toLower)

example : splitTerms (text "q=Hat%20Tree+x") = [text "hat", text "tree", text "x"] := by decide

end SemanticSearch
