import SemanticSearch.HttpRequest

namespace SemanticSearch

def staticPath (server_path : Bytes) : Bytes := text "/static/" ++ server_path

/-- The bytes that `SendHttpRequest` builds and sends. -/
def sendHttpRequest (host port method path body : Bytes) : Bytes :=
  method ++ text " " ++ path ++ text " HTTP/1.1" ++ crlf ++
    text "Host: " ++ host ++ text ":" ++ port ++ crlf ++
    text "User-Agent: searchclient/1.0" ++ crlf ++
    (if body ≠ [] then
      text "Content-Length: " ++ decimal body.length ++ crlf ++
        text "Content-Type: application/octet-stream" ++ crlf
    else []) ++
    text "Connection: close" ++ crlf ++ crlf ++ body

/-- The bounds of `int`. -/
def IsInt (n : ℤ) : Prop := -2 ^ 31 ≤ n ∧ n < 2 ^ 31

instance (n : ℤ) : Decidable (IsInt n) := inferInstanceAs (Decidable (_ ∧ _))

/-- `in >> word`: the word behind white space and what follows it, nothing at the end. -/
def extractWord (s : Bytes) : Option (Bytes × Bytes) :=
  let s' := s.dropWhile isSpace
  let word := s'.takeWhile fun c => !isSpace c
  if word = [] then none else some (word, s'.dropWhile fun c => !isSpace c)

/-- `in >> code`: a number that an `int` can hold. -/
def extractInt (s : Bytes) : Option ℤ :=
  let ds := (numeral s).2.takeWhile isDigit
  let value : ℤ := if (numeral s).1 then -digitsValue ds else digitsValue ds
  if ds ≠ [] ∧ IsInt value then some value else none

/-- `ParseStatus`. -/
def parseStatus (http_response : Bytes) : Option ℤ := do
  let (line, _) ← getline newline http_response
  let (_, rest) ← extractWord line
  extractInt rest

/-- The body that `get` prints or saves. -/
def responseBody (http_response : Bytes) : Bytes :=
  match find headerEnd http_response with
  | some pos => http_response.drop (pos + 4)
  | none =>
    match find [newline, newline] http_response with
    | some pos => http_response.drop (pos + 2)
    | none => http_response

example : parseStatus (makeResponse kHttpNotFound (text "gone") (text "text/html") []) = some 404 := by
  decide +kernel

end SemanticSearch
