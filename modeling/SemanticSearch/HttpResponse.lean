import SemanticSearch.Bytes

namespace SemanticSearch

def kHttpOk : ℕ := 200
def kHttpCreated : ℕ := 201
def kHttpNoContent : ℕ := 204
def kHttpForbidden : ℕ := 403
def kHttpNotFound : ℕ := 404
def kHttpConflict : ℕ := 409
def kHttpInternalError : ℕ := 500
def kHttpNotImplemented : ℕ := 501

def crlf : Bytes := [carriageReturn, newline]

/-- The reason phrase of a status whose text is left out. -/
def defaultReason (status : ℕ) : Bytes :=
  if status = kHttpOk then text "OK"
  else if status = kHttpCreated then text "Created"
  else if status = kHttpForbidden then text "Forbidden"
  else if status = kHttpNotFound then text "Not Found"
  else if status = kHttpConflict then text "Conflict"
  else if status = kHttpNotImplemented then text "Not Implemented"
  else text "Unknown"

def makeResponse (status : ℕ) (body contentType statusText : Bytes) : Bytes :=
  let reason := if statusText = [] then defaultReason status else statusText
  text "HTTP/1.1 " ++ decimal status ++ [space] ++ reason ++ crlf ++
    text "Content-Type: " ++ contentType ++ crlf ++
    text "Content-Length: " ++ decimal body.length ++ crlf ++ crlf ++ body

/-- Whether a response text starts with the given status. -/
def Answers (response : Bytes) (status : ℕ) : Prop :=
  text "HTTP/1.1 " ++ decimal status ++ [space] <+: response

instance (response : Bytes) (status : ℕ) : Decidable (Answers response status) :=
  inferInstanceAs (Decidable (_ <+: _))

theorem answers_makeResponse (status : ℕ) (body contentType statusText : Bytes) :
    Answers (makeResponse status body contentType statusText) status := by
  unfold Answers makeResponse
  simp only [List.append_assoc]
  exact ⟨_, by simp only [List.append_assoc]; rfl⟩

/-- The test for success in `HandleStaticMutation`: `resp.find("HTTP/1.1 2") != npos`. -/
def succeeded (response : Bytes) : Bool := (find (text "HTTP/1.1 2") response).isSome

end SemanticSearch
