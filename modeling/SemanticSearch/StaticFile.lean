import SemanticSearch.FileLookup
import SemanticSearch.HttpResponse

namespace SemanticSearch

open FileSystem

/-- `ReadAll`: the bytes of the file, none when it cannot be opened. -/
def readAll (fs : FileSystem) (p : Bytes) : Bytes := (fs.read p).getD []

def contentTypeFor (p : Bytes) : Bytes :=
  if text ".txt" <:+ p then text "text/plain"
  else if text ".html" <:+ p then text "text/html"
  else text "application/octet-stream"

def forbidden : Bytes :=
  makeResponse kHttpForbidden (text "<h1>403 Forbidden</h1>") (text "text/html") (text "Forbidden")

def internalError : Bytes :=
  makeResponse kHttpInternalError (text "<h1>500 Internal Server Error</h1>") (text "text/html")
    (text "Internal Server Error")

/-- A 403 response if `target` is outside `filesRoot`, else nothing. -/
def checkWithinRoot (fs : FileSystem) (filesRoot target : Bytes) : Except Errno Bytes := do
  if filesRoot = [] then
    return []
  let canRoot := pathString (← fs.canonical filesRoot)
  let canTarget := (← fs.weaklyCanonical target).string
  if canTarget.length < canRoot.length ∨ ¬ canRoot <+: canTarget ∨
      (canRoot.length < canTarget.length ∧ canTarget[canRoot.length]? ≠ some slash) then
    return forbidden
  return []

/-- Writes `data` to `target`, as a healthy disk does: only the open can fail. -/
def writeFile (fs : FileSystem) (target data : Bytes) : Bytes × FileSystem :=
  match fs.openTarget target with
  | .error _ => (internalError, fs)
  | .ok q => ([], fs.set q (.file data))

def staticGet (fs : FileSystem) (filesRoot relpath : Bytes) : Except Errno Bytes := do
  let error1 ← checkWithinRoot fs filesRoot relpath
  if error1 ≠ [] then
    return error1
  if ← fs.isRegularFile relpath then
    return makeResponse kHttpOk (readAll fs relpath) (contentTypeFor relpath) []
  return makeResponse kHttpNotFound (text "<h1>404 Not Found</h1>") (text "text/html") []

/-- The body of `StaticPut`'s `try` block, with `write` in place of `WriteFile`. -/
def tryPut (write : FileSystem → Bytes → Bytes → Bytes × FileSystem) (fs : FileSystem)
    (filesRoot relpath data : Bytes) (overwrite : Bool) : Except Errno (Bytes × FileSystem) := do
  let error1 ← checkWithinRoot fs filesRoot relpath
  if error1 ≠ [] then
    return (error1, fs)
  let exist ← fs.exists relpath
  if exist && !overwrite then
    return (makeResponse kHttpConflict (text "<h1>409 Conflict</h1>") (text "text/html")
      (text "Conflict"), fs)
  let (error2, fs') := write fs relpath data
  if error2 ≠ [] then
    return (error2, fs')
  return (if exist then makeResponse kHttpOk [] (text "text/plain") (text "OK")
    else makeResponse kHttpCreated [] (text "text/plain") (text "Created"), fs')

def staticPutWith (write : FileSystem → Bytes → Bytes → Bytes × FileSystem) (fs : FileSystem)
    (filesRoot relpath data : Bytes) (overwrite : Bool) : Bytes × FileSystem :=
  match tryPut write fs filesRoot relpath data overwrite with
  | .ok r => r
  | .error _ => (internalError, fs)

/-- `StaticPut` over a disk that takes every byte. -/
def staticPut (fs : FileSystem) (filesRoot relpath data : Bytes) (overwrite : Bool) :
    Bytes × FileSystem :=
  staticPutWith writeFile fs filesRoot relpath data overwrite

/-- The body of `StaticDelete`'s `try` block. -/
def tryDelete (fs : FileSystem) (filesRoot relpath : Bytes) :
    Except Errno (Bytes × FileSystem) := do
  let error1 ← checkWithinRoot fs filesRoot relpath
  if error1 ≠ [] then
    return (error1, fs)
  if !(← fs.exists relpath) || !(← fs.isRegularFile relpath) then
    return (makeResponse kHttpNotFound (text "<h1>404 Not Found</h1>") (text "text/html")
      (text "Not Found"), fs)
  match fs.unlink relpath with
  | .error _ => return (internalError, fs)
  | .ok fs' => return (makeResponse kHttpNoContent [] (text "text/plain") (text "No Content"), fs')

def staticDelete (fs : FileSystem) (filesRoot relpath : Bytes) : Bytes × FileSystem :=
  match tryDelete fs filesRoot relpath with
  | .ok r => r
  | .error _ => (internalError, fs)

end SemanticSearch
