import SemanticSearch.HttpReading
import SemanticSearch.StaticFile
import SemanticSearch.TreeView

namespace SemanticSearch

structure ClientCtx (V : Type) where
  home_page : Bytes
  files_root : Bytes
  addDoc : Bytes → Bytes → V → V
  removeDoc : Bytes → V → V
  searchJson : List Bytes → InvertedIndex → V → Bytes
  askJson : Bytes → V → Bytes

/-- What the requests change: the files, the keyword index and the vector service. -/
structure World (V : Type) where
  fs : FileSystem
  index : InvertedIndex
  vec : V

/-- A server over `files_root` `root` with a vector service that keeps nothing. -/
def plainCtx : ClientCtx Unit where
  home_page := text "home"
  files_root := text "root"
  addDoc _ _ v := v
  removeDoc _ v := v
  searchJson _ _ _ := text "[]"
  askJson _ _ := text "[]"

variable {V : Type}

def joinTerms (terms : List Bytes) : Bytes := [space].intercalate terms

def notFoundPage : Bytes :=
  makeResponse kHttpNotFound (text "<h1>404 Not Found</h1>") (text "text/html") []

def emptyQuery : Bytes :=
  makeResponse kHttpOk (text "\x7b\"error\":\"empty query\"\x7d") (text "application/json") []

def staticPrefix : Bytes := text "/static/"

def handleGetRequest (ctx : ClientCtx V) (r : Request) (w : World V) : Except Exn Bytes :=
  if r.path = text "/" ∨ r.path = [] then
    .ok (makeResponse kHttpOk ctx.home_page (text "text/html") [])
  else if r.path = text "/query" then
    .ok (makeResponse kHttpOk ctx.home_page (text "text/html") [])
  else if r.path = text "/api/search" then
    let terms := splitTerms r.query
    if terms = [] then .ok emptyQuery
    else .ok (makeResponse kHttpOk (ctx.searchJson terms w.index w.vec) (text "application/json") [])
  else if r.path = text "/api/ask" then
    let terms := splitTerms r.query
    if terms = [] then .ok emptyQuery
    else .ok (makeResponse kHttpOk (ctx.askJson (joinTerms terms) w.vec) (text "application/json") [])
  else if r.path = text "/ask" then
    .ok (makeResponse kHttpOk ctx.home_page (text "text/html") [])
  else if staticPrefix <+: r.path then
    (staticGet w.fs ctx.files_root (r.path.drop 8)).mapError .filesystem_error
  else .ok notFoundPage

/-- PUT and POST: the file is written, then both indexes are updated if that worked. -/
def putAndIndex (ctx : ClientCtx V) (rel body : Bytes) (overwrite : Bool) (w : World V) :
    Bytes × World V :=
  let (resp, fs) := staticPut w.fs ctx.files_root rel body overwrite
  if succeeded resp then
    (resp, { fs, index := InvertedIndex.addFile fs.view rel w.index,
             vec := ctx.addDoc rel body w.vec })
  else (resp, { w with fs })

def handleStaticMutation (ctx : ClientCtx V) (r : Request) (w : World V) : Bytes × World V :=
  let rel := r.path.drop 8
  if r.method = text "PUT" then putAndIndex ctx rel r.body true w
  else if r.method = text "POST" then putAndIndex ctx rel r.body false w
  else if r.method = text "DELETE" then
    let (resp, fs) := staticDelete w.fs ctx.files_root rel
    if succeeded resp then
      (resp, { fs, index := InvertedIndex.removeFile rel w.index, vec := ctx.removeDoc rel w.vec })
    else (resp, { w with fs })
  else
    (makeResponse kHttpNotImplemented (text "Not Implemented") (text "text/plain")
      (text "Not Implemented"), w)

/-- The dispatch on method and path in `HandleClient`. -/
def respond (ctx : ClientCtx V) (r : Request) (w : World V) : Except Exn (Bytes × World V) :=
  if r.method = text "GET" then (handleGetRequest ctx r w).map fun resp => (resp, w)
  else if staticPrefix <+: r.path then .ok (handleStaticMutation ctx r w)
  else .ok (notFoundPage, w)

/-- The state at the head of the loop. `served` lists the buffers handled so far, each with
the response sent for it. -/
structure Conn (V : Type) where
  world : World V
  socket : Socket
  served : List (Bytes × Bytes) := []

/-- Whether the connection is closed behind the response. -/
def Closes (r : Request) : Prop := r.headers[connection]? = some (text "close")

instance (r : Request) : Decidable (Closes r) := inferInstanceAs (Decidable (_ = _))

/-- One pass of the loop: whether it goes on, and the state behind it. -/
def pass (ctx : ClientCtx V) (c : Conn V) : Except Exn (Bool × Conn V) := do
  let (raw, socket) ← readRawRequest c.socket
  if find headerEnd raw = none then
    return (false, { c with socket })
  let r ← parseRequest raw
  let (response, world) ← respond ctx r c.world
  return (!decide (Closes r), { world, socket, served := c.served ++ [(raw, response)] })

section Pass

variable {ctx : ClientCtx V} {c : Conn V} {raw : Bytes} {socket : Socket}

theorem pass_of_error {e : Exn} (hr : readRawRequest c.socket = .error e) :
    pass ctx c = .error e := by
  simp only [pass, hr, bind, Except.bind]

theorem pass_of_none (hr : readRawRequest c.socket = .ok (raw, socket))
    (hf : find headerEnd raw = none) : pass ctx c = .ok (false, { c with socket }) := by
  simp only [pass, hr, bind, Except.bind, if_pos hf]
  rfl

theorem pass_of_some {i : ℕ} (hr : readRawRequest c.socket = .ok (raw, socket))
    (hf : find headerEnd raw = some i) :
    pass ctx c = do
      let r ← parseRequest raw
      let (response, world) ← respond ctx r c.world
      return (!decide (Closes r), { world, socket, served := c.served ++ [(raw, response)] }) := by
  simp only [pass, hr, bind, Except.bind, hf, reduceCtorEq, if_false]

/-- What a pass that goes through the dispatch has done. -/
theorem pass_ok {i : ℕ} {go : Bool} {c' : Conn V} (hr : readRawRequest c.socket = .ok (raw, socket))
    (hf : find headerEnd raw = some i) (h : pass ctx c = .ok (go, c')) :
    ∃ r response world, parseRequest raw = .ok r ∧
      respond ctx r c.world = .ok (response, world) ∧ go = !decide (Closes r) ∧
      c' = { world, socket, served := c.served ++ [(raw, response)] } := by
  rw [pass_of_some hr hf] at h
  rcases hp : parseRequest raw with e | r
  · rw [hp] at h
    cases h
  rcases hw : respond ctx r c.world with e | ⟨response, world⟩
  · rw [hp] at h
    simp only [bind, Except.bind, hw] at h
    cases h
  · rw [hp] at h
    simp only [bind, Except.bind, hw] at h
    obtain ⟨hgo, hc⟩ := Prod.mk.inj (Except.ok.inj h)
    exact ⟨r, response, world, rfl, hw, hgo.symm, hc.symm⟩

/-- A pass without an exception: no head was found, or a request was served. -/
theorem pass_cases {go : Bool} {c' : Conn V} (h : pass ctx c = .ok (go, c')) :
    ∃ raw socket, readRawRequest c.socket = .ok (raw, socket) ∧
      ((find headerEnd raw = none ∧ go = false ∧ c' = { c with socket }) ∨
        (find headerEnd raw).isSome ∧ ∃ response world,
          c' = { world, socket, served := c.served ++ [(raw, response)] }) := by
  rcases hr : readRawRequest c.socket with e | ⟨raw, socket⟩
  · rw [pass_of_error hr] at h
    cases h
  refine ⟨raw, socket, rfl, ?_⟩
  rcases hf : find headerEnd raw with _ | i
  · rw [pass_of_none hr hf] at h
    obtain ⟨hgo, hc⟩ := Prod.mk.inj (Except.ok.inj h)
    exact Or.inl ⟨rfl, hgo.symm, hc.symm⟩
  · obtain ⟨r, response, world, -, -, -, hc⟩ := pass_ok hr hf h
    exact Or.inr ⟨rfl, response, world, hc⟩

theorem size_pass {c' : Conn V} (h : pass ctx c = .ok (true, c')) :
    size c'.socket < size c.socket := by
  obtain ⟨raw, socket, hr, ⟨-, hgo, -⟩ | ⟨hf, response, world, rfl⟩⟩ := pass_cases h
  · cases hgo
  · exact size_readRawRequest hr hf

end Pass

/-- `HandleClient`: the state when the loop ends, or the exception that leaves it. -/
def handleClient (ctx : ClientCtx V) (c : Conn V) : Except Exn (Conn V) :=
  match _h : pass ctx c with
  | .error e => .error e
  | .ok (false, c') => .ok c'
  | .ok (true, c') => handleClient ctx c'
termination_by size c.socket
decreasing_by exact size_pass _h

section Loop

variable {ctx : ClientCtx V} {c c' : Conn V}

theorem handleClient_of_error {e : Exn} (h : pass ctx c = .error e) :
    handleClient ctx c = .error e := by
  rw [handleClient]
  split <;> simp_all

theorem handleClient_of_stop (h : pass ctx c = .ok (false, c')) :
    handleClient ctx c = .ok c' := by
  rw [handleClient]
  split <;> simp_all

theorem handleClient_of_next (h : pass ctx c = .ok (true, c')) :
    handleClient ctx c = handleClient ctx c' := by
  rw [handleClient]
  split <;> simp_all

end Loop
end SemanticSearch
