import SemanticSearch.StaticEffects
import SemanticSearch.TreeView
import SemanticSearch.Runs

namespace SemanticSearch

open FileSystem

/-- The directories, and the one the process works in. -/
structure Layout where
  isDir : RealPath → Bool
  cwd : RealPath

/-- What a path names: a directory, a name in a directory, or nothing that could be there. -/
inductive Named
  | directory
  | name (q : RealPath)
  | nowhere
  deriving DecidableEq, Repr

def Layout.walk (l : Layout) : RealPath → List Bytes → Named
  | _, [] => .directory
  | cur, c :: cs =>
    if c = dot then l.walk cur cs
    else if c = dotdot then l.walk cur.dropLast cs
    else if l.isDir (cur ++ [c]) then l.walk (cur ++ [c]) cs
    else if cs = [] then .name (cur ++ [c])
    else .nowhere

def Layout.named (l : Layout) (p : Bytes) : Named :=
  let s := cStr p
  if s = [] then .nowhere else l.walk (if isAbsolute s then [] else l.cwd) (components s)

abbrev Store := RealPath → Option Bytes

/-- Whether the path leads to anything, and to a file. -/
def Named.present (store : Store) : Named → Bool
  | .directory => true
  | .name q => (store q).isSome
  | .nowhere => false

def Named.presentFile (store : Store) : Named → Bool
  | .name q => (store q).isSome
  | _ => false

inductive StaticCall
  | get (path : Bytes)
  | put (path data : Bytes) (overwrite : Bool)
  | delete (path : Bytes)

def StaticCall.path : StaticCall → Bytes
  | get path => path
  | put path _ _ => path
  | delete path => path

inductive Outcome
  | content (data : Bytes)
  | notFound
  | conflict
  | failed
  | replaced
  | created
  | removed
  deriving DecidableEq, Repr

def Outcome.status : Outcome → ℕ
  | content _ => kHttpOk
  | notFound => kHttpNotFound
  | conflict => kHttpConflict
  | failed => kHttpInternalError
  | replaced => kHttpOk
  | created => kHttpCreated
  | removed => kHttpNoContent

/-- The response that tells the outcome. -/
def Outcome.response (path : Bytes) : Outcome → Bytes
  | content data => makeResponse kHttpOk data (contentTypeFor path) []
  | notFound => makeResponse kHttpNotFound (text "<h1>404 Not Found</h1>") (text "text/html")
      (text "Not Found")
  | conflict => makeResponse kHttpConflict (text "<h1>409 Conflict</h1>") (text "text/html")
      (text "Conflict")
  | failed => internalError
  | replaced => putDone true
  | created => putDone false
  | removed => deleteDone

def Layout.operate (l : Layout) (store : Store) : StaticCall → Outcome × Store
  | .get path =>
    match l.named path with
    | .name q => ((store q).elim .notFound .content, store)
    | _ => (.notFound, store)
  | .put path data overwrite =>
    match l.named path with
    | .directory => (if overwrite then .failed else .conflict, store)
    | .nowhere => (.failed, store)
    | .name q =>
      if (store q).isSome && !overwrite then (.conflict, store)
      else (if (store q).isSome then .replaced else .created, Function.update store q (some data))
  | .delete path =>
    match l.named path with
    | .name q =>
      if (store q).isSome then (.removed, Function.update store q none) else (.notFound, store)
    | _ => (.notFound, store)

theorem Outcome.answers_response (path : Bytes) (o : Outcome) :
    Answers (o.response path) o.status := by
  cases o <;> exact answers_makeResponse _ _ _ _

theorem Layout.operate_refused {l : Layout} {store : Store} {call : StaticCall}
    (h : ¬ (200 ≤ (l.operate store call).1.status ∧ (l.operate store call).1.status < 300)) :
    (l.operate store call).2 = store := by
  cases call with
  | get path =>
    simp only [Layout.operate]
    split <;> rfl
  | put path data overwrite =>
    simp only [Layout.operate] at h ⊢
    split at h
    · rfl
    · rfl
    · split_ifs at h ⊢ with hc he
      · rfl
      · simp [Outcome.status, kHttpOk] at h
      · simp [Outcome.status, kHttpCreated] at h
  | delete path =>
    simp only [Layout.operate] at h ⊢
    split at h
    · split_ifs at h ⊢ with he
      · simp [Outcome.status, kHttpNoContent] at h
      · rfl
    · rfl

theorem Layout.operate_other {l : Layout} (store : Store) {call : StaticCall} {q : RealPath}
    (h : l.named call.path ≠ .name q) : (l.operate store call).2 q = store q := by
  have hupdate : ∀ q' v, l.named call.path = .name q' → Function.update store q' v q = store q := by
    intro q' v hq'
    apply Function.update_of_ne
    rintro rfl
    exact h hq'
  cases call with
  | get path =>
    simp only [Layout.operate]
    split <;> rfl
  | put path data overwrite =>
    simp only [Layout.operate]
    split
    · rfl
    · rfl
    · next q' hq' =>
      split_ifs
      · rfl
      · exact hupdate q' _ hq'
      · exact hupdate q' _ hq'
  | delete path =>
    simp only [Layout.operate]
    split
    · next q' hq' =>
      split_ifs
      · exact hupdate q' _ hq'
      · rfl
    · rfl

namespace FileSystem

variable {fs fs' : FileSystem}

def layout (fs : FileSystem) : Layout := ⟨fun q => fs.entries[q]? = some .dir, fs.cwd⟩

def contents (fs : FileSystem) : Store := fun q =>
  match fs.entries[q]? with
  | some (.file data) => some data
  | _ => none

@[simp] theorem isDir_layout {q : RealPath} :
    fs.layout.isDir q = true ↔ fs.entries[q]? = some .dir := by simp [layout]

theorem contents_eq_some {q : RealPath} {data : Bytes} :
    fs.contents q = some data ↔ fs.entries[q]? = some (.file data) := by
  unfold contents
  rcases fs.entries[q]? with _ | ⟨data' | _ | t⟩ <;> simp

theorem LinkFree.entries_eq (h : fs.LinkFree) (h' : fs'.LinkFree) (hl : fs'.layout = fs.layout)
    {q : RealPath} (hc : fs'.contents q = fs.contents q) : fs'.entries[q]? = fs.entries[q]? := by
  have hdir : fs'.entries[q]? = some .dir ↔ fs.entries[q]? = some .dir := by
    rw [← isDir_layout, ← isDir_layout, hl]
  have hfile : ∀ data, fs'.entries[q]? = some (.file data) ↔ fs.entries[q]? = some (.file data) := by
    intro data
    rw [← contents_eq_some, ← contents_eq_some, hc]
  apply Option.ext
  intro e
  cases e with
  | file data => exact hfile data
  | dir => exact hdir
  | link t => exact iff_of_false (h' q t) (h q t)

theorem LinkFree.eq_of_contents (h : fs.LinkFree) (h' : fs'.LinkFree)
    (hl : fs'.layout = fs.layout) (hc : fs'.contents = fs.contents) : fs' = fs :=
  ext_entries (fun q => h.entries_eq h' hl (congrFun hc q)) (congrArg Layout.cwd hl)

/-- What a lookup answers for a path that names `named`. -/
def Finds (fs : FileSystem) (r : Except Errno Place) : Named → Prop
  | .directory => ∃ d, r = .ok (.found d) ∧ fs.entries[d]? = some .dir
  | .name q => ∃ pl, r = .ok pl ∧ pl.location = q ∧ fs.entries[q]? ≠ some .dir
  | .nowhere => r = .error .ENOENT ∨ r = .error .ENOTDIR

theorem LinkFree.finds_walkFrom (h : fs.LinkFree)
    {follow : RealPath → List Bytes → Except Errno Place} {cur : RealPath} {cs : List Bytes}
    (hcur : fs.entries[cur]? = some .dir)
    (hlong : walkFrom fs follow cur cs ≠ .error .ENAMETOOLONG) :
    fs.Finds (walkFrom fs follow cur cs) (fs.layout.walk cur cs) := by
  induction cs generalizing cur with
  | nil => exact ⟨cur, rfl, hcur⟩
  | cons c cs ih =>
    rw [walkFrom] at hlong ⊢
    rw [Layout.walk]
    by_cases h1 : c = dot
    · rw [if_pos h1] at hlong
      simp only [if_pos h1]
      exact ih hcur hlong
    by_cases h2 : c = dotdot
    · rw [if_neg h1, if_pos h2] at hlong
      simp only [if_neg h1, if_pos h2]
      exact ih (dir_dropLast hcur) hlong
    by_cases h3 : nameMax < c.length
    · simp [h1, h2, h3] at hlong
    rw [if_neg h1, if_neg h2, if_neg h3] at hlong
    simp only [if_neg h1, if_neg h2, if_neg h3, isDir_layout]
    rcases he : fs.entries[cur ++ [c]]? with _ | ⟨data | _ | t⟩ <;> simp only [he] at hlong ⊢
    · by_cases hcs : cs = []
      · simp only [if_pos hcs, reduceCtorEq, if_false]
        exact ⟨_, rfl, rfl, by simp [he]⟩
      · simp only [if_neg hcs, reduceCtorEq, if_false]
        exact Or.inl rfl
    · by_cases hcs : cs = []
      · simp only [if_pos hcs, Option.some.injEq, reduceCtorEq, if_false]
        exact ⟨_, rfl, rfl, by simp [he]⟩
      · simp only [if_neg hcs, Option.some.injEq, reduceCtorEq, if_false]
        exact Or.inr rfl
    · simp only [if_true]
      exact ih he hlong
    · exact absurd he (h _ t)

theorem LinkFree.finds_lookup (h : fs.LinkFree) {p : Bytes}
    (hlong : fs.lookup p ≠ .error .ENAMETOOLONG) :
    fs.Finds (fs.lookup p) (fs.layout.named p) := by
  simp only [lookup, Layout.named] at hlong ⊢
  by_cases h0 : cStr p = []
  · simp only [if_pos h0]
    exact Or.inl rfl
  by_cases h1 : pathMax ≤ (cStr p).length
  · simp [h0, h1] at hlong
  simp only [if_neg h0, if_neg h1] at hlong ⊢
  exact h.finds_walkFrom (dir_startDir fs (cStr p)) hlong

theorem LinkFree.resolve_named (h : fs.LinkFree) {p : Bytes}
    (hlong : fs.lookup p ≠ .error .ENAMETOOLONG) :
    match fs.layout.named p with
    | .directory => ∃ d, fs.resolve p = .ok d ∧ fs.entries[d]? = some .dir
    | .name q => (∃ data, fs.contents q = some data ∧ fs.resolve p = .ok q) ∨
        fs.contents q = none ∧ fs.status p = .ok none
    | .nowhere => fs.status p = .ok none := by
  have hfinds := h.finds_lookup hlong
  split <;> rename_i hn <;> rw [hn] at hfinds
  · obtain ⟨d, hl, hd⟩ := hfinds
    exact ⟨d, resolve_eq_ok.mpr hl, hd⟩
  · obtain ⟨pl, hl, rfl, hnot⟩ := hfinds
    have hs := lookup_sound hl
    cases pl with
    | found q =>
      obtain ⟨data, hd⟩ := hs.resolve_left hnot
      exact Or.inl ⟨data, contents_eq_some.mpr hd, resolve_eq_ok.mpr hl⟩
    | missing d n =>
      refine Or.inr ⟨?_, status_of_missing hl⟩
      simp [contents, Place.location, hs.2.1]
  · rcases hfinds with hl | hl <;> simp [status, resolve, hl]

theorem LinkFree.openTarget_named (h : fs.LinkFree) {p : Bytes}
    (hlong : fs.lookup p ≠ .error .ENAMETOOLONG) :
    match fs.layout.named p with
    | .name q => fs.openTarget p = .ok q
    | _ => ∃ e, fs.openTarget p = .error e := by
  have hfinds := h.finds_lookup hlong
  rcases hn : fs.layout.named p with _ | q | _ <;> rw [hn] at hfinds
  · obtain ⟨d, hl, hd⟩ := hfinds
    exact ⟨.EISDIR, by simp [openTarget, hl, hd]⟩
  · obtain ⟨pl, hl, rfl, hnot⟩ := hfinds
    cases pl with
    | found q => simp only [openTarget, hl, Place.location] at hnot ⊢; rw [if_neg hnot]
    | missing d n => simp only [openTarget, hl, Place.location]
  · rcases hfinds with hl | hl
    · exact ⟨.ENOENT, by simp [openTarget, hl]⟩
    · exact ⟨.ENOTDIR, by simp [openTarget, hl]⟩

theorem LinkFree.exists_named (h : fs.LinkFree) {p : Bytes}
    (hlong : fs.lookup p ≠ .error .ENAMETOOLONG) :
    fs.exists p = .ok ((fs.layout.named p).present fs.contents) := by
  have hr := h.resolve_named hlong
  rcases hn : fs.layout.named p with _ | q | _ <;> rw [hn] at hr
  · obtain ⟨d, hd, -⟩ := hr
    exact exists_of_resolve hd
  · obtain ⟨data, hdata, hq⟩ | ⟨hnone, hs⟩ := hr
    · rw [exists_of_resolve hq, Named.present, hdata]
      rfl
    · rw [FileSystem.exists, hs, Named.present, hnone]
      rfl
  · rw [FileSystem.exists, hr]
    rfl

theorem LinkFree.isRegularFile_named (h : fs.LinkFree) {p : Bytes}
    (hlong : fs.lookup p ≠ .error .ENAMETOOLONG) :
    fs.isRegularFile p = .ok ((fs.layout.named p).presentFile fs.contents) := by
  have hr := h.resolve_named hlong
  rcases hn : fs.layout.named p with _ | q | _ <;> rw [hn] at hr
  · obtain ⟨d, hd, hdir⟩ := hr
    rw [isRegularFile, status_of_resolve hd, hdir]
    rfl
  · obtain ⟨data, hdata, hq⟩ | ⟨hnone, hs⟩ := hr
    · rw [isRegularFile_eq_true.mpr ⟨q, data, hq, contents_eq_some.mp hdata⟩, Named.presentFile,
        hdata]
      rfl
    · rw [isRegularFile, hs, Named.presentFile, hnone]
      rfl
  · rw [isRegularFile, hr]
    rfl

theorem layout_set {q : RealPath} (hq : fs.CanSet q) (data : Bytes) :
    (fs.set q (.file data)).layout = fs.layout := by
  have hdir : ∀ p : RealPath, (fs.set q (.file data)).entries[p]? = some .dir ↔
      fs.entries[p]? = some .dir := by
    intro p
    rw [entries_set hq]
    split_ifs with hp
    · exact iff_of_false (by simp) (hp ▸ hq.2.2)
    · rfl
  simp only [layout, hdir, cwd_set]

theorem contents_set {q : RealPath} (hq : fs.CanSet q) (data : Bytes) :
    (fs.set q (.file data)).contents = Function.update fs.contents q (some data) := by
  funext p
  rw [contents, entries_set hq, Function.update_apply]
  split_ifs <;> rfl

theorem layout_remove {q : RealPath} (hq : fs.entries[q]? ≠ some .dir) :
    (fs.remove q).layout = fs.layout := by
  have hdir : ∀ p : RealPath, (fs.remove q).entries[p]? = some .dir ↔
      fs.entries[p]? = some .dir := by
    intro p
    rw [entries_remove hq]
    split_ifs with hp
    · exact iff_of_false (by simp) (hp ▸ hq)
    · rfl
  simp only [layout, hdir, cwd_remove]

theorem contents_remove {q : RealPath} (hq : fs.entries[q]? ≠ some .dir) :
    (fs.remove q).contents = Function.update fs.contents q none := by
  funext p
  rw [contents, entries_remove hq, Function.update_apply]
  split_ifs <;> rfl

end FileSystem

/-- The call in the file system: its response, if it returns, and what it leaves. -/
def serveStatic (filesRoot : Bytes) (fs : FileSystem) : StaticCall → Except Errno Bytes × FileSystem
  | .get path => (staticGet fs filesRoot path, fs)
  | .put path data overwrite =>
    let (response, fs') := staticPut fs filesRoot path data overwrite
    (.ok response, fs')
  | .delete path =>
    let (response, fs') := staticDelete fs filesRoot path
    (.ok response, fs')

def staticStep (filesRoot : Bytes) (fs : FileSystem) (call : StaticCall) : FileSystem :=
  (serveStatic filesRoot fs call).2

/-- The check admits the path. Where it looks at no path, the system calls take the path's
length; otherwise the check has seen to that. -/
structure Admits (filesRoot : Bytes) (fs : FileSystem) (call : StaticCall) : Prop where
  check : checkWithinRoot fs filesRoot call.path = .ok []
  length : filesRoot = [] → fs.lookup call.path ≠ .error .ENAMETOOLONG

variable {fs : FileSystem} {filesRoot : Bytes}

theorem Admits.lookup {call : StaticCall} (h : Admits filesRoot fs call) :
    fs.lookup call.path ≠ .error .ENAMETOOLONG := by
  by_cases h0 : filesRoot = []
  · exact h.length h0
  · -- `weakly_canonical` would have thrown
    intro hlong
    have hcheck := h.check
    have hweak : fs.weaklyCanonical call.path = .error .ENAMETOOLONG := by
      simp [weaklyCanonical, status, resolve, hlong, bind, Except.bind]
    rcases hr : fs.canonical filesRoot with e | r <;>
      simp [checkWithinRoot, h0, hr, hweak, bind, Except.bind] at hcheck

/-- What the call answers and leaves, as an operation of the map. -/
structure Refines (l : Layout) (store : Store) (call : StaticCall)
    (served : Except Errno Bytes × FileSystem) : Prop where
  response : served.1 = .ok ((l.operate store call).1.response call.path)
  linkFree : served.2.LinkFree
  layout : served.2.layout = l
  contents : served.2.contents = (l.operate store call).2

theorem staticGet_refines {path : Bytes} (hfree : fs.LinkFree)
    (h : Admits filesRoot fs (.get path)) :
    Refines fs.layout fs.contents (.get path) (serveStatic filesRoot fs (.get path)) := by
  have hcheck : checkWithinRoot fs filesRoot path = .ok [] := h.check
  have hregular := hfree.isRegularFile_named h.lookup
  have hr := hfree.resolve_named h.lookup
  simp only [StaticCall.path] at hregular hr
  refine ⟨?_, hfree, rfl, ?_⟩
  · simp only [serveStatic, staticGet, hcheck, hregular, bind, Except.bind, Layout.operate]
    rcases hn : fs.layout.named path with _ | q | _ <;> simp only [hn] at hr ⊢
    · rfl
    · obtain ⟨data, hdata, hq⟩ | ⟨hnone, -⟩ := hr
      · simp [Named.presentFile, hdata, readAll, read_of_file hq (contents_eq_some.mp hdata),
          Outcome.response, StaticCall.path, pure, Except.pure]
      · simp only [Named.presentFile, hnone]
        rfl
    · rfl
  · simp only [serveStatic, Layout.operate]
    split <;> rfl

theorem staticPut_refines {path data : Bytes} {overwrite : Bool} (hfree : fs.LinkFree)
    (h : Admits filesRoot fs (.put path data overwrite)) :
    Refines fs.layout fs.contents (.put path data overwrite)
      (serveStatic filesRoot fs (.put path data overwrite)) := by
  have hcheck : checkWithinRoot fs filesRoot path = .ok [] := h.check
  have hexists := hfree.exists_named h.lookup
  have hopen := hfree.openTarget_named h.lookup
  simp only [StaticCall.path] at hexists hopen
  -- a call that changes nothing refines an operation that changes nothing
  have hsame : ∀ o, staticPut fs filesRoot path data overwrite = (o.response path, fs) →
      fs.layout.operate fs.contents (.put path data overwrite) = (o, fs.contents) →
      Refines fs.layout fs.contents (.put path data overwrite)
        (serveStatic filesRoot fs (.put path data overwrite)) := by
    intro o hput hop
    refine ⟨?_, ?_, ?_, ?_⟩ <;> simp only [serveStatic, hput, hop, hfree, StaticCall.path]
  rcases hn : fs.layout.named path with _ | q | _ <;> simp only [hn] at hexists hopen
  · obtain ⟨e, he⟩ := hopen
    cases overwrite with
    | false =>
      apply hsame .conflict
      · simp only [staticPut, staticPutWith, tryPut, hcheck, hexists, Named.present, bind,
          Except.bind]
        rfl
      · simp [Layout.operate, hn]
    | true =>
      apply hsame .failed
      · simp only [staticPut, staticPutWith, tryPut, hcheck, hexists, Named.present, writeFile,
          he, bind, Except.bind]
        rfl
      · simp [Layout.operate, hn]
  · by_cases hmay : ((fs.contents q).isSome && !overwrite) = true
    · apply hsame .conflict
      · simp only [staticPut, staticPutWith, tryPut, hcheck, hexists, Named.present, hmay,
          bind, Except.bind]
        rfl
      · simp [Layout.operate, hn, hmay]
    · rw [Bool.not_eq_true] at hmay
      have hput : staticPut fs filesRoot path data overwrite =
          (putDone (fs.contents q).isSome, fs.set q (.file data)) :=
        staticPut_of_accepted ⟨hcheck, hexists, hmay, hopen⟩ data
      have hset := canSet_of_openTarget hopen
      refine ⟨?_, ?_, ?_, ?_⟩ <;> simp only [serveStatic, hput, Layout.operate, hn, hmay]
      · cases (fs.contents q).isSome <;> rfl
      · exact hfree.set q (by simp)
      · exact layout_set hset data
      · simp [contents_set hset data]
  · obtain ⟨e, he⟩ := hopen
    apply hsame .failed
    · simp only [staticPut, staticPutWith, tryPut, hcheck, hexists, Named.present, writeFile, he,
        bind, Except.bind]
      rfl
    · simp [Layout.operate, hn]

theorem staticDelete_refines {path : Bytes} (hfree : fs.LinkFree)
    (h : Admits filesRoot fs (.delete path)) :
    Refines fs.layout fs.contents (.delete path) (serveStatic filesRoot fs (.delete path)) := by
  have hcheck : checkWithinRoot fs filesRoot path = .ok [] := h.check
  have hexists := hfree.exists_named h.lookup
  have hregular := hfree.isRegularFile_named h.lookup
  have hr := hfree.resolve_named h.lookup
  simp only [StaticCall.path] at hexists hregular hr
  -- where there is no file the tree stays as it is
  have hsame : (fs.layout.named path).presentFile fs.contents = false →
      fs.layout.operate fs.contents (.delete path) = (.notFound, fs.contents) →
      Refines fs.layout fs.contents (.delete path) (serveStatic filesRoot fs (.delete path)) := by
    intro hfile hop
    have hdelete : staticDelete fs filesRoot path = (Outcome.notFound.response path, fs) := by
      simp only [staticDelete, tryDelete, hcheck, hexists, hregular, hfile, bind, Except.bind,
        Bool.not_false, Bool.or_true]
      rfl
    refine ⟨?_, ?_, ?_, ?_⟩ <;> simp only [serveStatic, hdelete, hop, hfree, StaticCall.path]
  rcases hn : fs.layout.named path with _ | q | _ <;> simp only [hn] at hregular hr
  · exact hsame (by rw [hn]; rfl) (by simp [Layout.operate, hn])
  · obtain ⟨data, hdata, hq⟩ | ⟨hnone, -⟩ := hr
    · have hfile := contents_eq_some.mp hdata
      have hnot : fs.entries[q]? ≠ some .dir := by simp [hfile]
      have hdelete : staticDelete fs filesRoot path = (deleteDone, fs.remove q) :=
        staticDelete_of_accepted ⟨hcheck, isRegularFile_eq_true.mpr ⟨q, data, hq, hfile⟩,
          hfree.entryPath_eq hq hfile⟩
      refine ⟨?_, ?_, ?_, ?_⟩ <;>
        simp only [serveStatic, hdelete, Layout.operate, hn, hdata, Option.isSome_some, if_true]
      · rfl
      · exact hfree.remove q
      · exact layout_remove hnot
      · exact contents_remove hnot
    · exact hsame (by rw [hn]; simp [Named.presentFile, hnone]) (by simp [Layout.operate, hn, hnone])
  · exact hsame (by rw [hn]; rfl) (by simp [Layout.operate, hn])

theorem serveStatic_refines {call : StaticCall} (hfree : fs.LinkFree)
    (h : Admits filesRoot fs call) :
    Refines fs.layout fs.contents call (serveStatic filesRoot fs call) := by
  cases call with
  | get path => exact staticGet_refines hfree h
  | put path data overwrite => exact staticPut_refines hfree h
  | delete path => exact staticDelete_refines hfree h

def Layout.operateAll (l : Layout) : Store → List StaticCall → Store :=
  Runs.run fun store call => (l.operate store call).2

theorem run_refines (hfree : fs.LinkFree) {calls : List StaticCall}
    (h : Runs.AllOk (staticStep filesRoot) (Admits filesRoot) fs calls) :
    ((Runs.run (staticStep filesRoot) fs calls).LinkFree ∧
      (Runs.run (staticStep filesRoot) fs calls).layout = fs.layout) ∧
    (Runs.run (staticStep filesRoot) fs calls).contents =
      fs.layout.operateAll fs.contents calls := by
  apply h.simulates (I := fun fs' => fs'.LinkFree ∧ fs'.layout = fs.layout) _ ⟨hfree, rfl⟩
  rintro fs' call ⟨hfree', hlayout⟩ hadmits
  have hone := serveStatic_refines hfree' hadmits
  rw [hlayout] at hone
  exact ⟨⟨hone.linkFree, hone.layout⟩, hone.contents⟩

/-- Over any sequence of admitted calls on a tree without links the store is a map from file
names to bytes: each call answers as the operation of the map on what the calls before it have
left, one that is not answered with 2xx changes nothing at all, and no call changes an entry
other than the one its path names. -/
theorem static_store_refines (hfree : fs.LinkFree) (calls : List StaticCall)
    (h : Runs.AllOk (staticStep filesRoot) (Admits filesRoot) fs calls) :
    let tree := Runs.run (staticStep filesRoot) fs
    let store := fs.layout.operateAll fs.contents
    (∀ pre, pre <+: calls → (tree pre).contents = store pre ∧ (tree pre).layout = fs.layout) ∧
    ∀ pre call, pre ++ [call] <+: calls →
      let outcome := (fs.layout.operate (store pre) call).1
      (serveStatic filesRoot (tree pre) call).1 = .ok (outcome.response call.path) ∧
      Answers (outcome.response call.path) outcome.status ∧
      (¬ (200 ≤ outcome.status ∧ outcome.status < 300) → tree (pre ++ [call]) = tree pre) ∧
      ∀ q, fs.layout.named call.path ≠ .name q →
        (tree (pre ++ [call])).entries[q]? = (tree pre).entries[q]? := by
  intro tree store
  refine ⟨fun pre hpre => ?_, fun pre call hpre => ?_⟩
  · obtain ⟨⟨-, hlayout⟩, hcontents⟩ := run_refines hfree (h.of_prefix hpre)
    exact ⟨hcontents, hlayout⟩
  intro outcome
  obtain ⟨⟨hfree', hlayout⟩, hcontents⟩ :=
    run_refines hfree (h.of_prefix ((List.prefix_append pre [call]).trans hpre))
  have hone := serveStatic_refines hfree' (h pre call hpre)
  rw [hlayout, hcontents] at hone
  have hafter : tree (pre ++ [call]) = (serveStatic filesRoot (tree pre) call).2 := Runs.run_concat
  have hl : (serveStatic filesRoot (tree pre) call).2.layout = (tree pre).layout :=
    hone.layout.trans hlayout.symm
  refine ⟨hone.response, Outcome.answers_response _ _, fun hrefused => ?_, fun q hq => ?_⟩
  · rw [hafter]
    apply hfree'.eq_of_contents hone.linkFree hl
    rw [hone.contents, Layout.operate_refused hrefused]
    exact hcontents.symm
  · rw [hafter]
    apply hfree'.entries_eq hone.linkFree hl
    rw [hone.contents, Layout.operate_other _ hq]
    exact congrFun hcontents.symm q

theorem linkFree_smallTree : smallTree.LinkFree := by
  have hset : (((FileSystem.empty.set [text "srv"] .dir).set [text "srv", text "root"] .dir).set
      [text "srv", text "root", text "a"] (.file (text "hello"))).LinkFree :=
    ((linkFree_empty.set _ (by simp)).set _ (by simp)).set _ (by simp)
  exact hset

theorem static_store_smallTree :
    (serveStatic (text "root") (Runs.run (staticStep (text "root")) smallTree
      [.put (text "root/b") (text "new") false, .put (text "root/./b") (text "other") false])
      (.get (text "root/../root/b"))).1 =
        .ok (makeResponse kHttpOk (text "new") (contentTypeFor (text "root/../root/b")) []) := by
  have hadmits : Runs.AllOk (staticStep (text "root")) (Admits (text "root")) smallTree
      [.put (text "root/b") (text "new") false, .put (text "root/./b") (text "other") false,
        .get (text "root/../root/b")] := by
    refine Runs.allOk_cons.mpr ⟨⟨by decide +kernel, by decide⟩, ?_⟩
    refine Runs.allOk_cons.mpr ⟨⟨by decide +kernel, by decide⟩, ?_⟩
    exact Runs.allOk_cons.mpr ⟨⟨by decide +kernel, by decide⟩, Runs.allOk_nil⟩
  have hget := ((static_store_refines linkFree_smallTree _ hadmits).2
    [.put (text "root/b") (text "new") false, .put (text "root/./b") (text "other") false]
    (.get (text "root/../root/b")) (List.prefix_refl _)).1
  rw [hget]
  have houtcome : (smallTree.layout.operate (smallTree.layout.operateAll smallTree.contents
      [.put (text "root/b") (text "new") false, .put (text "root/./b") (text "other") false])
      (.get (text "root/../root/b"))).1 = .content (text "new") := by decide +kernel
  rw [houtcome]
  rfl

end SemanticSearch
