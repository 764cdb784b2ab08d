import SemanticSearch.InvertedIndex

namespace SemanticSearch

def DirEntry.regular (e : DirEntry) : Bool :=
  match e.isRegularFile with
  | .ok b => b
  | .error _ => false

/-- The paths of the regular files a walk of `root` meets. -/
def FileView.regularFiles (files : FileView) (root : Bytes) : List Bytes :=
  match files.walk root with
  | .ok es => (es.filter DirEntry.regular).map DirEntry.path
  | .error _ => []

namespace InvertedIndex

/-- The readable regular files under `root`. -/
def snapshotsOf (files : FileView) (root : Bytes) : Snapshots := fun path =>
  if path ∈ files.regularFiles root then files.read path else none

theorem IndexOf.buildEntry {files : FileView} {m_count m_count' : InvertedIndex} {S : Snapshots}
    {p : DirEntry} (h : IndexOf m_count S) (hp : S p.path = none)
    (hb : buildEntry files m_count p = .ok m_count') :
    IndexOf m_count' (Function.update S p.path (if p.regular then files.read p.path else none)) := by
  have hsame : Function.update S p.path none = S := by rw [← hp, Function.update_eq_self]
  rcases hr : p.isRegularFile with e | _ | _
  · simp only [InvertedIndex.buildEntry, hr] at hb
    cases hb
  · simp only [InvertedIndex.buildEntry, hr] at hb
    cases hb
    simpa [DirEntry.regular, hr, hsame] using h
  · rcases hf : files.read p.path with _ | content
    · simp only [InvertedIndex.buildEntry, hr, hf] at hb
      cases hb
      simpa [DirEntry.regular, hr, hsame] using h
    · simp only [InvertedIndex.buildEntry, hr, hf] at hb
      cases hb
      simpa [DirEntry.regular, hr] using h.countLines hp content

theorem IndexOf.foldlM_buildEntry {files : FileView} {es : List DirEntry}
    {m_count m_count' : InvertedIndex} {S : Snapshots} (h : IndexOf m_count S)
    (hes : (es.map DirEntry.path).Nodup) (hS : ∀ p ∈ es, S p.path = none)
    (hb : es.foldlM (InvertedIndex.buildEntry files) m_count = .ok m_count') :
    IndexOf m_count' fun path =>
      if path ∈ (es.filter DirEntry.regular).map DirEntry.path then files.read path else S path := by
  induction es generalizing m_count S with
  | nil =>
    cases hb
    simpa using h
  | cons p es ih =>
    rw [List.map_cons, List.nodup_cons] at hes
    rw [List.foldlM_cons] at hb
    rcases he : InvertedIndex.buildEntry files m_count p with e | m
    · rw [he] at hb
      cases hb
    · rw [he] at hb
      have hp := h.buildEntry (hS p List.mem_cons_self) he
      -- the walk yields no path twice, so the later entries are as they were
      have hne : ∀ p' ∈ es, p'.path ≠ p.path := fun p' hp' hc =>
        hes.1 (hc ▸ List.mem_map_of_mem hp')
      have hrest := ih hp hes.2 (fun p' hp' => by
        rw [Function.update_of_ne (hne p' hp')]
        exact hS p' (List.mem_cons_of_mem _ hp')) hb
      have hfun : ∀ path : Bytes,
          (if path ∈ (es.filter DirEntry.regular).map DirEntry.path then files.read path
            else Function.update S p.path (if p.regular then files.read p.path else none) path) =
          if path ∈ ((p :: es).filter DirEntry.regular).map DirEntry.path then files.read path
            else S path := by
        intro path
        rcases eq_or_ne path p.path with rfl | hpath
        · have hnot : p.path ∉ (es.filter DirEntry.regular).map DirEntry.path := fun hm => by
            obtain ⟨p', hp', hc⟩ := List.mem_map.mp hm
            exact hne p' (List.mem_filter.mp hp').1 hc
          by_cases hr : p.regular <;> simp [hnot, hr, hS p List.mem_cons_self]
        · have hmem : path ∈ ((p :: es).filter DirEntry.regular).map DirEntry.path ↔
              path ∈ (es.filter DirEntry.regular).map DirEntry.path := by
            by_cases hr : p.regular <;> simp [hr, hpath]
          simp only [hmem, Function.update_of_ne hpath]
      rwa [funext hfun] at hrest

theorem indexOf_build {files : FileView} {root : Bytes} {m_count : InvertedIndex}
    (h : build files root = .ok m_count) : IndexOf m_count (snapshotsOf files root) := by
  unfold build at h
  rcases hw : files.walk root with e | es
  · rw [hw] at h
    cases h
  · rw [hw] at h
    have hfold := indexOf_empty.foldlM_buildEntry (files.walk_nodup root es hw)
      (fun _ _ => rfl) h
    unfold snapshotsOf FileView.regularFiles
    rw [hw]
    exact hfold

inductive Op
  | build (root : Bytes)
  | addFile (path : Bytes)
  | removeFile (path : Bytes)
  deriving DecidableEq, Repr

def Op.apply (files : FileView) (m_count : InvertedIndex) : Op → Except Errno InvertedIndex
  | .build root => InvertedIndex.build files root
  | .addFile path => .ok (InvertedIndex.addFile files path m_count)
  | .removeFile path => .ok (InvertedIndex.removeFile path m_count)

/-- What an operation does to the contents last indexed. -/
def Op.snapshots (files : FileView) (S : Snapshots) : Op → Snapshots
  | .build root => snapshotsOf files root
  | .addFile path => Function.update S path (files.read path)
  | .removeFile path => Function.update S path none

/-- Each operation with the files as they are when it runs. -/
def run (ops : List (FileView × Op)) (m_count : InvertedIndex) : Except Errno InvertedIndex :=
  ops.foldlM (fun m op => op.2.apply op.1 m) m_count

def runSnapshots (ops : List (FileView × Op)) (S : Snapshots) : Snapshots :=
  ops.foldl (fun S op => op.2.snapshots op.1 S) S

theorem IndexOf.apply {files : FileView} {m_count m_count' : InvertedIndex} {S : Snapshots}
    (h : IndexOf m_count S) (op : Op) (ha : op.apply files m_count = .ok m_count') :
    IndexOf m_count' (op.snapshots files S) := by
  cases op with
  | build root => exact indexOf_build ha
  | addFile path =>
    cases ha
    exact h.addFile files path
  | removeFile path =>
    cases ha
    exact h.removeFile path

theorem IndexOf.run {ops : List (FileView × Op)} {m_count m_count' : InvertedIndex} {S : Snapshots}
    (h : IndexOf m_count S) (hr : run ops m_count = .ok m_count') :
    IndexOf m_count' (runSnapshots ops S) := by
  induction ops generalizing m_count S with
  | nil =>
    cases hr
    exact h
  | cons op ops ih =>
    simp only [InvertedIndex.run, List.foldlM_cons] at hr
    rcases ha : op.2.apply op.1 m_count with e | m
    · rw [ha] at hr
      cases hr
    · rw [ha] at hr
      exact ih (h.apply op.2 ha) hr

/-- After any run from the empty index, a cell is there exactly for the words of the
snapshots, holds their positive number of occurrences, and no word has an empty inner map. -/
theorem run_exact (ops : List (FileView × Op)) (m_count : InvertedIndex)
    (h : run ops ∅ = .ok m_count) :
    (∀ w f, (m_count.cell w f).isSome ↔
      ∃ content, runSnapshots ops (fun _ => none) f = some content ∧ w ∈ tokenize content) ∧
    (∀ w f n, m_count.cell w f = some n →
      ∃ content, runSnapshots ops (fun _ => none) f = some content ∧
        n = (tokenize content).count w ∧ 0 < n) ∧
    ∀ w : Bytes, m_count[w]? ≠ some (∅ : Std.ExtTreeMap Bytes ℕ) := by
  obtain ⟨hcell, hpruned⟩ := indexOf_empty.run h
  refine ⟨fun w f => ?_, fun w f n hn => ?_, hpruned⟩
  · rw [hcell]
    rcases hf : runSnapshots ops (fun _ => none) f with _ | content
    · simp [occurrences, hf]
    · have hcount : (tokenize content).count w = 0 ↔ w ∉ tokenize content := List.count_eq_zero
      by_cases hw : w ∈ tokenize content <;> simp [occurrences, hf, hcount, hw]
  · rw [hcell] at hn
    rcases hf : runSnapshots ops (fun _ => none) f with _ | content
    · simp [occurrences, hf] at hn
    · simp only [occurrences, hf, Option.ite_none_left_eq_some, Option.some.injEq] at hn
      exact ⟨content, rfl, hn.2.symm, by omega⟩

def oneFile : FileView where
  walk _ := .ok [⟨text "r/a", .ok true⟩]
  read path := if path = text "r/a" then some (text "Hat, hat") else none
  walk_nodup := by
    rintro root es ⟨⟩
    simp

def grownTree : FileView where
  walk _ := .ok [⟨text "r/a", .ok true⟩, ⟨text "r/b", .ok true⟩]
  read path :=
    if path = text "r/a" then some (text "Hat, hat")
    else if path = text "r/b" then some (text "cap, hat")
    else none
  walk_nodup := by
    rintro root es ⟨⟩
    decide

def addThenRemove : List (FileView × Op) :=
  [(oneFile, .build (text "r")), (grownTree, .addFile (text "r/b")),
    (grownTree, .removeFile (text "r/a"))]

theorem run_exact_addThenRemove :
    ∃ m_count, run addThenRemove ∅ = .ok m_count ∧
      (m_count.cell (text "hat") (text "r/b")).isSome ∧
      ¬ (m_count.cell (text "hat") (text "r/a")).isSome := by
  have hcells := (run_exact addThenRemove _ rfl).1 (text "hat")
  refine ⟨_, rfl, (hcells (text "r/b")).mpr ⟨text "cap, hat", by decide, by decide⟩, fun h => ?_⟩
  obtain ⟨content, hcontent, -⟩ := (hcells (text "r/a")).mp h
  have hgone : runSnapshots addThenRemove (fun _ => none) (text "r/a") = none := by decide
  rw [hgone] at hcontent
  cases hcontent

end InvertedIndex
end SemanticSearch
