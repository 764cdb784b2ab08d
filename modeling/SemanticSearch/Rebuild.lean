import SemanticSearch.EmbedRuns
import SemanticSearch.LiveIndex
import SemanticSearch.RequestSteps

namespace SemanticSearch

open FileSystem EmbedService

/-- The root of a `Path`: exactly two leading slashes are kept, more are one. -/
def pathAnchor (p : Bytes) : Bytes :=
  if [slash, slash] <+: p ∧ ¬ [slash, slash, slash] <+: p then [slash, slash]
  else if isAbsolute p then [slash]
  else []

/-- The parts of a `Path` behind its root. -/
def pathParts (p : Bytes) : List Bytes := (names p).filter (· ≠ dot)

/-- `str` of a path with the given root and parts. -/
def formatParts (anchor : Bytes) (parts : List Bytes) : Bytes :=
  if anchor = [] ∧ parts = [] then dot else anchor ++ (joined parts).tail

/-- `str(Path(p))`. -/
def pathStr (p : Bytes) : Bytes := formatParts (pathAnchor p) (pathParts p)

/-- `str(Path(root) / a / b)`. -/
def pathChild (root : Bytes) (q : RealPath) : Bytes :=
  formatParts (pathAnchor root) (pathParts root ++ q)

/-- The names that `Path(root).rglob("*")` gives to the locations `below` the root at `r`. -/
def childPaths (root : Bytes) (r : RealPath) (below : List RealPath) : List Bytes :=
  below.map fun t => pathChild root (t.drop r.length)

/-- `[p for p in Path(root).rglob("*") if p.is_file()]`. -/
def rglobFiles (fs : FileSystem) (root : Bytes) : List Bytes :=
  match fs.resolve (pathStr root) with
  | .error _ => []
  | .ok r => (childPaths root r (fs.below r)).filter fun p => fs.isRegularFile p = .ok true

variable {C R ι : Type}

/-- `SEARCH_ROOT`, the decoding of a text file and the model. -/
structure EmbedConfig (C R : Type) where
  search_root : Bytes
  decode : Bytes → List C
  encode : List C → R

inductive RebuildPhase (C R : Type)
  | waiting
  | listed (docs : List (Bytes × List C))
  | embedded (ids : List Bytes) (vecs : List R)
  | swapped
  | finished
  deriving DecidableEq, Repr

structure Embedder (C R : Type) where
  service : Service Bytes R := {}
  rebuild : RebuildPhase C R := .waiting

/-- The files that can be read, with their texts. -/
def readDocs (readText : Bytes → Option (List C)) (files : List Bytes) : List (Bytes × List C) :=
  files.filterMap fun fpath => (readText fpath).map fun text => (fpath, text)

namespace EmbedConfig

/-- `fpath.read_text(errors="replace")`. -/
def readText (cfg : EmbedConfig C R) (fs : FileSystem) (fpath : Bytes) : Option (List C) :=
  (fs.read fpath).map cfg.decode

/-- The next step of the rebuild. The encoder's answer for no texts at all has no rows to add,
which raises before the swap. -/
def rebuildStep (cfg : EmbedConfig C R) (fs : FileSystem) (v : Embedder C R) : Embedder C R :=
  match v.rebuild with
  | .waiting =>
    let files := rglobFiles fs cfg.search_root
    if files = [] then { v with rebuild := .finished }
    else { v with rebuild := .listed (readDocs (cfg.readText fs) files) }
  | .listed docs =>
    if docs = [] then { v with rebuild := .finished }
    else
      let (ids, vecs) := embedAll cfg.encode docs
      { v with rebuild := .embedded ids vecs }
  | .embedded ids vecs =>
    { service := { v.service with stores := swapIn ids vecs }, rebuild := .swapped }
  | .swapped =>
    { service := { v.service with cache := saveIndex v.service.stores }, rebuild := .finished }
  | .finished => v

section Steps

variable {cfg : EmbedConfig C R} {fs : FileSystem} {v : Embedder C R}

theorem rebuildStep_noFiles (hv : v.rebuild = .waiting)
    (hfiles : rglobFiles fs cfg.search_root = []) :
    cfg.rebuildStep fs v = { v with rebuild := .finished } := by
  simp [rebuildStep, hv, hfiles]

theorem rebuildStep_files (hv : v.rebuild = .waiting)
    (hfiles : rglobFiles fs cfg.search_root ≠ []) :
    cfg.rebuildStep fs v =
      { v with rebuild := .listed (readDocs (cfg.readText fs) (rglobFiles fs cfg.search_root)) } := by
  simp [rebuildStep, hv, hfiles]

theorem rebuildStep_listed {docs : List (Bytes × List C)} (hv : v.rebuild = .listed docs)
    (hdocs : docs ≠ []) :
    cfg.rebuildStep fs v = { v with
      rebuild := .embedded (embedAll cfg.encode docs).1 (embedAll cfg.encode docs).2 } := by
  simp [rebuildStep, hv, hdocs]

theorem rebuildStep_embedded {ids : List Bytes} {vecs : List R}
    (hv : v.rebuild = .embedded ids vecs) :
    cfg.rebuildStep fs v =
      { service := { v.service with stores := swapIn ids vecs }, rebuild := .swapped } := by
  simp [rebuildStep, hv]

theorem rebuildStep_swapped (hv : v.rebuild = .swapped) :
    cfg.rebuildStep fs v =
      { service := { v.service with cache := saveIndex v.service.stores },
        rebuild := .finished } := by
  simp [rebuildStep, hv]

theorem rebuildStep_finished (hv : v.rebuild = .finished) : cfg.rebuildStep fs v = v := by
  simp [rebuildStep, hv]

end Steps

def kTextLimit : ℕ := 2048

end EmbedConfig

theorem plainName_pathParts {p : Bytes} : ∀ n ∈ pathParts p, PlainName n := by
  intro n hn
  exact plainName_of_mem_names (List.mem_filter.mp hn).1

theorem pathAnchor_cases (p : Bytes) :
    pathAnchor p = [] ∨ pathAnchor p = [slash] ∨ pathAnchor p = [slash, slash] := by
  unfold pathAnchor
  split_ifs <;> simp

theorem components_formatParts {anchor : Bytes} {parts : List Bytes}
    (ha : anchor = [] ∨ anchor = [slash] ∨ anchor = [slash, slash])
    (hp : ∀ n ∈ parts, PlainName n) (h0 : parts ≠ []) :
    components (formatParts anchor parts) = parts := by
  obtain ⟨n, ps, rfl⟩ := List.exists_cons_of_ne_nil h0
  have htail : slash :: (joined (n :: ps)).tail = joined (n :: ps) := rfl
  have hnames : names (joined (n :: ps)).tail = n :: ps := by
    rw [← names_slash_cons, htail]
    simpa using names_append_joined [] hp
  have hne : (joined (n :: ps)).tail ≠ [] := by
    intro h
    rw [h, names_nil] at hnames
    simp at hnames
  have hlast : (joined (n :: ps)).tail.getLast? ≠ some slash := by
    have := getLast?_joined hp
    rwa [← htail, List.getLast?_cons_of_ne_nil hne] at this
  have hfull : names (anchor ++ (joined (n :: ps)).tail) = n :: ps := by
    rcases ha with rfl | rfl | rfl
    · exact hnames
    · rw [List.singleton_append, names_slash_cons, hnames]
    · rw [List.cons_append, List.singleton_append, names_slash_cons, names_slash_cons, hnames]
  rw [formatParts, if_neg (by simp), components, hfull, List.getLast?_append_of_ne_nil _ hne,
    if_neg hlast, List.append_nil]

theorem isAbsolute_formatParts {anchor : Bytes} {parts : List Bytes}
    (ha : anchor = [] ∨ anchor = [slash] ∨ anchor = [slash, slash])
    (hp : ∀ n ∈ parts, PlainName n) :
    isAbsolute (formatParts anchor parts) = decide (anchor ≠ []) := by
  rcases ha with rfl | rfl | rfl
  · cases parts with
    | nil => decide
    | cons n ps =>
      obtain ⟨hn0, hslash⟩ := hp n List.mem_cons_self
      obtain ⟨c, cs, rfl⟩ := List.exists_cons_of_ne_nil hn0
      have hc : c ≠ slash := by
        rintro rfl
        simp at hslash
      simp [formatParts, isAbsolute, hc]
  · simp [formatParts, isAbsolute]
  · simp [formatParts, isAbsolute]

theorem zero_notMem_formatParts {anchor : Bytes} {parts : List Bytes}
    (ha : anchor = [] ∨ anchor = [slash] ∨ anchor = [slash, slash])
    (hp : ∀ n ∈ parts, (0 : Byte) ∉ n) : (0 : Byte) ∉ formatParts anchor parts := by
  have htail : (0 : Byte) ∉ (joined parts).tail := by
    intro h
    obtain ⟨n, hn, h0⟩ := List.mem_flatMap.mp (List.mem_of_mem_tail h)
    cases List.mem_cons.mp h0 with
    | inl h0 => exact absurd h0 (by decide)
    | inr h0 => exact hp n hn h0
  unfold formatParts
  split_ifs
  · decide
  · rcases ha with rfl | rfl | rfl <;> simp [htail] <;> decide

variable {fs fs' : FileSystem} {root : Bytes} {r q : RealPath}

theorem zero_notMem_pathParts (hz : (0 : Byte) ∉ root) : ∀ n ∈ pathParts root, (0 : Byte) ∉ n := by
  intro n hn h0
  have hname := (List.mem_filter.mp (List.mem_filter.mp hn).1).1
  exact hz (mem_of_mem_splitOn hname h0).1

theorem components_pathChild (root : Bytes) (hq : q ≠ []) (hp : ∀ n ∈ q, PlainName n) :
    components (pathChild root q) = pathParts root ++ q := by
  apply components_formatParts (pathAnchor_cases root)
  · intro n hn
    cases List.mem_append.mp hn with
    | inl hn => exact plainName_pathParts n hn
    | inr hn => exact hp n hn
  · simp [hq]

theorem pathChild_injective (root : Bytes) {q q' : RealPath} (hq : q ≠ []) (hq' : q' ≠ [])
    (hp : ∀ n ∈ q, PlainName n) (hp' : ∀ n ∈ q', PlainName n)
    (h : pathChild root q = pathChild root q') : q = q' := by
  have hc := components_pathChild root hq hp
  rw [h, components_pathChild root hq' hp'] at hc
  exact (List.append_cancel_left hc).symm

/-- `root`, which holds no NUL as Python wants it, is a directory of a tree without links. -/
structure SearchRoot (fs : FileSystem) (root : Bytes) (r : RealPath) : Prop
    extends RootedTree fs (pathStr root) r where
  zero : (0 : Byte) ∉ root

theorem SearchRoot.changed (h : SearchRoot fs root r) (hc : ChangedAt fs fs' q) :
    SearchRoot fs' root r := ⟨h.toRootedTree.changed hc, h.zero⟩

theorem SearchRoot.leadsBelow_pathChild (h : SearchRoot fs root r) (hq : q ≠ [])
    (hv : ∀ n ∈ q, ValidName n) :
    LeadsBelow fs r (pathChild root q) q where
  zero := by
    apply zero_notMem_formatParts (pathAnchor_cases root)
    intro n hn
    cases List.mem_append.mp hn with
    | inl hn => exact zero_notMem_pathParts h.zero n hn
    | inr hn => exact (hv n hn).2.2.2.1
  way := by
    refine ⟨pathParts root, components_pathChild root hq fun n hn => (hv n hn).1, ?_⟩
    have hplain : ∀ n ∈ pathParts root ++ q, PlainName n := by
      intro n hn
      cases List.mem_append.mp hn with
      | inl hn => exact plainName_pathParts n hn
      | inr hn => exact (hv n hn).1
    -- `pathlib` keeps the anchor, so both lookups begin at the same directory
    have hstart : fs.startDir (pathChild root q) = fs.startDir (pathStr root) := by
      simp only [startDir, pathChild, pathStr, isAbsolute_formatParts (pathAnchor_cases root) hplain,
        isAbsolute_formatParts (pathAnchor_cases root) plainName_pathParts]
    have hlook := resolve_eq_ok.mp h.resolve
    have hzero : (0 : Byte) ∉ pathStr root :=
      zero_notMem_formatParts (pathAnchor_cases root) (zero_notMem_pathParts h.zero)
    simp only [lookup, cStr_eq_self hzero] at hlook
    split_ifs at hlook
    rw [hstart]
    change walkFrom fs (walkLinks fs 39) (fs.startDir (pathStr root)) (components (pathStr root)) = _
      at hlook
    by_cases h0 : pathParts root = []
    · -- the root is `.` or `/`
      have hdot : components (pathStr root) = [dot] := by
        rw [pathStr, h0]
        rcases pathAnchor_cases root with ha | ha | ha <;> rw [ha] <;> decide
      rw [hdot] at hlook
      rw [h0]
      have hlast : walkFrom fs (walkLinks fs 39) (fs.startDir (pathStr root)) ([] ++ [dot]) =
          .ok (.found r) := hlook
      exact h.linkFree.walkFrom_dot hlast
    · rwa [pathStr, components_formatParts (pathAnchor_cases root) plainName_pathParts h0] at hlook

theorem SearchRoot.openTarget_pathChild (h : SearchRoot fs root r) (hq : q ≠ [])
    (hv : ∀ n ∈ q, ValidName n) {t : RealPath} (ht : fs.openTarget (pathChild root q) = .ok t) :
    t = r ++ q := by
  obtain ⟨pl, hl, rfl⟩ := location_of_openTarget ht
  exact (h.leadsBelow_pathChild hq hv).location h.linkFree h.dir hq hv hl

theorem SearchRoot.mem_rglobFiles (h : SearchRoot fs root r)
    {path : Bytes} : path ∈ rglobFiles fs root ↔ ∃ q data, q ≠ [] ∧ path = pathChild root q ∧
      path.length < pathMax ∧ fs.entries[r ++ q]? = some (.file data) := by
  simp only [rglobFiles, childPaths, h.resolve, List.mem_filter, List.mem_map, decide_eq_true_eq]
  constructor
  · intro ⟨⟨p, hp, hpath⟩, hreg⟩
    obtain ⟨⟨q, rfl⟩, hne, he⟩ := mem_below.mp hp
    rw [List.drop_left] at hpath
    have hq : q ≠ [] := by
      intro h0
      simp [h0] at hne
    obtain ⟨e, he⟩ := Option.ne_none_iff_exists'.mp he
    have hv : ∀ n ∈ q, ValidName n := fun n hn => validName_of_mem he n (by simp [hn])
    obtain ⟨t, data, ht, hd⟩ := isRegularFile_eq_true.mp hreg
    rw [← hpath] at ht ⊢
    have hbelow := h.leadsBelow_pathChild hq hv
    have hloc := hbelow.location h.linkFree h.dir hq hv (resolve_eq_ok.mp ht)
    refine ⟨q, data, hq, rfl, ?_, by rwa [← hloc]⟩
    -- the lookup of a longer name fails
    by_contra hlong
    have hl := hbelow.lookup h.linkFree h.dir hq
    rw [if_pos (by omega), resolve_eq_ok.mp ht] at hl
    simp at hl
  · intro ⟨q, data, hq, hpath, hlen, hd⟩
    have hv : ∀ n ∈ q, ValidName n := fun n hn => validName_of_mem hd n (by simp [hn])
    refine ⟨⟨r ++ q, ?_, by rw [List.drop_left, hpath]⟩, ?_⟩
    · exact mem_below.mpr ⟨List.prefix_append r q, by simpa using hq, by simp [hd]⟩
    · apply isRegularFile_eq_true.mpr
      refine ⟨r ++ q, data, ?_, hd⟩
      rw [hpath] at hlen ⊢
      rw [(h.leadsBelow_pathChild hq hv).resolve h.linkFree h.dir hd, if_neg (by omega)]

theorem nodup_childPaths (fs : FileSystem) (root : Bytes) (r : RealPath) :
    (childPaths root r (fs.below r)).Nodup := by
  refine List.Nodup.map_on ?_ (Std.ExtTreeMap.nodup_keys.filter _)
  intro p hp p' hp' hpath
  obtain ⟨⟨q, rfl⟩, hne, he⟩ := mem_below.mp hp
  obtain ⟨⟨q', rfl⟩, hne', he'⟩ := mem_below.mp hp'
  rw [List.drop_left, List.drop_left] at hpath
  have hplain := plainName_drop (r := r) he
  have hplain' := plainName_drop (r := r) he'
  rw [List.drop_left] at hplain hplain'
  rw [pathChild_injective root (by rintro rfl; simp at hne) (by rintro rfl; simp at hne') hplain
    hplain' hpath]

theorem nodup_rglobFiles (fs : FileSystem) (root : Bytes) : (rglobFiles fs root).Nodup := by
  unfold rglobFiles
  rcases fs.resolve (pathStr root) with e | r
  · exact List.nodup_nil
  · exact (nodup_childPaths fs root r).filter _

theorem SearchRoot.rglobFiles_off (h : SearchRoot fs root r)
    (hc : ChangedAt fs fs' (r ++ q)) {path : Bytes} (hpath : path ≠ pathChild root q) :
    path ∈ rglobFiles fs' root ↔ path ∈ rglobFiles fs root := by
  rw [h.mem_rglobFiles, (h.changed hc).mem_rglobFiles]
  apply exists_congr
  intro q'
  apply exists_congr
  intro data
  by_cases hq : q' = q
  · subst hq
    simp [hpath]
  · rw [hc.off (r ++ q') (by simpa using hq)]

theorem ids_readDocs_sublist (readText : Bytes → Option (List C)) (files : List Bytes) :
    ((readDocs readText files).map Prod.fst).Sublist files := by
  unfold readDocs
  induction files with
  | nil => simp
  | cons p files ih =>
    rw [List.filterMap_cons]
    rcases readText p with _ | x
    · exact ih.cons p
    · exact ih.cons_cons p

theorem EmbedConfig.ids_readDocs (cfg : EmbedConfig C R) (fs : FileSystem) (root : Bytes) :
    (readDocs (cfg.readText fs) (rglobFiles fs root)).map Prod.fst = rglobFiles fs root := by
  have hread : ∀ p ∈ rglobFiles fs root, ∃ data, fs.read p = some data := by
    intro p hp
    have hreg : fs.isRegularFile p = .ok true := by
      unfold rglobFiles at hp
      rcases hr : fs.resolve (pathStr root) with e | r <;> simp only [hr] at hp
      · simp at hp
      · simpa using (List.mem_filter.mp hp).2
    obtain ⟨t, data, ht, hd⟩ := isRegularFile_eq_true.mp hreg
    exact ⟨data, read_of_file ht hd⟩
  unfold readDocs
  generalize rglobFiles fs root = files at hread ⊢
  induction files with
  | nil => rfl
  | cons p files ih =>
    rw [List.forall_mem_cons] at hread
    obtain ⟨data, hdata⟩ := hread.1
    rw [List.filterMap_cons, EmbedConfig.readText, hdata]
    simp only [Option.map_some, List.map_cons]
    rw [ih hread.2]

theorem EmbedConfig.readDocs_ne_nil (cfg : EmbedConfig C R) (h : rglobFiles fs root ≠ []) :
    readDocs (cfg.readText fs) (rglobFiles fs root) ≠ [] := by
  intro h0
  apply h
  rw [← cfg.ids_readDocs, h0]
  rfl

end SemanticSearch
