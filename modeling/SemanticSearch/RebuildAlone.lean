import SemanticSearch.Rebuild
import SemanticSearch.Restart

namespace SemanticSearch

open FileSystem EmbedService

variable {C R : Type}

namespace FileSystem

/-- The directories in which `walkFrom` looks a component up. -/
def searchedFrom (fs : FileSystem) (follow : RealPath → List Bytes → List RealPath) :
    RealPath → List Bytes → List RealPath
  | _, [] => []
  | cur, c :: cs =>
    cur ::
      if c = dot then searchedFrom fs follow cur cs
      else if c = dotdot then searchedFrom fs follow cur.dropLast cs
      else if nameMax < c.length then []
      else match fs.entries[cur ++ [c]]? with
        | some .dir => searchedFrom fs follow (cur ++ [c]) cs
        | some (.link t) =>
          let s := cStr t
          if s = [] then [] else follow (if isAbsolute s then [] else cur) (components s ++ cs)
        | _ => []

def searchedLinks (fs : FileSystem) : ℕ → RealPath → List Bytes → List RealPath
  | 0 => searchedFrom fs fun _ _ => []
  | k + 1 => searchedFrom fs (searchedLinks fs k)

/-- The directories that a lookup of `p` searches. -/
def searched (fs : FileSystem) (p : Bytes) : List RealPath :=
  let s := cStr p
  if s = [] ∨ pathMax ≤ s.length then []
  else searchedLinks fs linkMax (fs.startDir s) (components s)

end FileSystem

/-- A tree with the modes that the service meets: files that it cannot open, directories that it
cannot list and directories that it cannot search. -/
structure Tree where
  fs : FileSystem
  unreadable : RealPath → Bool
  unlisted : RealPath → Bool
  unsearchable : RealPath → Bool

namespace Tree

/-- The lookup of `p` meets a directory that may not be searched. -/
def denied (tree : Tree) (p : Bytes) : Bool := (tree.fs.searched p).any tree.unsearchable

/-- The directory `q` below the root at `r` can be listed under the name that the walk has for it. -/
def lists (tree : Tree) (root : Bytes) (r q : RealPath) : Bool :=
  !tree.unlisted (r ++ q) && !tree.denied (pathChild root q)

/-- The walk comes to the entry `q` below the root: every directory above it can be listed. -/
def shows (tree : Tree) (root : Bytes) (r q : RealPath) : Bool :=
  q.inits.dropLast.all (tree.lists root r)

end Tree

/-- What the libraries decide: the order of a directory, whether `pathlib` raises where a lookup is
denied or a name is too long, and whether the encoding of no texts at all can be added to an
index. -/
structure Libraries (C R : Type) where
  order : List RealPath → List RealPath
  order_perm : ∀ l, (order l).Perm l
  raises : Bool
  addsNoRows : Bool
  decode : Bytes → List C
  encode : List C → R

namespace Libraries

/-- An `OSError` that is no answer: it is raised, or `pathlib` goes on without. -/
def failing {α : Type} (lib : Libraries C R) (e : Errno) (a : α) : Except Errno α :=
  if lib.raises then .error e else .ok a

/-- `p.is_file()`. -/
def isFile (lib : Libraries C R) (tree : Tree) (p : Bytes) : Except Errno Bool :=
  if tree.denied p then lib.failing .EACCES false
  else match tree.fs.isRegularFile p with
    | .ok b => .ok b
    | .error .ENAMETOOLONG => lib.failing .ENAMETOOLONG false
    | .error _ => .ok false

/-- `Path(root).rglob("*")`, empty where the root is no directory. It passes over a directory that
cannot be listed. -/
def rglob (lib : Libraries C R) (tree : Tree) (root : Bytes) : Except Errno (List Bytes) :=
  if (0 : Byte) ∈ root then .ok []
  else if tree.denied (pathStr root) then lib.failing .EACCES []
  else match tree.fs.resolve (pathStr root) with
    | .ok r => .ok (childPaths root r ((lib.order (tree.fs.below r)).filter fun t =>
        tree.shows root r (t.drop r.length)))
    | .error .ENAMETOOLONG => lib.failing .ENAMETOOLONG []
    | .error _ => .ok []

/-- `[p for p in paths if p.is_file()]`. -/
def filterFiles (lib : Libraries C R) (tree : Tree) : List Bytes → Except Errno (List Bytes)
  | [] => .ok []
  | p :: paths => do
    let is_file ← lib.isFile tree p
    let files ← lib.filterFiles tree paths
    return if is_file then p :: files else files

/-- `fpath.read_text(errors="replace")`, nothing where it raises. -/
def readText (lib : Libraries C R) (tree : Tree) (fpath : Bytes) : Option (List C) :=
  if tree.denied fpath then none
  else match tree.fs.resolve fpath with
    | .error _ => none
    | .ok t => if tree.unreadable t then none else (tree.fs.read fpath).map lib.decode

/-- `_rebuild_bg`. An exception ends its thread. -/
def rebuildBg (lib : Libraries C R) (tree : Tree) (root : Bytes) (s : Service Bytes R) :
    Service Bytes R :=
  match lib.rglob tree root >>= lib.filterFiles tree with
  | .error _ => s
  | .ok files =>
    if files = [] then s
    else
      let docs := readDocs (lib.readText tree) files
      if docs = [] ∧ lib.addsNoRows = false then s
      else
        let (ids, vecs) := embedAll lib.encode docs
        { stores := swapIn ids vecs, cache := saveIndex (swapIn ids vecs) }

end Libraries

/-- The rebuild's name for an entry `q` below the root at `r`. -/
structure IsEntryAt (fs : FileSystem) (root : Bytes) (r q : RealPath) (p : Bytes) : Prop where
  noZero : (0 : Byte) ∉ root
  rootFound : fs.resolve (pathStr root) = .ok r
  below : q ≠ []
  entry : fs.entries[r ++ q]? ≠ none
  name : p = pathChild root q

/-- A regular file below the root that can be read, and its text. -/
def IsDocument (lib : Libraries C R) (tree : Tree) (root p : Bytes) (text : List C) : Prop :=
  (∃ r q, IsEntryAt tree.fs root r q p) ∧ tree.denied p = false ∧
    ∃ t data, tree.fs.resolve p = .ok t ∧ tree.fs.entries[t]? = some (.file data) ∧
      tree.unreadable t = false ∧ text = lib.decode data

def IsListed (tree : Tree) (root p : Bytes) : Prop :=
  tree.denied (pathStr root) = false ∧
    ∃ r q, IsEntryAt tree.fs root r q p ∧ tree.shows root r q = true

/-- A regular file to which the walk comes. -/
def IsFileBelow (tree : Tree) (root p : Bytes) : Prop :=
  IsListed tree root p ∧ tree.denied p = false ∧ tree.fs.isRegularFile p = .ok true

/-- The service holds exactly the documents, and so it does when it is started again. -/
def Installed (lib : Libraries C R) (tree : Tree) (root : Bytes) (s : Service Bytes R) : Prop :=
  (∃ docs, Holds lib.encode s.stores docs ∧
    ∀ p text, (p, text) ∈ docs ↔ IsDocument lib tree root p text) ∧
  (lifespan s.cache).1 = s.stores

/-- The lookup of a name is denied, or the name is too long. -/
def Tree.Fails (tree : Tree) (p : Bytes) : Prop :=
  tree.denied p = true ∨ tree.fs.resolve p = .error .ENAMETOOLONG

/-- No name of the walk makes `pathlib` raise. -/
def WalkEnds (lib : Libraries C R) (tree : Tree) (root : Bytes) : Prop :=
  lib.raises = true → ((0 : Byte) ∈ root ∨ ¬ tree.Fails (pathStr root)) ∧
    ∀ p, IsListed tree root p → ¬ tree.Fails p

section Walk

variable {lib : Libraries C R} {tree : Tree} {root : Bytes}

theorem isFile_of_not_fails {p : Bytes} (h : lib.raises = true → ¬ tree.Fails p) :
    lib.isFile tree p =
      .ok (decide (tree.denied p = false ∧ tree.fs.isRegularFile p = .ok true)) := by
  rw [Libraries.isFile]
  by_cases hd : tree.denied p = true
  · have hlib : ¬ lib.raises = true := fun hlib => h hlib (Or.inl hd)
    simp [hd, Libraries.failing, hlib]
  rw [if_neg hd]
  rw [Bool.not_eq_true] at hd
  rcases hr : tree.fs.resolve p with e | q
  · have hfile : tree.fs.isRegularFile p = .ok false ∨ tree.fs.isRegularFile p = .error e := by
      cases e <;> simp [isRegularFile, status, hr, bind, Except.bind, pure, Except.pure]
    rcases hfile with hfile | hfile
    · simp [hfile]
    · rw [hfile]
      cases e with
      | ENAMETOOLONG =>
        have hlib : ¬ lib.raises = true := fun hlib => h hlib (Or.inr hr)
        simp [Libraries.failing, hlib]
      | _ => simp
  · obtain ⟨b, hb⟩ : ∃ b, tree.fs.isRegularFile p = .ok b := by
      simp only [isRegularFile, status, hr, bind, Except.bind]
      rcases tree.fs.entries[q]? with _ | ⟨data | _ | t⟩ <;> exact ⟨_, rfl⟩
    cases b <;> simp [hb, hd]

theorem isFile_of_fails {p : Bytes} (hlib : lib.raises = true) (h : tree.Fails p) :
    ∃ e, lib.isFile tree p = .error e := by
  rw [Libraries.isFile]
  by_cases hd : tree.denied p = true
  · exact ⟨.EACCES, by simp [hd, Libraries.failing, hlib]⟩
  have hfile : tree.fs.isRegularFile p = .error .ENAMETOOLONG := by
    simp [isRegularFile, status, h.resolve_left hd, bind, Except.bind]
  exact ⟨.ENAMETOOLONG, by simp [hd, hfile, Libraries.failing, hlib]⟩

theorem filterFiles_of_not_fails {paths : List Bytes}
    (h : ∀ p ∈ paths, lib.raises = true → ¬ tree.Fails p) :
    lib.filterFiles tree paths = .ok (paths.filter fun p =>
      decide (tree.denied p = false ∧ tree.fs.isRegularFile p = .ok true)) := by
  induction paths with
  | nil => rfl
  | cons p paths ih =>
    rw [List.forall_mem_cons] at h
    rw [Libraries.filterFiles, isFile_of_not_fails h.1, ih h.2, List.filter_cons]
    rfl

theorem filterFiles_of_fails {paths : List Bytes} {p : Bytes} (hlib : lib.raises = true)
    (hp : p ∈ paths) (h : tree.Fails p) : ∃ e, lib.filterFiles tree paths = .error e := by
  induction paths with
  | nil => cases hp
  | cons x paths ih =>
    rw [Libraries.filterFiles]
    rcases List.mem_cons.mp hp with rfl | hp
    · obtain ⟨e, he⟩ := isFile_of_fails hlib h
      rw [he]
      exact ⟨_, rfl⟩
    · obtain ⟨e, he⟩ := ih hp
      rcases lib.isFile tree x with e' | b
      · exact ⟨e', rfl⟩
      · rw [he]
        exact ⟨e, rfl⟩

/-- The walk comes to its listing, or lists nothing, or raises at the root. -/
theorem rglob_cases (lib : Libraries C R) (tree : Tree) (root : Bytes) :
    (∃ r, (0 : Byte) ∉ root ∧ tree.denied (pathStr root) = false ∧
      tree.fs.resolve (pathStr root) = .ok r ∧
      lib.rglob tree root = .ok (childPaths root r ((lib.order (tree.fs.below r)).filter fun t =>
        tree.shows root r (t.drop r.length)))) ∨
    (∀ p, ¬ IsListed tree root p) ∧
      (((lib.raises = true → (0 : Byte) ∈ root ∨ ¬ tree.Fails (pathStr root)) ∧
          lib.rglob tree root = .ok []) ∨
        ((0 : Byte) ∉ root ∧ tree.Fails (pathStr root) ∧ lib.raises = true ∧
          ∃ e, lib.rglob tree root = .error e)) := by
  by_cases hz : (0 : Byte) ∈ root
  · right
    exact ⟨fun p ⟨_, _, _, he, _⟩ => he.noZero hz, Or.inl ⟨fun _ => Or.inl hz, if_pos hz⟩⟩
  -- a lookup of the root that fails raises, if the library does that
  have hfails : ∀ e, tree.Fails (pathStr root) → lib.rglob tree root = lib.failing e [] →
      ((lib.raises = true → (0 : Byte) ∈ root ∨ ¬ tree.Fails (pathStr root)) ∧
          lib.rglob tree root = .ok []) ∨
        ((0 : Byte) ∉ root ∧ tree.Fails (pathStr root) ∧ lib.raises = true ∧
          ∃ e, lib.rglob tree root = .error e) := by
    intro e hroot heq
    rw [heq, Libraries.failing]
    by_cases hlib : lib.raises = true
    · exact Or.inr ⟨hz, hroot, hlib, e, if_pos hlib⟩
    · exact Or.inl ⟨fun h => absurd h hlib, if_neg hlib⟩
  by_cases hd : tree.denied (pathStr root) = true
  · right
    refine ⟨fun p hp => absurd (hd.symm.trans hp.1) (by decide), hfails .EACCES (Or.inl hd) ?_⟩
    rw [Libraries.rglob, if_neg hz, if_pos hd]
  have heq : lib.rglob tree root = match tree.fs.resolve (pathStr root) with
      | .ok r => .ok (childPaths root r ((lib.order (tree.fs.below r)).filter fun t =>
          tree.shows root r (t.drop r.length)))
      | .error .ENAMETOOLONG => lib.failing .ENAMETOOLONG []
      | .error _ => .ok [] := by
    rw [Libraries.rglob, if_neg hz, if_neg hd]
  rcases hr : tree.fs.resolve (pathStr root) with e | r
  · right
    refine ⟨fun p ⟨_, _, _, he, _⟩ => (nomatch hr.symm.trans he.rootFound), ?_⟩
    rw [hr] at heq
    by_cases hlong : e = .ENAMETOOLONG
    · subst hlong
      exact hfails .ENAMETOOLONG (Or.inr hr) heq
    · have hroot : ¬ tree.Fails (pathStr root) := by
        rintro (h | h)
        · exact hd h
        · exact hlong (Except.error.inj (hr.symm.trans h))
      refine Or.inl ⟨fun _ => Or.inr hroot, heq.trans ?_⟩
      cases e <;> first | rfl | exact absurd rfl hlong
  · rw [hr] at heq
    exact Or.inl ⟨r, hz, by simpa using hd, rfl, heq⟩

theorem mem_rglob {paths : List Bytes} (h : lib.rglob tree root = .ok paths) :
    paths.Nodup ∧ ∀ p, p ∈ paths ↔ IsListed tree root p := by
  rcases rglob_cases lib tree root with ⟨r, hz, hd, hr, heq⟩ | ⟨hno, ⟨-, heq⟩ | ⟨-, -, -, e, heq⟩⟩
  · obtain rfl := Except.ok.inj (heq.symm.trans h)
    have hperm := (lib.order_perm (tree.fs.below r)).filter fun t =>
      tree.shows root r (t.drop r.length)
    have hnodup : (childPaths root r ((tree.fs.below r).filter fun t =>
        tree.shows root r (t.drop r.length))).Nodup :=
      (nodup_childPaths tree.fs root r).sublist (List.filter_sublist.map _)
    refine ⟨(hperm.map _).nodup_iff.mpr hnodup, fun p => ?_⟩
    rw [childPaths, (hperm.map _).mem_iff, List.mem_map]
    constructor
    · rintro ⟨t, ht, rfl⟩
      obtain ⟨hbelow, hshows⟩ := List.mem_filter.mp ht
      obtain ⟨⟨q, rfl⟩, hne, he⟩ := mem_below.mp hbelow
      rw [List.drop_left] at hshows ⊢
      exact ⟨hd, r, q, ⟨hz, hr, by simpa using hne, he, rfl⟩, hshows⟩
    · rintro ⟨-, r', q, ⟨-, hr', hq, he, rfl⟩, hshows⟩
      obtain rfl : r = r' := Except.ok.inj (hr.symm.trans hr')
      have hbelow : r ++ q ∈ tree.fs.below r :=
        mem_below.mpr ⟨List.prefix_append r q, by simpa using hq, he⟩
      exact ⟨r ++ q, List.mem_filter.mpr ⟨hbelow, by rwa [List.drop_left]⟩,
        by rw [List.drop_left]⟩
  · obtain rfl := Except.ok.inj (heq.symm.trans h)
    exact ⟨List.nodup_nil, fun p => iff_of_false List.not_mem_nil (hno p)⟩
  · rw [heq] at h
    cases h

theorem listing_of_ends (h : WalkEnds lib tree root) :
    ∃ files, (lib.rglob tree root >>= lib.filterFiles tree) = .ok files ∧ files.Nodup ∧
      ∀ p, p ∈ files ↔ IsFileBelow tree root p := by
  rcases hpaths : lib.rglob tree root with e | paths
  · rcases rglob_cases lib tree root with ⟨r, -, -, -, heq⟩ | ⟨-, ⟨-, heq⟩ | ⟨hz, hroot, hlib, -⟩⟩
    · cases hpaths.symm.trans heq
    · cases hpaths.symm.trans heq
    · exact absurd hroot ((h hlib).1.resolve_left hz)
  · obtain ⟨hnodup, hmem⟩ := mem_rglob hpaths
    refine ⟨paths.filter fun p =>
      decide (tree.denied p = false ∧ tree.fs.isRegularFile p = .ok true), ?_, hnodup.filter _,
      fun p => ?_⟩
    · exact filterFiles_of_not_fails fun p hp hlib => (h hlib).2 p ((hmem p).mp hp)
    · rw [List.mem_filter, hmem, decide_eq_true_eq]
      rfl

theorem listing_of_not_ends (h : ¬ WalkEnds lib tree root) :
    ∃ e, (lib.rglob tree root >>= lib.filterFiles tree) = .error e := by
  rw [WalkEnds, Classical.not_imp] at h
  obtain ⟨hlib, h⟩ := h
  rcases hpaths : lib.rglob tree root with e | paths
  · exact ⟨e, rfl⟩
  have hroot : (0 : Byte) ∈ root ∨ ¬ tree.Fails (pathStr root) := by
    rcases rglob_cases lib tree root with ⟨r, -, hd, hr, -⟩ | ⟨-, ⟨hroot, -⟩ | ⟨-, -, -, e, heq⟩⟩
    · refine Or.inr ?_
      rintro (hf | hf)
      · exact absurd (hd.symm.trans hf) (by decide)
      · cases hr.symm.trans hf
    · exact hroot hlib
    · cases hpaths.symm.trans heq
  -- the lookup of some entry fails
  obtain ⟨p, hp, hfails⟩ : ∃ p, IsListed tree root p ∧ tree.Fails p := by
    by_contra hnone
    push Not at hnone
    exact h ⟨hroot, hnone⟩
  exact filterFiles_of_fails hlib (((mem_rglob hpaths).2 p).mpr hp) hfails

end Walk

/-- The rebuild comes to its swap: nothing raises in the walk, a file is listed, and a listed file
can be read unless no rows can be added. -/
structure ReachesSwap (lib : Libraries C R) (tree : Tree) (root : Bytes) : Prop where
  ends : WalkEnds lib tree root
  file : ∃ p, IsFileBelow tree root p
  rows : (∃ p text, IsDocument lib tree root p text ∧ IsListed tree root p) ∨
    lib.addsNoRows = true

section Outcome

variable {lib : Libraries C R} {tree : Tree} {root : Bytes}

theorem mem_readDocs {files : List Bytes} (hfiles : ∀ p, p ∈ files ↔ IsFileBelow tree root p)
    (p : Bytes) (text : List C) :
    (p, text) ∈ readDocs (lib.readText tree) files ↔
      IsDocument lib tree root p text ∧ IsListed tree root p := by
  have hmem : (p, text) ∈ readDocs (lib.readText tree) files ↔
      IsFileBelow tree root p ∧ lib.readText tree p = some text := by
    simp [readDocs, hfiles]
  rw [hmem]
  constructor
  · rintro ⟨⟨hlisted, hd, hreg⟩, htext⟩
    obtain ⟨t, data, ht, hdata⟩ := isRegularFile_eq_true.mp hreg
    obtain ⟨r, q, hentry, -⟩ := hlisted.2
    simp only [Libraries.readText, hd, ht, read_of_file ht hdata] at htext
    simp only [Bool.false_eq_true, if_false] at htext
    split_ifs at htext with hu
    exact ⟨⟨⟨r, q, hentry⟩, hd, t, data, ht, hdata, by simpa using hu,
      (Option.some.inj htext).symm⟩, hlisted⟩
  · rintro ⟨⟨-, hd, t, data, ht, hdata, hu, rfl⟩, hlisted⟩
    refine ⟨⟨hlisted, hd, isRegularFile_eq_true.mpr ⟨t, data, ht, hdata⟩⟩, ?_⟩
    simp [Libraries.readText, hd, ht, hu, read_of_file ht hdata]

theorem isFileBelow_of_isDocument {p : Bytes} {text : List C}
    (h : IsDocument lib tree root p text) (hlisted : IsListed tree root p) :
    IsFileBelow tree root p := by
  obtain ⟨-, hd, t, data, ht, hdata, -, -⟩ := h
  exact ⟨hlisted, hd, isRegularFile_eq_true.mpr ⟨t, data, ht, hdata⟩⟩

theorem rebuildBg_of_reachesSwap (h : ReachesSwap lib tree root) (s : Service Bytes R) :
    (∃ docs, Holds lib.encode (lib.rebuildBg tree root s).stores docs ∧
      ∀ p text, (p, text) ∈ docs ↔ IsDocument lib tree root p text ∧ IsListed tree root p) ∧
    (lifespan (lib.rebuildBg tree root s).cache).1 = (lib.rebuildBg tree root s).stores := by
  obtain ⟨files, hlist, hnodup, hfiles⟩ := listing_of_ends h.ends
  have hmem : ∀ p text, (p, text) ∈ readDocs (lib.readText tree) files ↔
      IsDocument lib tree root p text ∧ IsListed tree root p := mem_readDocs hfiles
  have hne : files ≠ [] := by
    obtain ⟨p, hp⟩ := h.file
    exact List.ne_nil_of_mem ((hfiles p).mpr hp)
  have hrows : ¬ (readDocs (lib.readText tree) files = [] ∧ lib.addsNoRows = false) := by
    rintro ⟨hnil, hlib⟩
    rcases h.rows with ⟨p, text, hdoc⟩ | hrows
    · have hin := (hmem p text).mpr hdoc
      rw [hnil] at hin
      cases hin
    · rw [hrows] at hlib
      cases hlib
  have hdistinct : ((readDocs (lib.readText tree) files).map Prod.fst).Nodup :=
    hnodup.sublist (ids_readDocs_sublist _ files)
  have hholds := holds_swapIn lib.encode hdistinct
  simp only [Libraries.rebuildBg, hlist, if_neg hne, if_neg hrows]
  exact ⟨⟨_, hholds, hmem⟩, by rw [lifespan, hholds.tryLoadIndex]⟩

theorem installed_of_reachesSwap_iff (h : ReachesSwap lib tree root) (s : Service Bytes R) :
    Installed lib tree root (lib.rebuildBg tree root s) ↔
      ∀ p text, IsDocument lib tree root p text → IsListed tree root p := by
  obtain ⟨⟨docs, hholds, hdocs⟩, hload⟩ := rebuildBg_of_reachesSwap h s
  constructor
  · rintro ⟨⟨docs', hholds', hdocs'⟩, -⟩ p text hdoc
    have hids : p ∈ docs.map Prod.fst := by
      rw [← hholds.ids, hholds'.ids]
      exact List.mem_map.mpr ⟨(p, text), (hdocs' p text).mpr hdoc, rfl⟩
    obtain ⟨⟨p', text'⟩, hin, rfl⟩ := List.mem_map.mp hids
    exact ((hdocs p' text').mp hin).2
  · intro hlisted
    refine ⟨⟨docs, hholds, fun p text => ?_⟩, hload⟩
    rw [hdocs]
    exact and_iff_left_of_imp (hlisted p text)

theorem rebuildBg_of_not_reachesSwap (h : ¬ ReachesSwap lib tree root) (s : Service Bytes R) :
    lib.rebuildBg tree root s = s := by
  by_cases hends : WalkEnds lib tree root
  · -- either no file is listed, or none of them can be read and the index takes no empty array
    obtain ⟨files, hlist, -, hfiles⟩ := listing_of_ends hends
    by_cases hnil : files = []
    · simp only [Libraries.rebuildBg, hlist, if_pos hnil]
    have hrows : readDocs (lib.readText tree) files = [] ∧ lib.addsNoRows = false := by
      obtain ⟨p, hp⟩ := List.exists_mem_of_ne_nil files hnil
      have hno : ¬ ((∃ p text, IsDocument lib tree root p text ∧ IsListed tree root p) ∨
          lib.addsNoRows = true) :=
        fun hrows => h ⟨hends, ⟨p, (hfiles p).mp hp⟩, hrows⟩
      rw [not_or, Bool.not_eq_true] at hno
      refine ⟨List.eq_nil_iff_forall_not_mem.mpr ?_, hno.2⟩
      rintro ⟨q, text⟩ hq
      exact hno.1 ⟨q, text, (mem_readDocs hfiles q text).mp hq⟩
    simp only [Libraries.rebuildBg, hlist, if_neg hnil, if_pos hrows]
  · obtain ⟨e, hlist⟩ := listing_of_not_ends hends
    simp only [Libraries.rebuildBg, hlist]

theorem installed_iff_empty (h : ∀ p text, ¬ IsDocument lib tree root p text)
    (s : Service Bytes R) :
    Installed lib tree root s ↔ s.stores = {} ∧ (lifespan s.cache).1 = {} := by
  constructor
  · rintro ⟨⟨docs, hholds, hdocs⟩, hload⟩
    obtain rfl : docs = [] := by
      apply List.eq_nil_iff_forall_not_mem.mpr
      rintro ⟨p, text⟩ hp
      exact h p text ((hdocs p text).mp hp)
    have hstores : s.stores = {} := by
      rcases hs : s.stores with ⟨ids, vecs, index⟩
      have hids := hholds.ids
      have hvecs := hholds.vecs
      have hindex := hholds.index
      rw [hs] at hids hvecs hindex
      simp_all
    exact ⟨hstores, hload.trans hstores⟩
  · rintro ⟨hstores, hload⟩
    have hholds : Holds lib.encode s.stores ([] : List (Bytes × List C)) := by
      rw [hstores]
      exact holds_empty lib.encode
    refine ⟨⟨[], hholds, fun p text => ?_⟩, hload.trans hstores.symm⟩
    simp [h p text]

/-- A rebuild that comes to its swap leaves exactly the documents if the walk comes to all of them.
Any other rebuild must have found them installed: without documents an empty index. -/
theorem rebuildBg_installed_iff (lib : Libraries C R) (tree : Tree) (root : Bytes)
    (s : Service Bytes R) :
    Installed lib tree root (lib.rebuildBg tree root s) ↔
      (ReachesSwap lib tree root ∧
        ∀ p text, IsDocument lib tree root p text → IsListed tree root p) ∨
      (¬ ReachesSwap lib tree root ∧ (∀ p text, ¬ IsDocument lib tree root p text) ∧
        s.stores = {} ∧ (lifespan s.cache).1 = {}) ∨
      (¬ ReachesSwap lib tree root ∧ (∃ p text, IsDocument lib tree root p text) ∧
        Installed lib tree root s) := by
  by_cases hswap : ReachesSwap lib tree root
  · simp [hswap, installed_of_reachesSwap_iff hswap s]
  rw [rebuildBg_of_not_reachesSwap hswap s]
  by_cases hdoc : ∃ p text, IsDocument lib tree root p text
  · simp [hswap, hdoc]
  · push Not at hdoc
    have hno : ¬ ∃ p text, IsDocument lib tree root p text := by
      rintro ⟨p, text, h⟩
      exact hdoc p text h
    rw [installed_iff_empty hdoc]
    simp [hswap, hdoc]

end Outcome

/-- A tree in which everything can be read, listed and searched. -/
def openTree (fs : FileSystem) : Tree := ⟨fs, fun _ => false, fun _ => false, fun _ => false⟩

@[simp] theorem denied_openTree (fs : FileSystem) (p : Bytes) : (openTree fs).denied p = false := by
  simp [Tree.denied, openTree]

@[simp] theorem shows_openTree (fs : FileSystem) (root : Bytes) (r q : RealPath) :
    (openTree fs).shows root r q = true := by
  simp [Tree.shows, Tree.lists, openTree, Tree.denied]

def emptyRoot : Tree := openTree (FileSystem.empty.set [text "root"] .dir)

def plainLibraries : Libraries Byte ℕ where
  order l := l
  order_perm := List.Perm.refl
  raises := true
  addsNoRows := true
  decode b := b
  encode := List.length

def oldService : Service Bytes ℕ where
  stores := swapIn [text "root/a"] [5]
  cache := saveIndex (swapIn [text "root/a"] [5])

/-- The document of the file that is gone stays in the index. -/
theorem emptyRoot_keeps_old :
    (∀ p t, ¬ IsDocument plainLibraries emptyRoot (text "root") p t) ∧
      (plainLibraries.rebuildBg emptyRoot (text "root") oldService).stores.ids = [text "root/a"] ∧
      ¬ Installed plainLibraries emptyRoot (text "root")
        (plainLibraries.rebuildBg emptyRoot (text "root") oldService) := by
  have hnone : ∀ p t, ¬ IsDocument plainLibraries emptyRoot (text "root") p t := by
    rintro p t ⟨⟨r, q, hentry⟩, -⟩
    have hroot : emptyRoot.fs.resolve (pathStr (text "root")) = .ok [text "root"] := by
      decide +kernel
    obtain rfl : [text "root"] = r := Except.ok.inj (hroot.symm.trans hentry.rootFound)
    have hbelow : emptyRoot.fs.below [text "root"] = [] := by decide +kernel
    have hmem : [text "root"] ++ q ∈ emptyRoot.fs.below [text "root"] :=
      mem_below.mpr ⟨List.prefix_append _ q, by simpa using hentry.below, hentry.entry⟩
    rw [hbelow] at hmem
    cases hmem
  have hswap : plainLibraries.rebuildBg emptyRoot (text "root") oldService = oldService := by
    have hlist : (plainLibraries.rglob emptyRoot (text "root") >>=
        plainLibraries.filterFiles emptyRoot) = .ok [] := by decide +kernel
    simp only [Libraries.rebuildBg, hlist, if_true]
  rw [hswap, installed_iff_empty hnone]
  refine ⟨hnone, rfl, ?_⟩
  rintro ⟨hstores, -⟩
  exact absurd hstores (by decide)

namespace EmbedConfig

/-- Directories in the order of the model, no exception of `pathlib`, and no index without rows. -/
def libraries (cfg : EmbedConfig C R) : Libraries C R where
  order l := l
  order_perm := List.Perm.refl
  raises := false
  addsNoRows := false
  decode := cfg.decode
  encode := cfg.encode

variable {cfg : EmbedConfig C R} {fs : FileSystem}

theorem listing_libraries (hz : (0 : Byte) ∉ cfg.search_root) :
    (cfg.libraries.rglob (openTree fs) cfg.search_root >>=
      cfg.libraries.filterFiles (openTree fs)) = .ok (rglobFiles fs cfg.search_root) := by
  have hlib : ¬ cfg.libraries.raises = true := Bool.false_ne_true
  have hfilter : ∀ paths, cfg.libraries.filterFiles (openTree fs) paths =
      .ok (paths.filter fun p => fs.isRegularFile p = .ok true) := by
    intro paths
    rw [filterFiles_of_not_fails fun p _ h => absurd h hlib]
    simp only [denied_openTree, true_and]
    rfl
  rw [Libraries.rglob, rglobFiles, if_neg hz, denied_openTree]
  simp only [Bool.false_eq_true, if_false, shows_openTree, List.filter_true]
  rw [openTree]
  rcases fs.resolve (pathStr cfg.search_root) with e | r
  · cases e <;> rfl
  · exact hfilter _

theorem readText_libraries (p : Bytes) :
    cfg.libraries.readText (openTree fs) p = cfg.readText fs p := by
  rw [Libraries.readText, denied_openTree, readText]
  rcases hr : fs.resolve p with e | t
  · simp [openTree, FileSystem.read, hr]
  · simp [openTree, libraries, hr]

theorem rebuildStep_run (hz : (0 : Byte) ∉ cfg.search_root) (s : Service Bytes R) :
    (cfg.rebuildStep fs)^[5] ⟨s, .waiting⟩ =
      ⟨cfg.libraries.rebuildBg (openTree fs) cfg.search_root s, .finished⟩ := by
  have hstop : ∀ n (s' : Service Bytes R),
      (cfg.rebuildStep fs)^[n] ⟨s', .finished⟩ = ⟨s', .finished⟩ := by
    intro n s'
    exact Function.iterate_fixed (rebuildStep_finished rfl) n
  have hread : cfg.libraries.readText (openTree fs) = cfg.readText fs :=
    funext readText_libraries
  rw [Libraries.rebuildBg, listing_libraries hz, Function.iterate_succ_apply]
  by_cases hfiles : rglobFiles fs cfg.search_root = []
  · rw [rebuildStep_noFiles rfl hfiles, hstop]
    simp only [hfiles, if_true]
  · have hdocs := cfg.readDocs_ne_nil hfiles
    rw [rebuildStep_files rfl hfiles, Function.iterate_succ_apply, rebuildStep_listed rfl hdocs,
      Function.iterate_succ_apply, rebuildStep_embedded rfl, Function.iterate_succ_apply,
      rebuildStep_swapped rfl, hstop]
    simp only [hfiles, if_false, hread, hdocs, false_and]
    rfl

end EmbedConfig

end SemanticSearch
