import SemanticSearch.SlashPath

namespace SemanticSearch

inductive Errno
  | ENOENT | ENOTDIR | EISDIR | ELOOP | ENAMETOOLONG | EPERM | EACCES
  deriving DecidableEq, Repr

inductive Entry
  | file (data : Bytes)
  | dir
  | link (target : Bytes)
  deriving DecidableEq, Repr

/-- NAME_MAX, PATH_MAX and the number of links one lookup follows on Linux. -/
def nameMax : ℕ := 255
def pathMax : ℕ := 4096
def linkMax : ℕ := 40

def ValidName (n : Bytes) : Prop :=
  PlainName n ∧ n ≠ dot ∧ n ≠ dotdot ∧ (0 : Byte) ∉ n ∧ n.length ≤ nameMax

instance (n : Bytes) : Decidable (PlainName n) := inferInstanceAs (Decidable (_ ∧ _))
instance (n : Bytes) : Decidable (ValidName n) := inferInstanceAs (Decidable (_ ∧ _))

/-- The tree of entries and the working directory of the process. -/
structure FileSystem where
  entries : Std.ExtTreeMap RealPath Entry
  cwd : RealPath
  root_dir : entries[([] : RealPath)]? = some .dir
  cwd_dir : entries[cwd]? = some .dir
  parent_dir : ∀ (d : RealPath) n e, entries[d ++ [n]]? = some e → entries[d]? = some .dir
  valid_name : ∀ (d : RealPath) n e, entries[d ++ [n]]? = some e → ValidName n

namespace FileSystem

/-- An entry can be put at `q`: its directory is there and `q` is no directory itself. -/
def CanSet (fs : FileSystem) (q : RealPath) : Prop :=
  ValidName (q.getLastD []) ∧ fs.entries[q.dropLast]? = some .dir ∧ fs.entries[q]? ≠ some .dir

instance (fs : FileSystem) (q : RealPath) : Decidable (fs.CanSet q) :=
  inferInstanceAs (Decidable (_ ∧ _ ∧ _))

theorem CanSet.eq_concat {fs : FileSystem} {q : RealPath} (h : fs.CanSet q) :
    ∃ d n, q = d ++ [n] ∧ ValidName n ∧ fs.entries[d]? = some .dir := by
  rcases List.eq_nil_or_concat q with rfl | ⟨d, n, rfl⟩
  · exact absurd rfl h.1.1.1
  · obtain ⟨hv, hd, -⟩ := h
    exact ⟨d, n, by simp, by simpa using hv, by simpa using hd⟩

theorem getElem?_insert_entry (t : Std.ExtTreeMap RealPath Entry) (q p : RealPath) (e : Entry) :
    (t.insert q e)[p]? = if p = q then some e else t[p]? := by
  simp only [Std.ExtTreeMap.getElem?_insert, Std.LawfulEqCmp.compare_eq_iff_eq, eq_comm (a := q)]

theorem getElem?_erase_entry (t : Std.ExtTreeMap RealPath Entry) (q p : RealPath) :
    (t.erase q)[p]? = if p = q then none else t[p]? := by
  simp only [Std.ExtTreeMap.getElem?_erase, Std.LawfulEqCmp.compare_eq_iff_eq, eq_comm (a := q)]

theorem ne_of_dir {fs : FileSystem} {p q : RealPath} (hp : fs.entries[p]? = some .dir)
    (hq : fs.entries[q]? ≠ some .dir) : p ≠ q := by
  rintro rfl
  exact hq hp

/-- Puts the entry `e` at `q` where that is possible. -/
def set (fs : FileSystem) (q : RealPath) (e : Entry) : FileSystem :=
  if h : fs.CanSet q then
    { entries := fs.entries.insert q e
      cwd := fs.cwd
      root_dir := by
        obtain ⟨d, n, rfl, -, -⟩ := h.eq_concat
        rw [getElem?_insert_entry, if_neg (by simp), fs.root_dir]
      cwd_dir := by
        rw [getElem?_insert_entry, if_neg (ne_of_dir fs.cwd_dir h.2.2), fs.cwd_dir]
      parent_dir := by
        intro d n e' he
        obtain ⟨d', n', rfl, -, hd'⟩ := h.eq_concat
        rw [getElem?_insert_entry] at he ⊢
        have hdir : fs.entries[d]? = some .dir := by
          split_ifs at he with hq
          · rwa [(List.append_inj' hq rfl).1]
          · exact fs.parent_dir d n e' he
        rw [if_neg (ne_of_dir hdir h.2.2), hdir]
      valid_name := by
        intro d n e' he
        obtain ⟨d', n', rfl, hv, -⟩ := h.eq_concat
        rw [getElem?_insert_entry] at he
        split_ifs at he with hq
        · obtain ⟨-, hn⟩ := List.append_inj' hq rfl
          rwa [List.singleton_inj.mp hn]
        · exact fs.valid_name d n e' he }
  else fs

/-- Removes the entry at `q` unless it is a directory. -/
def remove (fs : FileSystem) (q : RealPath) : FileSystem :=
  if h : fs.entries[q]? = some .dir then fs else
    { entries := fs.entries.erase q
      cwd := fs.cwd
      root_dir := by
        rw [getElem?_erase_entry, if_neg (ne_of_dir fs.root_dir h), fs.root_dir]
      cwd_dir := by
        rw [getElem?_erase_entry, if_neg (ne_of_dir fs.cwd_dir h), fs.cwd_dir]
      parent_dir := by
        intro d n e he
        rw [getElem?_erase_entry] at he ⊢
        split_ifs at he with hq
        have hdir := fs.parent_dir d n e he
        rw [if_neg (ne_of_dir hdir h), hdir]
      valid_name := by
        intro d n e he
        rw [getElem?_erase_entry] at he
        split_ifs at he with hq
        exact fs.valid_name d n e he }

theorem entries_set {fs : FileSystem} {q : RealPath} (h : fs.CanSet q) (e : Entry) (p : RealPath) :
    (fs.set q e).entries[p]? = if p = q then some e else fs.entries[p]? := by
  rw [set, dif_pos h]
  exact getElem?_insert_entry fs.entries q p e

theorem entries_remove {fs : FileSystem} {q : RealPath} (h : fs.entries[q]? ≠ some .dir)
    (p : RealPath) : (fs.remove q).entries[p]? = if p = q then none else fs.entries[p]? := by
  rw [remove, dif_neg h]
  exact getElem?_erase_entry fs.entries q p

@[simp] theorem cwd_set (fs : FileSystem) (q : RealPath) (e : Entry) : (fs.set q e).cwd = fs.cwd := by
  unfold set
  split_ifs <;> rfl

@[simp] theorem cwd_remove (fs : FileSystem) (q : RealPath) : (fs.remove q).cwd = fs.cwd := by
  unfold remove
  split_ifs <;> rfl

theorem ext_entries {fs fs' : FileSystem} (h : ∀ p : RealPath, fs.entries[p]? = fs'.entries[p]?)
    (hc : fs.cwd = fs'.cwd) : fs = fs' := by
  have he : fs.entries = fs'.entries := Std.ExtTreeMap.ext_getElem? h
  cases fs
  cases fs'
  simp_all

def empty : FileSystem where
  entries := (∅ : Std.ExtTreeMap RealPath Entry).insert [] .dir
  cwd := []
  root_dir := by simp
  cwd_dir := by simp
  parent_dir := by
    intro d n e he
    simp at he
  valid_name := by
    intro d n e he
    simp at he

/-- Where a lookup ends: at an entry, or in a directory that lacks only the last name. -/
inductive Place
  | found (q : RealPath)
  | missing (d : RealPath) (n : Bytes)
  deriving DecidableEq, Repr

/-- The part of a `std::string` a system call sees. -/
def cStr (p : Bytes) : Bytes := p.takeWhile (· ≠ 0)

/-- Goes through the components `cs` from the directory `cur`; `follow` continues behind a
symbolic link. -/
def walkFrom (fs : FileSystem) (follow : RealPath → List Bytes → Except Errno Place) :
    RealPath → List Bytes → Except Errno Place
  | cur, [] => .ok (.found cur)
  | cur, c :: cs =>
    if c = dot then walkFrom fs follow cur cs
    else if c = dotdot then walkFrom fs follow cur.dropLast cs
    else if nameMax < c.length then .error .ENAMETOOLONG
    else match fs.entries[cur ++ [c]]? with
      | none => if cs = [] then .ok (.missing cur c) else .error .ENOENT
      | some .dir => walkFrom fs follow (cur ++ [c]) cs
      | some (.file _) => if cs = [] then .ok (.found (cur ++ [c])) else .error .ENOTDIR
      | some (.link t) =>
        let s := cStr t
        if s = [] then .error .ENOENT
        else follow (if isAbsolute s then [] else cur) (components s ++ cs)

/-- Lookup that follows at most `k` links. -/
def walkLinks (fs : FileSystem) : ℕ → RealPath → List Bytes → Except Errno Place
  | 0 => walkFrom fs fun _ _ => .error .ELOOP
  | k + 1 => walkFrom fs (walkLinks fs k)

def startDir (fs : FileSystem) (p : Bytes) : RealPath := if isAbsolute p then [] else fs.cwd

/-- Lookup of the path text `p`, following a final link. -/
def lookup (fs : FileSystem) (p : Bytes) : Except Errno Place :=
  let s := cStr p
  if s = [] then .error .ENOENT
  else if pathMax ≤ s.length then .error .ENAMETOOLONG
  else walkLinks fs linkMax (fs.startDir s) (components s)

/-- The real location of an existing entry. -/
def resolve (fs : FileSystem) (p : Bytes) : Except Errno RealPath :=
  match fs.lookup p with
  | .ok (.found q) => .ok q
  | .ok (.missing _ _) => .error .ENOENT
  | .error e => .error e

/-- `status(p)`: the entry, nothing where there is none, and an exception on other errors. -/
def status (fs : FileSystem) (p : Bytes) : Except Errno (Option Entry) :=
  match fs.resolve p with
  | .ok q => .ok fs.entries[q]?
  | .error .ENOENT => .ok none
  | .error .ENOTDIR => .ok none
  | .error e => .error e

def «exists» (fs : FileSystem) (p : Bytes) : Except Errno Bool := do
  return (← fs.status p).isSome

def isRegularFile (fs : FileSystem) (p : Bytes) : Except Errno Bool := do
  match ← fs.status p with
  | some (.file _) => return true
  | _ => return false

/-- `canonical(p)`. -/
def canonical (fs : FileSystem) (p : Bytes) : Except Errno RealPath := fs.resolve p

/-- Appends components without looking at the file system. -/
def lexicallyNormal (base : RealPath) (cs : List Bytes) : RealPath :=
  cs.foldl (fun q c => if c = dot then q else if c = dotdot then q.dropLast else q ++ [c]) base

/-- The longest leading part of `cs` that exists, as `found`, and the rest. -/
def existingPrefix (present : List Bytes → Bool) (found : List Bytes) :
    List Bytes → List Bytes × List Bytes
  | [] => (found, [])
  | c :: cs =>
    if present (found ++ [c]) then existingPrefix present (found ++ [c]) cs else (found, c :: cs)

/-- The path text made of the first components of `p`. -/
def leadingText (p : Bytes) (cs : List Bytes) : Bytes :=
  (if isAbsolute p then [slash] else []) ++ [slash].intercalate cs

/-- What `weakly_canonical` returns: a real path, or relative components where it looked up none. -/
inductive WeakPath
  | real (q : RealPath)
  | relative (cs : List Bytes)
  deriving DecidableEq, Repr

def WeakPath.string : WeakPath → Bytes
  | .real q => pathString q
  | .relative cs => [slash].intercalate cs

/-- `lexically_normal` of a relative path: a leading `..` stays, and a path that vanishes is `.`. -/
def relativeNormal (cs : List Bytes) : List Bytes :=
  let normal := cs.foldl (fun q c =>
    if c = dot then q
    else if c = dotdot ∧ q ≠ [] ∧ q.getLast? ≠ some dotdot then q.dropLast
    else q ++ [c]) []
  if normal = [] ∧ cs ≠ [] then [dot] else normal

/-- `weakly_canonical(p)`: the longest existing part resolved, the rest appended lexically. The
working directory is looked at only through a part that exists. -/
def weaklyCanonical (fs : FileSystem) (p : Bytes) : Except Errno WeakPath := do
  match ← fs.status p with
  | some _ => return .real (← fs.canonical p)
  | none =>
    let present cs := (fs.resolve (leadingText p cs)).toBool
    let (found, rest) := existingPrefix present [] (components p)
    if found ≠ [] then
      return .real (lexicallyNormal (← fs.canonical (leadingText p found)) rest)
    if isAbsolute p then
      return .real (lexicallyNormal [] rest)
    return .relative (relativeNormal rest)

/-- What an `ifstream` on `p` reads. A directory can be opened, but gives nothing. -/
def read (fs : FileSystem) (p : Bytes) : Option Bytes :=
  match fs.resolve p with
  | .error _ => none
  | .ok q =>
    match fs.entries[q]? with
    | some (.file data) => some data
    | _ => some []

/-- Where `open(p, O_CREAT | O_TRUNC)` writes: an existing file, or a new one. -/
def openTarget (fs : FileSystem) (p : Bytes) : Except Errno RealPath :=
  match fs.lookup p with
  | .error e => .error e
  | .ok (.missing d n) => .ok (d ++ [n])
  | .ok (.found q) => if fs.entries[q]? = some .dir then .error .EISDIR else .ok q

/-- Where the directory entry that `p` names is, a final link not followed. -/
def entryPath (fs : FileSystem) (p : Bytes) : Except Errno RealPath :=
  let s := cStr p
  if pathMax ≤ s.length then .error .ENAMETOOLONG
  else match (components s).getLast? with
    | none => .error .ENOENT
    | some n => do
      match ← walkLinks fs linkMax (fs.startDir s) (components s).dropLast with
      | .found d => if n = dot ∨ n = dotdot then .error .EPERM else return d ++ [n]
      | .missing _ _ => .error .ENOENT

/-- `unlink(p)`: the entry itself goes, not what a link points to. -/
def unlink (fs : FileSystem) (p : Bytes) : Except Errno FileSystem := do
  let q ← fs.entryPath p
  match fs.entries[q]? with
  | none => .error .ENOENT
  | some .dir => .error .EISDIR
  | some _ => return fs.remove q

end FileSystem
end SemanticSearch
