import SemanticSearch.FileLookup
import SemanticSearch.IndexRuns

namespace SemanticSearch

namespace FileSystem

/-- `is_regular_file()` of a directory entry: the type is known from the walk, only a link is
looked up. -/
def entryIsRegular (fs : FileSystem) (path : Bytes) : Entry → Except Errno Bool
  | .file _ => .ok true
  | .dir => .ok false
  | .link _ => fs.isRegularFile path

/-- The locations below `r`. -/
def below (fs : FileSystem) (r : RealPath) : List RealPath :=
  fs.entries.keys.filter fun q => r <+: q ∧ q ≠ r

/-- The entry of the walk of `root`, which is the directory `r`, for the location `q`. -/
def walkEntry (fs : FileSystem) (root : Bytes) (r q : RealPath) : DirEntry :=
  let path := underRoot root (q.drop r.length)
  ⟨path, match fs.entries[q]? with
    | some e => fs.entryIsRegular path e
    | none => .ok false⟩

def walk (fs : FileSystem) (root : Bytes) : Except Errno (List DirEntry) :=
  match fs.resolve root with
  | .error e => .error e
  | .ok r =>
    if fs.entries[r]? = some .dir then .ok ((fs.below r).map (fs.walkEntry root r))
    else .error .ENOTDIR

theorem mem_below {fs : FileSystem} {r q : RealPath} :
    q ∈ fs.below r ↔ r <+: q ∧ q ≠ r ∧ fs.entries[q]? ≠ none := by
  simp only [below, List.mem_filter, Std.ExtTreeMap.mem_keys, Bool.decide_and, Bool.and_eq_true,
    decide_eq_true_eq, Std.ExtTreeMap.mem_iff_isSome_getElem?, Option.isSome_iff_ne_none]
  tauto

theorem plainName_drop {fs : FileSystem} {r q : RealPath} (h : fs.entries[q]? ≠ none) :
    ∀ n ∈ q.drop r.length, PlainName n := by
  intro n hn
  obtain ⟨e, he⟩ := Option.ne_none_iff_exists'.mp h
  exact plainName_of_entry he n (List.mem_of_mem_drop hn)

theorem nodup_walkEntry (fs : FileSystem) (root : Bytes) (r : RealPath) :
    (((fs.below r).map (fs.walkEntry root r)).map DirEntry.path).Nodup := by
  rw [List.map_map]
  refine List.Nodup.map_on ?_ (Std.ExtTreeMap.nodup_keys.filter _)
  intro q hq q' hq' h
  obtain ⟨hr, -, he⟩ := mem_below.mp hq
  obtain ⟨hr', -, he'⟩ := mem_below.mp hq'
  have hdrop := underRoot_injective root (plainName_drop he) (plainName_drop he') h
  rw [List.prefix_append_drop hr, List.prefix_append_drop hr', hdrop]

/-- The file system as the index sees it. -/
def view (fs : FileSystem) : FileView where
  walk := fs.walk
  read := fs.read
  walk_nodup := by
    intro root es h
    unfold walk at h
    rcases hr : fs.resolve root with e | r
    · simp [hr] at h
    · simp only [hr] at h
      split_ifs at h
      obtain rfl := Except.ok.inj h
      exact nodup_walkEntry fs root r

def LinkFree (fs : FileSystem) : Prop := ∀ (q : RealPath) t, fs.entries[q]? ≠ some (.link t)

variable {fs : FileSystem}

theorem linkFree_empty : FileSystem.empty.LinkFree := by
  intro q t
  simp only [FileSystem.empty, Std.ExtTreeMap.getElem?_insert]
  split_ifs <;> simp

theorem LinkFree.set (h : fs.LinkFree) (q : RealPath) {e : Entry} (he : ∀ t, e ≠ .link t) :
    (fs.set q e).LinkFree := by
  intro p t
  by_cases hq : fs.CanSet q
  · rw [entries_set hq]
    split_ifs
    · simpa using he t
    · exact h p t
  · rw [FileSystem.set, dif_neg hq]
    exact h p t

theorem LinkFree.remove (h : fs.LinkFree) (q : RealPath) : (fs.remove q).LinkFree := by
  intro p t
  by_cases hq : fs.entries[q]? = some .dir
  · rw [FileSystem.remove, dif_pos hq]
    exact h p t
  · rw [entries_remove hq]
    split_ifs
    · simp
    · exact h p t

/-- What the first component of a lookup that succeeds does. -/
theorem LinkFree.walkFrom_cons (h : fs.LinkFree)
    {follow : RealPath → List Bytes → Except Errno Place} {cur : RealPath} {c : Bytes}
    {cs : List Bytes} {pl : Place} (hw : walkFrom fs follow cur (c :: cs) = .ok pl) :
    c = dot ∧ walkFrom fs follow cur cs = .ok pl ∨
    (c ≠ dot ∧ c = dotdot) ∧ walkFrom fs follow cur.dropLast cs = .ok pl ∨
    (c ≠ dot ∧ c ≠ dotdot ∧ ¬ nameMax < c.length) ∧
      (fs.entries[cur ++ [c]]? = some .dir ∧ walkFrom fs follow (cur ++ [c]) cs = .ok pl ∨
        cs = [] ∧ (fs.entries[cur ++ [c]]? = none ∧ pl = .missing cur c ∨
          ∃ data, fs.entries[cur ++ [c]]? = some (.file data) ∧ pl = .found (cur ++ [c]))) := by
  rw [walkFrom] at hw
  by_cases h1 : c = dot
  · rw [if_pos h1] at hw
    exact Or.inl ⟨h1, hw⟩
  by_cases h2 : c = dotdot
  · rw [if_neg h1, if_pos h2] at hw
    exact Or.inr (Or.inl ⟨⟨h1, h2⟩, hw⟩)
  by_cases h3 : nameMax < c.length
  · simp [h1, h2, h3] at hw
  rw [if_neg h1, if_neg h2, if_neg h3] at hw
  right; right
  refine ⟨⟨h1, h2, h3⟩, ?_⟩
  rcases he : fs.entries[cur ++ [c]]? with _ | ⟨data | _ | t⟩ <;> simp only [he] at hw
  · split_ifs at hw with hcs
    exact Or.inr ⟨hcs, Or.inl ⟨rfl, (Except.ok.inj hw).symm⟩⟩
  · split_ifs at hw with hcs
    exact Or.inr ⟨hcs, Or.inr ⟨data, rfl, (Except.ok.inj hw).symm⟩⟩
  · exact Or.inl ⟨rfl, hw⟩
  · exact absurd he (h _ t)

theorem LinkFree.walkFrom_append (h : fs.LinkFree)
    {follow : RealPath → List Bytes → Except Errno Place} {cur d : RealPath} {cs : List Bytes}
    (hw : walkFrom fs follow cur cs = .ok (.found d)) (hd : fs.entries[d]? = some .dir)
    (cs' : List Bytes) : walkFrom fs follow cur (cs ++ cs') = walkFrom fs follow d cs' := by
  induction cs generalizing cur with
  | nil =>
    obtain rfl : cur = d := by simpa [walkFrom] using hw
    rfl
  | cons c cs ih =>
    rw [List.cons_append, walkFrom]
    rcases h.walkFrom_cons hw with ⟨h1, hw⟩ | ⟨⟨h1, h2⟩, hw⟩ | ⟨⟨h1, h2, h3⟩, ⟨he, hw⟩ | hlast⟩
    · rw [if_pos h1]
      exact ih hw
    · rw [if_neg h1, if_pos h2]
      exact ih hw
    · rw [if_neg h1, if_neg h2, if_neg h3]
      simp only [he]
      exact ih hw
    · -- the lookup would end at a file or nowhere
      obtain ⟨-, ⟨-, hpl⟩ | ⟨data, he, hpl⟩⟩ := hlast
      · simp at hpl
      · rw [Place.found.inj hpl, he] at hd
        simp at hd

theorem dir_of_append {d q : RealPath} (hq : q ≠ []) (he : fs.entries[d ++ q]? ≠ none) :
    fs.entries[d]? = some .dir := by
  induction q using List.reverseRecOn with
  | nil => exact absurd rfl hq
  | append_singleton q n ih =>
    rw [← List.append_assoc] at he
    obtain ⟨e, he⟩ := Option.ne_none_iff_exists'.mp he
    have hdir := fs.parent_dir (d ++ q) n e he
    rcases eq_or_ne q [] with rfl | hq'
    · simpa using hdir
    · exact ih hq' (by simp [hdir])

theorem walkFrom_names {follow : RealPath → List Bytes → Except Errno Place} {d : RealPath}
    {q : RealPath} {data : Bytes} (hd : fs.entries[d]? = some .dir)
    (he : fs.entries[d ++ q]? = some (.file data)) :
    walkFrom fs follow d q = .ok (.found (d ++ q)) := by
  induction q generalizing d with
  | nil => simp [hd] at he
  | cons n q ih =>
    have hv : ValidName n := validName_of_mem he n (by simp)
    have hlen : ¬ nameMax < n.length := by
      have := hv.2.2.2.2
      omega
    rw [walkFrom, if_neg hv.2.1, if_neg hv.2.2.1, if_neg hlen]
    rcases eq_or_ne q [] with rfl | hq
    · simp [he]
    · have hsplit : d ++ n :: q = d ++ [n] ++ q := by simp
      rw [hsplit] at he ⊢
      have hdir : fs.entries[d ++ [n]]? = some .dir := dir_of_append hq (by rw [he]; simp)
      simp only [hdir]
      exact ih hdir he

theorem LinkFree.walkFrom_dot (h : fs.LinkFree)
    {follow : RealPath → List Bytes → Except Errno Place} {cur d : RealPath} {cs : List Bytes}
    (hw : walkFrom fs follow cur (cs ++ [dot]) = .ok (.found d)) :
    walkFrom fs follow cur cs = .ok (.found d) := by
  induction cs generalizing cur with
  | nil => simpa [walkFrom] using hw
  | cons c cs ih =>
    rw [walkFrom]
    rcases h.walkFrom_cons hw with ⟨h1, hw⟩ | ⟨⟨h1, h2⟩, hw⟩ | ⟨⟨h1, h2, h3⟩, ⟨he, hw⟩ | hlast⟩
    · rw [if_pos h1]
      exact ih hw
    · rw [if_neg h1, if_pos h2]
      exact ih hw
    · rw [if_neg h1, if_neg h2, if_neg h3]
      simp only [he]
      exact ih hw
    · simp at hlast

theorem LinkFree.entryPath_eq (h : fs.LinkFree) {p data : Bytes} {q : RealPath}
    (hr : fs.resolve p = .ok q) (hd : fs.entries[q]? = some (.file data)) :
    fs.entryPath p = .ok q := by
  have hl := resolve_eq_ok.mp hr
  simp only [lookup] at hl
  split_ifs at hl with h0 h1
  rcases List.eq_nil_or_concat (components (cStr p)) with hc | ⟨init, n, hc⟩
  · rw [hc] at hl
    obtain rfl : fs.startDir (cStr p) = q := by simpa [walkLinks_nil] using hl
    simp [dir_startDir] at hd
  rw [List.concat_eq_append] at hc
  rw [hc] at hl
  obtain ⟨hn1, hn2, d, hw, e, he, hne⟩ :=
    walkLinks_endsInEntry linkMax (dir_startDir fs _) init n q data hl hd
  -- the walk reaches the directory of the entry, and from there the entry itself
  have hdir := fs.parent_dir d n e he
  change walkFrom fs (walkLinks fs 39) (fs.startDir (cStr p)) init = _ at hw
  change walkFrom fs (walkLinks fs 39) (fs.startDir (cStr p)) (init ++ [n]) = _ at hl
  have hq : d ++ [n] = q := by
    rw [h.walkFrom_append hw hdir, walkFrom, if_neg hn1, if_neg hn2] at hl
    cases e with
    | dir => exact absurd rfl hne
    | link t => exact absurd he (h _ t)
    | file data' =>
      simp only [if_true, he] at hl
      split_ifs at hl
      simpa using hl
  change walkLinks fs linkMax (fs.startDir (cStr p)) init = _ at hw
  simp only [entryPath, if_neg h1, hc, List.getLast?_concat, List.dropLast_concat, hw, hn1, hn2,
    or_self, if_false, ← hq]
  rfl

theorem LinkFree.resolve_of_entryPath (h : fs.LinkFree) {p data : Bytes} {q : RealPath}
    (he : fs.entryPath p = .ok q) (hd : fs.entries[q]? = some (.file data)) :
    fs.resolve p = .ok q := by
  simp only [entryPath] at he
  split_ifs at he with hlong
  rcases List.eq_nil_or_concat (components (cStr p)) with hc | ⟨init, n, hc⟩
  · simp [hc] at he
  rw [List.concat_eq_append] at hc
  simp only [hc, List.getLast?_concat, List.dropLast_concat, bind, Except.bind] at he
  rcases hw : walkLinks fs linkMax (fs.startDir (cStr p)) init with e | ⟨d | ⟨d, m⟩⟩ <;>
    simp only [hw] at he
  · simp at he
  · split_ifs at he with hdots
    rw [not_or] at hdots
    obtain rfl : d ++ [n] = q := by simpa [pure, Except.pure] using he
    have hdir := fs.parent_dir d n _ hd
    have hlen : ¬ nameMax < n.length := by
      have := (fs.valid_name d n _ hd).2.2.2.2
      omega
    have hne : cStr p ≠ [] := by
      intro h0
      rw [h0] at hc
      have hnil : components ([] : Bytes) = [] := rfl
      simp [hnil] at hc
    change walkFrom fs (walkLinks fs 39) (fs.startDir (cStr p)) init = _ at hw
    rw [resolve_eq_ok, lookup]
    simp only [hne, hlong, if_false, hc]
    change walkFrom fs (walkLinks fs 39) (fs.startDir (cStr p)) (init ++ [n]) = _
    rw [h.walkFrom_append hw hdir, walkFrom, if_neg hdots.1, if_neg hdots.2, if_neg hlen]
    simp [hd]
  · simp at he

/-- The way of `p` leads to `r` and then down the names `q`. -/
structure LeadsBelow (fs : FileSystem) (r : RealPath) (p : Bytes) (q : RealPath) : Prop where
  zero : (0 : Byte) ∉ p
  way : ∃ cs, components p = cs ++ q ∧
    walkFrom fs (walkLinks fs 39) (fs.startDir p) cs = .ok (.found r)

def Place.location : Place → RealPath
  | .found q => q
  | .missing d n => d ++ [n]

theorem location_of_openTarget {p : Bytes} {q : RealPath} (h : fs.openTarget p = .ok q) :
    ∃ pl, fs.lookup p = .ok pl ∧ pl.location = q := by
  rcases openTarget_eq_ok.mp h with ⟨d, n, hl, hq⟩ | ⟨data, hr, -⟩
  · exact ⟨_, hl, hq.symm⟩
  · exact ⟨_, resolve_eq_ok.mp hr, rfl⟩

theorem cStr_eq_self {p : Bytes} (h : (0 : Byte) ∉ p) : cStr p = p := by
  rw [cStr, List.takeWhile_eq_self_iff]
  intro c hc
  simpa using fun he : c = 0 => h (he ▸ hc)

theorem cStr_append {p : Bytes} (h : (0 : Byte) ∈ p) (t : Bytes) : cStr (p ++ t) = cStr p := by
  rw [cStr, List.takeWhile_append, if_neg]
  · rfl
  · intro hl
    have hself := (List.takeWhile_prefix (fun c : Byte => decide (c ≠ 0)) (l := p)).eq_of_length hl
    have := List.takeWhile_eq_self_iff.mp hself 0 h
    simp at this

theorem LinkFree.location_of_walkFrom (h : fs.LinkFree)
    {follow : RealPath → List Bytes → Except Errno Place} {d q : RealPath} {pl : Place}
    (hq : ∀ n ∈ q, ValidName n) (hw : walkFrom fs follow d q = .ok pl) : pl.location = d ++ q := by
  induction q generalizing d with
  | nil =>
    obtain rfl : Place.found d = pl := by simpa [walkFrom] using hw
    simp [Place.location]
  | cons n q ih =>
    have hn := hq n List.mem_cons_self
    rcases h.walkFrom_cons hw with ⟨h1, -⟩ | ⟨⟨-, h2⟩, -⟩ | ⟨-, ⟨-, hw⟩ | ⟨hnil, hlast⟩⟩
    · exact absurd h1 hn.2.1
    · exact absurd h2 hn.2.2.1
    · have hih := ih (fun m hm => hq m (List.mem_cons_of_mem _ hm)) hw
      simpa using hih
    · rcases hlast with ⟨-, rfl⟩ | ⟨data, -, rfl⟩ <;> rw [hnil] <;> rfl

theorem LeadsBelow.lookup {r p q} (hp : LeadsBelow fs r p q) (h : fs.LinkFree)
    (hdir : fs.entries[r]? = some .dir) (hq : q ≠ []) :
    fs.lookup p = if pathMax ≤ p.length then .error .ENAMETOOLONG
      else walkFrom fs (walkLinks fs 39) r q := by
  obtain ⟨cs, hcs, hw⟩ := hp.way
  have hne : p ≠ [] := by
    rintro rfl
    have hnil : cs ++ q = [] := hcs.symm
    exact hq (List.append_eq_nil_iff.mp hnil).2
  rw [FileSystem.lookup, cStr_eq_self hp.zero]
  simp only [hne, if_false]
  split_ifs
  · rfl
  · rw [hcs]
    exact h.walkFrom_append hw hdir q

theorem LeadsBelow.location {r p q} (hp : LeadsBelow fs r p q) (h : fs.LinkFree)
    (hdir : fs.entries[r]? = some .dir) (hq : q ≠ []) (hv : ∀ n ∈ q, ValidName n) {pl : Place}
    (hl : fs.lookup p = .ok pl) : pl.location = r ++ q := by
  rw [hp.lookup h hdir hq] at hl
  split_ifs at hl
  exact h.location_of_walkFrom hv hl

theorem LeadsBelow.resolve {r p q data} (hp : LeadsBelow fs r p q) (h : fs.LinkFree)
    (hdir : fs.entries[r]? = some .dir) (he : fs.entries[r ++ q]? = some (.file data)) :
    fs.resolve p = if pathMax ≤ p.length then .error .ENAMETOOLONG else .ok (r ++ q) := by
  have hq : q ≠ [] := by
    rintro rfl
    simp [hdir] at he
  rw [FileSystem.resolve, hp.lookup h hdir hq]
  split_ifs
  · rfl
  · rw [walkFrom_names hdir he]

/-- Where a lookup of the walk's name for `r ++ q` ends: a NUL in the root cuts the name off
behind it, and a name can be too long for a system call. -/
def underRootTarget (root : Bytes) (r q : RealPath) : Except Errno RealPath :=
  if (0 : Byte) ∈ root then .ok r
  else if pathMax ≤ (underRoot root q).length then .error .ENAMETOOLONG
  else .ok (r ++ q)

theorem zero_notMem_joined {q : RealPath} (h : ∀ n ∈ q, ValidName n) : (0 : Byte) ∉ joined q := by
  intro h0
  obtain ⟨n, hn, h0⟩ := List.mem_flatMap.mp h0
  rcases List.mem_cons.mp h0 with h0 | h0
  · exact absurd h0 (by decide)
  · exact (h n hn).2.2.2.1 h0

theorem leadsBelow_underRoot (h : fs.LinkFree) {root : Bytes} {r q : RealPath}
    (hroot : fs.resolve root = .ok r) (hz : (0 : Byte) ∉ root) (hq : q ≠ [])
    (hv : ∀ n ∈ q, ValidName n) : LeadsBelow fs r (underRoot root q) q where
  zero := by
    have hj := zero_notMem_joined hv
    unfold underRoot
    split_ifs
    · simp only [List.mem_append, hz, false_or]
      exact fun h0 => hj (List.mem_of_mem_tail h0)
    · simp [hz, hj]
  way := by
    have hlook := resolve_eq_ok.mp hroot
    have hne : root ≠ [] := by
      rintro rfl
      simp [lookup, cStr] at hlook
    simp only [lookup, cStr_eq_self hz, hne, if_false] at hlook
    split_ifs at hlook
    refine ⟨names root, components_underRoot root (fun n hn => (hv n hn).1) hq, ?_⟩
    have hstart : fs.startDir (underRoot root q) = fs.startDir root := by
      simp only [startDir, isAbsolute_underRoot hne q]
    rw [hstart]
    change walkFrom fs (walkLinks fs 39) (fs.startDir root) (components root) = _ at hlook
    unfold components at hlook
    split_ifs at hlook
    · exact h.walkFrom_dot hlook
    · simpa using hlook

theorem lookup_underRoot_of_zero {root : Bytes} (hz : (0 : Byte) ∈ root) (q : RealPath) :
    fs.lookup (underRoot root q) = fs.lookup root := by
  obtain ⟨t, ht⟩ : ∃ t, underRoot root q = root ++ t := by
    unfold underRoot
    split_ifs
    · exact ⟨_, rfl⟩
    · exact ⟨_, rfl⟩
  rw [ht]
  simp only [lookup, startDir, cStr_append hz t]

theorem LinkFree.resolve_underRoot (h : fs.LinkFree) {root : Bytes} {r q : RealPath} {data : Bytes}
    (hroot : fs.resolve root = .ok r) (hdir : fs.entries[r]? = some .dir)
    (he : fs.entries[r ++ q]? = some (.file data)) :
    fs.resolve (underRoot root q) = underRootTarget root r q := by
  have hv : ∀ n ∈ q, ValidName n := fun n hn => validName_of_mem he n (by simp [hn])
  have hq : q ≠ [] := by
    rintro rfl
    simp [hdir] at he
  unfold underRootTarget
  by_cases hz : (0 : Byte) ∈ root
  · rw [if_pos hz, resolve, lookup_underRoot_of_zero hz]
    exact hroot
  · rw [if_neg hz]
    exact (leadsBelow_underRoot h hroot hz hq hv).resolve h hdir he

/-- `fs'` is `fs` up to what is at `q`, which is a directory in neither. -/
structure ChangedAt (fs fs' : FileSystem) (q : RealPath) : Prop where
  linkFree : fs.LinkFree
  linkFree' : fs'.LinkFree
  cwd : fs'.cwd = fs.cwd
  off : ∀ p : RealPath, p ≠ q → fs'.entries[p]? = fs.entries[p]?
  not_dir : fs.entries[q]? ≠ some .dir
  not_dir' : fs'.entries[q]? ≠ some .dir

variable {fs' : FileSystem} {q : RealPath}

theorem ChangedAt.symm (h : ChangedAt fs fs' q) : ChangedAt fs' fs q :=
  ⟨h.linkFree', h.linkFree, h.cwd.symm, fun p hp => (h.off p hp).symm, h.not_dir', h.not_dir⟩

theorem changedAt_set (h : fs.LinkFree) (hq : fs.CanSet q) (data : Bytes) :
    ChangedAt fs (fs.set q (.file data)) q where
  linkFree := h
  linkFree' := h.set q (by simp)
  cwd := cwd_set fs q _
  off p hp := by rw [entries_set hq, if_neg hp]
  not_dir := hq.2.2
  not_dir' := by
    rw [entries_set hq, if_pos rfl]
    simp

theorem changedAt_remove (h : fs.LinkFree) (hq : fs.entries[q]? ≠ some .dir) :
    ChangedAt fs (fs.remove q) q where
  linkFree := h
  linkFree' := h.remove q
  cwd := cwd_remove fs q
  off p hp := by rw [entries_remove hq, if_neg hp]
  not_dir := hq
  not_dir' := by
    rw [entries_remove hq, if_pos rfl]
    simp

theorem ChangedAt.dir (h : ChangedAt fs fs' q) {p : RealPath} (hp : fs.entries[p]? = some .dir) :
    fs'.entries[p]? = some .dir := by
  rw [h.off p (ne_of_dir hp h.not_dir), hp]

/-- The location is a file in `fs'` too if it is one in `fs`. -/
def StaysFile (fs fs' : FileSystem) (p : RealPath) : Prop :=
  ∀ data, fs.entries[p]? = some (.file data) → ∃ data', fs'.entries[p]? = some (.file data')

theorem ChangedAt.staysFile (h : ChangedAt fs fs' q) {p : RealPath} (hp : p ≠ q) :
    StaysFile fs fs' p := fun data hd => ⟨data, by rw [h.off p hp, hd]⟩

/-- A lookup that ended at the place ends at `p` in `fs'`: at the same directory or file, or at the
file that is now where an entry was missing. -/
def EndsAt (fs fs' : FileSystem) (p : RealPath) : Place → Prop
  | .found p' => p = p' ∧ StaysFile fs fs' p
  | .missing d n => p = d ++ [n] ∧ ∃ data, fs'.entries[p]? = some (.file data)

/-- Up to its last name a lookup meets directories, and these stay. -/
theorem ChangedAt.walkFrom (h : ChangedAt fs fs' q)
    {follow follow' : RealPath → List Bytes → Except Errno Place} {cur p : RealPath}
    {cs : List Bytes} {pl : Place} (hend : EndsAt fs fs' p pl)
    (hw : FileSystem.walkFrom fs follow cur cs = .ok pl) :
    FileSystem.walkFrom fs' follow' cur cs = .ok (.found p) := by
  induction cs generalizing cur with
  | nil =>
    obtain rfl : Place.found cur = pl := Except.ok.inj hw
    rw [FileSystem.walkFrom, hend.1]
  | cons c cs ih =>
    rw [FileSystem.walkFrom]
    rcases h.linkFree.walkFrom_cons hw with
      ⟨h1, hw⟩ | ⟨⟨h1, h2⟩, hw⟩ | ⟨⟨h1, h2, h3⟩, ⟨he, hw⟩ | ⟨hcs, hlast⟩⟩
    · rw [if_pos h1]
      exact ih hw
    · rw [if_neg h1, if_pos h2]
      exact ih hw
    · rw [if_neg h1, if_neg h2, if_neg h3]
      simp only [h.dir he]
      exact ih hw
    · rw [if_neg h1, if_neg h2, if_neg h3]
      have hfile : p = cur ++ [c] ∧ ∃ data, fs'.entries[p]? = some (.file data) := by
        obtain ⟨-, rfl⟩ | ⟨data, he, rfl⟩ := hlast
        · exact hend
        · obtain ⟨rfl, hstays⟩ := hend
          exact ⟨rfl, hstays data he⟩
      obtain ⟨rfl, data, hdata⟩ := hfile
      simp [hdata, hcs]

theorem ChangedAt.lookup (h : ChangedAt fs fs' q) {p : Bytes} {t : RealPath} {pl : Place}
    (hl : fs.lookup p = .ok pl) (hend : EndsAt fs fs' t pl) : fs'.lookup p = .ok (.found t) := by
  simp only [FileSystem.lookup, startDir, h.cwd] at hl ⊢
  split_ifs at hl ⊢
  · exact h.walkFrom hend hl
  · exact h.walkFrom hend hl

theorem ChangedAt.resolve (h : ChangedAt fs fs' q) {p : Bytes} {t : RealPath} (ht : StaysFile fs fs' t)
    (hr : fs.resolve p = .ok t) : fs'.resolve p = .ok t :=
  resolve_eq_ok.mpr (h.lookup (resolve_eq_ok.mp hr) ⟨rfl, ht⟩)

end FileSystem
end SemanticSearch
