import SemanticSearch.FileSystem

namespace SemanticSearch.FileSystem

variable {fs : FileSystem}

/-- A component that a C string can contain. -/
def Askable (c : Bytes) : Prop := PlainName c ∧ (0 : Byte) ∉ c

theorem zero_notMem_cStr (p : Bytes) : (0 : Byte) ∉ cStr p := by
  intro h
  simpa using List.mem_takeWhile_imp h

theorem askable_of_mem_components {p c : Bytes} (h : c ∈ components (cStr p)) : Askable c := by
  rcases List.mem_append.mp h with h | h
  · refine ⟨plainName_of_mem_names h, fun h0 => zero_notMem_cStr p ?_⟩
    exact (mem_of_mem_splitOn (List.mem_filter.mp h).1 h0).1
  · split_ifs at h
    · rw [List.mem_singleton.mp h]
      exact ⟨by decide, by decide⟩
    · simp at h

theorem dir_dropLast {q : RealPath} (h : fs.entries[q]? = some .dir) :
    fs.entries[q.dropLast]? = some .dir := by
  rcases List.eq_nil_or_concat q with rfl | ⟨d, n, rfl⟩
  · exact h
  · rw [List.concat_eq_append] at h
    simpa using fs.parent_dir d n _ h

theorem dir_startDir (fs : FileSystem) (p : Bytes) : fs.entries[fs.startDir p]? = some .dir := by
  unfold startDir
  split_ifs
  · exact fs.root_dir
  · exact fs.cwd_dir

/-- What is true of every place a lookup ends at. -/
def Sound (fs : FileSystem) : Place → Prop
  | .found q => fs.entries[q]? = some .dir ∨ ∃ data, fs.entries[q]? = some (.file data)
  | .missing d n => fs.entries[d]? = some .dir ∧ fs.entries[d ++ [n]]? = none ∧ ValidName n

theorem walkFrom_sound {follow : RealPath → List Bytes → Except Errno Place}
    (hf : ∀ cur cs pl, fs.entries[cur]? = some .dir → (∀ c ∈ cs, Askable c) →
      follow cur cs = .ok pl → fs.Sound pl)
    {cs : List Bytes} {cur : RealPath} {pl : Place} (hcur : fs.entries[cur]? = some .dir)
    (hcs : ∀ c ∈ cs, Askable c) (h : walkFrom fs follow cur cs = .ok pl) : fs.Sound pl := by
  induction cs generalizing cur with
  | nil =>
    obtain rfl : Place.found cur = pl := by simpa [walkFrom] using h
    exact Or.inl hcur
  | cons c cs ih =>
    have hc : Askable c := hcs c List.mem_cons_self
    have hcs' : ∀ d ∈ cs, Askable d := fun d hd => hcs d (List.mem_cons_of_mem _ hd)
    by_cases h1 : c = dot
    · rw [walkFrom, if_pos h1] at h
      exact ih hcur hcs' h
    by_cases h2 : c = dotdot
    · rw [walkFrom, if_neg h1, if_pos h2] at h
      exact ih (dir_dropLast hcur) hcs' h
    by_cases h3 : nameMax < c.length
    · simp [walkFrom, h1, h2, h3] at h
    rw [walkFrom, if_neg h1, if_neg h2, if_neg h3] at h
    -- a name: nothing is there, or a file, a directory, a link
    rcases he : fs.entries[cur ++ [c]]? with _ | ⟨data | _ | t⟩ <;> simp only [he] at h
    · split_ifs at h
      obtain rfl : Place.missing cur c = pl := by simpa using h
      exact ⟨hcur, he, hc.1, h1, h2, hc.2, by omega⟩
    · split_ifs at h
      obtain rfl : Place.found (cur ++ [c]) = pl := by simpa using h
      exact Or.inr ⟨data, he⟩
    · exact ih he hcs' h
    · split_ifs at h with h4 h5
      · refine hf _ _ _ fs.root_dir (fun d hd => ?_) h
        exact (List.mem_append.mp hd).elim askable_of_mem_components (hcs' d)
      · refine hf _ _ _ hcur (fun d hd => ?_) h
        exact (List.mem_append.mp hd).elim askable_of_mem_components (hcs' d)

theorem walkLinks_sound (k : ℕ) {cs : List Bytes} {cur : RealPath} {pl : Place}
    (hcur : fs.entries[cur]? = some .dir) (hcs : ∀ c ∈ cs, Askable c)
    (h : walkLinks fs k cur cs = .ok pl) : fs.Sound pl := by
  induction k generalizing cur cs pl with
  | zero => exact walkFrom_sound (fun _ _ _ _ _ h => by simp at h) hcur hcs h
  | succ k ih => exact walkFrom_sound (fun _ _ _ h1 h2 h3 => ih h1 h2 h3) hcur hcs h

theorem walkLinks_nil (fs : FileSystem) (k : ℕ) (cur : RealPath) :
    walkLinks fs k cur [] = .ok (.found cur) := by
  cases k <;> rfl

theorem lookup_sound {p : Bytes} {pl : Place} (h : fs.lookup p = .ok pl) : fs.Sound pl := by
  simp only [lookup] at h
  split_ifs at h
  exact walkLinks_sound linkMax (dir_startDir fs _) (fun _ => askable_of_mem_components) h

/-- What a lookup that ends at a regular file says about its last component: the rest leads
to a directory, which holds the file or a link under that name. -/
def EndsInEntry (fs : FileSystem) (walk : List Bytes → Except Errno Place) : Prop :=
  ∀ init n q data, walk (init ++ [n]) = .ok (.found q) → fs.entries[q]? = some (.file data) →
    n ≠ dot ∧ n ≠ dotdot ∧ ∃ d, walk init = .ok (.found d) ∧
      ∃ e, fs.entries[d ++ [n]]? = some e ∧ e ≠ .dir

theorem walkFrom_endsInEntry {follow : RealPath → List Bytes → Except Errno Place}
    (hf : ∀ cur, fs.entries[cur]? = some .dir → EndsInEntry fs (follow cur)) {cur : RealPath}
    (hcur : fs.entries[cur]? = some .dir) : EndsInEntry fs (walkFrom fs follow cur) := by
  intro init n q data h hq
  induction init generalizing cur with
  | nil =>
    -- no file is a directory, so the walk does not end with `.` or `..`
    have hdir : ∀ q', fs.entries[q']? = some .dir → q' ≠ q := fun q' hd he => by
      simp [← he, hd] at hq
    by_cases h1 : n = dot
    · exact absurd (by simpa [walkFrom, h1] using h) (hdir cur hcur)
    by_cases h2 : n = dotdot
    · have hne := hdir _ (dir_dropLast hcur)
      simp [walkFrom, h2, hne, show dotdot ≠ dot by decide] at h
    refine ⟨h1, h2, cur, rfl, ?_⟩
    rcases he : fs.entries[cur ++ [n]]? with _ | ⟨data' | _ | t⟩
    · by_cases h3 : nameMax < n.length <;> simp [walkFrom, h1, h2, h3, he] at h
    · exact ⟨_, rfl, by simp⟩
    · by_cases h3 : nameMax < n.length <;> simp [walkFrom, h1, h2, h3, he] at h
      exact absurd h (hdir _ he)
    · exact ⟨_, rfl, by simp⟩
  | cons c cs ih =>
    rw [List.cons_append, walkFrom] at h
    by_cases h1 : c = dot
    · rw [if_pos h1] at h
      simpa only [walkFrom, if_pos h1] using ih hcur h
    by_cases h2 : c = dotdot
    · rw [if_neg h1, if_pos h2] at h
      simpa only [walkFrom, if_neg h1, if_pos h2] using ih (dir_dropLast hcur) h
    by_cases h3 : nameMax < c.length
    · simp [h1, h2, h3] at h
    rw [if_neg h1, if_neg h2, if_neg h3] at h
    simp only [walkFrom, if_neg h1, if_neg h2, if_neg h3]
    rcases he : fs.entries[cur ++ [c]]? with _ | ⟨data' | _ | t⟩ <;> simp only [he] at h ⊢
    · simp at h
    · simp at h
    · exact ih he h
    · split_ifs at h ⊢ with h4 h5
      · exact hf [] fs.root_dir (components (cStr t) ++ cs) n q data (by simpa using h) hq
      · exact hf cur hcur (components (cStr t) ++ cs) n q data (by simpa using h) hq

theorem walkLinks_endsInEntry (k : ℕ) {cur : RealPath} (hcur : fs.entries[cur]? = some .dir) :
    EndsInEntry fs (walkLinks fs k cur) := by
  induction k generalizing cur with
  | zero => exact walkFrom_endsInEntry (fun _ _ _ _ _ _ h => by simp at h) hcur
  | succ k ih => exact walkFrom_endsInEntry (fun _ h => ih h) hcur

theorem resolve_eq_ok {p : Bytes} {q : RealPath} :
    fs.resolve p = .ok q ↔ fs.lookup p = .ok (.found q) := by
  unfold resolve
  rcases fs.lookup p with e | ⟨q' | ⟨d, n⟩⟩ <;> simp

theorem resolve_of_missing {p d n : _} (h : fs.lookup p = .ok (.missing d n)) :
    fs.resolve p = .error .ENOENT := by
  simp [resolve, h]

theorem entry_of_resolve {p : Bytes} {q : RealPath} (h : fs.resolve p = .ok q) :
    fs.entries[q]? = some .dir ∨ ∃ data, fs.entries[q]? = some (.file data) :=
  lookup_sound (resolve_eq_ok.mp h)

theorem status_of_resolve {p : Bytes} {q : RealPath} (h : fs.resolve p = .ok q) :
    fs.status p = .ok fs.entries[q]? := by
  simp [status, h]

theorem exists_of_resolve {p : Bytes} {q : RealPath} (h : fs.resolve p = .ok q) :
    fs.exists p = .ok true := by
  rcases entry_of_resolve h with he | ⟨data, he⟩ <;>
    simp [FileSystem.exists, status_of_resolve h, he]

theorem status_of_missing {p d n : _} (h : fs.lookup p = .ok (.missing d n)) :
    fs.status p = .ok none := by
  simp [status, resolve_of_missing h]

theorem isRegularFile_eq_true {p : Bytes} :
    fs.isRegularFile p = .ok true ↔
      ∃ q data, fs.resolve p = .ok q ∧ fs.entries[q]? = some (.file data) := by
  constructor
  · intro h
    rcases hr : fs.resolve p with e | q
    · cases e <;> simp [isRegularFile, status, hr] at h <;> cases h
    · rcases entry_of_resolve hr with he | ⟨data, he⟩
      · rw [isRegularFile, status_of_resolve hr, he] at h
        cases h
      · exact ⟨q, data, rfl, he⟩
  · rintro ⟨q, data, hr, he⟩
    rw [isRegularFile, status_of_resolve hr, he]
    rfl

theorem resolve_of_status {p : Bytes} {e : Entry} (h : fs.status p = .ok (some e)) :
    ∃ q, fs.resolve p = .ok q := by
  rcases hr : fs.resolve p with e' | q
  · cases e' <;> simp [status, hr] at h
  · exact ⟨q, rfl⟩

theorem weaklyCanonical_of_resolve {p : Bytes} {q : RealPath} (h : fs.resolve p = .ok q) :
    fs.weaklyCanonical p = .ok (.real q) := by
  rcases entry_of_resolve h with he | ⟨data, he⟩ <;>
    simp only [weaklyCanonical, status_of_resolve h, he, canonical, h] <;> rfl

theorem read_of_file {p data : Bytes} {q : RealPath} (h : fs.resolve p = .ok q)
    (he : fs.entries[q]? = some (.file data)) : fs.read p = some data := by
  simp [read, h, he]

theorem entryPath_of_file {p data : Bytes} {q : RealPath} (h : fs.resolve p = .ok q)
    (he : fs.entries[q]? = some (.file data)) :
    ∃ d n e, fs.entryPath p = .ok (d ++ [n]) ∧ fs.entries[d ++ [n]]? = some e ∧ e ≠ .dir := by
  rw [resolve_eq_ok] at h
  simp only [lookup] at h
  split_ifs at h with h0 h1
  rcases List.eq_nil_or_concat (components (cStr p)) with hc | ⟨init, n, hc⟩
  · rw [hc] at h
    obtain rfl : fs.startDir (cStr p) = q := by simpa [walkLinks_nil] using h
    simp [dir_startDir] at he
  · rw [List.concat_eq_append] at hc
    rw [hc] at h
    obtain ⟨hn1, hn2, d, hd, e, hde, hne⟩ :=
      walkLinks_endsInEntry linkMax (dir_startDir fs _) init n q data h he
    refine ⟨d, n, e, ?_, hde, hne⟩
    simp only [entryPath, if_neg h1, hc, List.getLast?_concat, List.dropLast_concat, hd,
      hn1, hn2]
    rfl

theorem unlink_of_file {p data : Bytes} {q : RealPath} (h : fs.resolve p = .ok q)
    (he : fs.entries[q]? = some (.file data)) :
    ∃ d n, fs.entryPath p = .ok (d ++ [n]) ∧ fs.entries[d ++ [n]]? ≠ some .dir ∧
      fs.entries[d ++ [n]]? ≠ none ∧ fs.unlink p = .ok (fs.remove (d ++ [n])) := by
  obtain ⟨d, n, e, hp, hde, hne⟩ := entryPath_of_file h he
  refine ⟨d, n, hp, by simpa [hde] using hne, by simp [hde], ?_⟩
  cases e with
  | dir => exact absurd rfl hne
  | file data' => simp only [unlink, hp, bind, Except.bind, hde]; rfl
  | link t => simp only [unlink, hp, bind, Except.bind, hde]; rfl

theorem validName_of_mem {q : RealPath} {e : Entry} (h : fs.entries[q]? = some e) :
    ∀ n ∈ q, ValidName n := by
  induction q using List.reverseRecOn generalizing e with
  | nil => simp
  | append_singleton d n ih =>
    intro m hm
    rcases List.mem_append.mp hm with hm | hm
    · exact ih (fs.parent_dir d n e h) m hm
    · rw [List.mem_singleton.mp hm]
      exact fs.valid_name d n e h

theorem plainName_of_entry {q : RealPath} {e : Entry} (h : fs.entries[q]? = some e) :
    ∀ n ∈ q, PlainName n := fun n hn => (validName_of_mem h n hn).1

theorem plainName_of_resolve {p : Bytes} {q : RealPath} (h : fs.resolve p = .ok q) :
    ∀ n ∈ q, PlainName n := by
  rcases entry_of_resolve h with he | ⟨data, he⟩ <;> exact plainName_of_entry he

theorem plainName_lexicallyNormal {base : RealPath} {cs : List Bytes}
    (hb : ∀ n ∈ base, PlainName n) (hcs : ∀ c ∈ cs, PlainName c) :
    ∀ n ∈ lexicallyNormal base cs, PlainName n := by
  induction cs generalizing base with
  | nil => exact hb
  | cons c cs ih =>
    refine ih ?_ fun d hd => hcs d (List.mem_cons_of_mem _ hd)
    intro n hn
    dsimp only at hn
    split_ifs at hn
    · exact hb n hn
    · exact hb n (List.dropLast_subset base hn)
    · rcases List.mem_append.mp hn with hn | hn
      · exact hb n hn
      · rw [List.mem_singleton.mp hn]
        exact hcs c List.mem_cons_self

theorem existingPrefix_append (present : List Bytes → Bool) (found cs : List Bytes) :
    (existingPrefix present found cs).1 ++ (existingPrefix present found cs).2 = found ++ cs := by
  induction cs generalizing found with
  | nil => simp [existingPrefix]
  | cons c cs ih =>
    unfold existingPrefix
    split_ifs
    · simp [ih]
    · rfl

theorem existingPrefix_present (present : List Bytes → Bool) (found cs : List Bytes) :
    (existingPrefix present found cs).1 = found ∨
      present (existingPrefix present found cs).1 = true := by
  induction cs generalizing found with
  | nil => exact Or.inl rfl
  | cons c cs ih =>
    unfold existingPrefix
    split_ifs with hp
    · rcases ih (found ++ [c]) with h | h
      · exact Or.inr (by rw [h, hp])
      · exact Or.inr h
    · exact Or.inl rfl

theorem plainName_components {p c : Bytes} (h : c ∈ components p) : PlainName c := by
  rcases List.mem_append.mp h with h | h
  · exact plainName_of_mem_names h
  · split_ifs at h
    · rw [List.mem_singleton.mp h]
      decide
    · simp at h

/-- The split `weakly_canonical` makes of a path: the components that exist, and the rest. -/
def splitExisting (fs : FileSystem) (p : Bytes) : List Bytes × List Bytes :=
  existingPrefix (fun cs => (fs.resolve (leadingText p cs)).toBool) [] (components p)

theorem plainName_splitExisting (fs : FileSystem) (p : Bytes) :
    ∀ c ∈ (fs.splitExisting p).2, PlainName c := fun c hc => plainName_components <| by
  rw [← List.nil_append (components p), ← existingPrefix_append]
  exact List.mem_append_right _ hc

theorem resolve_splitExisting {p : Bytes} (h0 : (fs.splitExisting p).1 ≠ []) :
    ∃ q, fs.resolve (leadingText p (fs.splitExisting p).1) = .ok q := by
  have hp := (existingPrefix_present (fun cs => (fs.resolve (leadingText p cs)).toBool) []
    (components p)).resolve_left h0
  change (fs.resolve (leadingText p (fs.splitExisting p).1)).toBool = true at hp
  rcases hc : fs.resolve (leadingText p (fs.splitExisting p).1) with e | q
  · simp [hc, Except.toBool] at hp
  · exact ⟨q, rfl⟩

/-- The three ways to make an absent path canonical: behind a part that exists, from `/`, and
without looking at anything. -/
theorem weaklyCanonical_of_absent {p : Bytes} (hs : fs.status p = .ok none) :
    (∃ q, fs.resolve (leadingText p (fs.splitExisting p).1) = .ok q ∧
        fs.weaklyCanonical p = .ok (.real (lexicallyNormal q (fs.splitExisting p).2))) ∨
      (isAbsolute p = true ∧
        fs.weaklyCanonical p = .ok (.real (lexicallyNormal [] (fs.splitExisting p).2))) ∨
      (isAbsolute p = false ∧
        fs.weaklyCanonical p = .ok (.relative (relativeNormal (fs.splitExisting p).2))) := by
  rcases eq_or_ne (fs.splitExisting p).1 [] with h0 | h0
  · right
    rcases ha : isAbsolute p with _ | _
    · refine Or.inr ⟨rfl, ?_⟩
      simp only [splitExisting] at h0 ⊢
      simp only [weaklyCanonical, hs, bind, Except.bind, h0, ha]
      rfl
    · refine Or.inl ⟨rfl, ?_⟩
      simp only [splitExisting] at h0 ⊢
      simp only [weaklyCanonical, hs, bind, Except.bind, h0, ha]
      rfl
  · left
    obtain ⟨q, hq⟩ := resolve_splitExisting h0
    refine ⟨q, hq, ?_⟩
    simp only [splitExisting] at h0 hq ⊢
    simp only [weaklyCanonical, hs, bind, Except.bind, if_pos h0, canonical, hq]
    rfl

theorem plainName_weaklyCanonical {p : Bytes} {t : RealPath}
    (h : fs.weaklyCanonical p = .ok (.real t)) : ∀ n ∈ t, PlainName n := by
  rcases hs : fs.status p with e | _ | e
  · rw [weaklyCanonical, hs] at h
    cases h
  · have hrest := plainName_splitExisting fs p
    rcases weaklyCanonical_of_absent hs with ⟨q, hq, hw⟩ | ⟨-, hw⟩ | ⟨-, hw⟩
    · obtain rfl := WeakPath.real.inj (Except.ok.inj (hw.symm.trans h))
      exact plainName_lexicallyNormal (plainName_of_resolve hq) hrest
    · obtain rfl := WeakPath.real.inj (Except.ok.inj (hw.symm.trans h))
      exact plainName_lexicallyNormal (by simp) hrest
    · cases hw.symm.trans h
  · obtain ⟨q, hq⟩ := resolve_of_status hs
    obtain rfl := WeakPath.real.inj (Except.ok.inj ((weaklyCanonical_of_resolve hq).symm.trans h))
    exact plainName_of_resolve hq

theorem plainName_relativeNormal {cs : List Bytes} (hcs : ∀ c ∈ cs, PlainName c) :
    ∀ n ∈ relativeNormal cs, PlainName n := by
  have hfold : ∀ (base : List Bytes), (∀ n ∈ base, PlainName n) → ∀ n ∈ cs.foldl (fun q c =>
      if c = dot then q
      else if c = dotdot ∧ q ≠ [] ∧ q.getLast? ≠ some dotdot then q.dropLast
      else q ++ [c]) base, PlainName n := by
    induction cs with
    | nil => exact fun base hb => hb
    | cons c cs ih =>
      intro base hb
      refine ih (fun d hd => hcs d (List.mem_cons_of_mem _ hd)) _ ?_
      intro n hn
      dsimp only at hn
      split_ifs at hn
      · exact hb n hn
      · exact hb n (List.dropLast_subset base hn)
      · rcases List.mem_append.mp hn with hn | hn
        · exact hb n hn
        · rw [List.mem_singleton.mp hn]
          exact hcs c List.mem_cons_self
  simp only [relativeNormal]
  split_ifs
  · intro n hn
    rw [List.mem_singleton.mp hn]
    decide
  · exact hfold [] (by simp)

theorem head?_of_relative {p : Bytes} {cs : List Bytes}
    (h : fs.weaklyCanonical p = .ok (.relative cs)) :
    (WeakPath.relative cs).string.head? ≠ some slash := by
  have hcs : ∀ n ∈ cs, PlainName n := by
    rcases hs : fs.status p with e | _ | e
    · rw [weaklyCanonical, hs] at h
      cases h
    · rcases weaklyCanonical_of_absent hs with ⟨q, hq, hw⟩ | ⟨-, hw⟩ | ⟨-, hw⟩
      · cases hw.symm.trans h
      · cases hw.symm.trans h
      · obtain rfl := WeakPath.relative.inj (Except.ok.inj (hw.symm.trans h))
        exact plainName_relativeNormal (plainName_splitExisting fs p)
    · obtain ⟨q, hq⟩ := resolve_of_status hs
      cases (weaklyCanonical_of_resolve hq).symm.trans h
  rcases cs with _ | ⟨c, cs⟩
  · simp [WeakPath.string]
  · obtain ⟨h0, hsl⟩ := hcs c List.mem_cons_self
    obtain ⟨a, c, rfl⟩ := List.exists_cons_of_ne_nil h0
    have hne : a ≠ slash := fun he => hsl (he ▸ List.mem_cons_self)
    rcases cs with _ | ⟨d, cs⟩
    · simpa [WeakPath.string] using hne
    · simpa [WeakPath.string] using hne

theorem canSet_of_file {q : RealPath} {data : Bytes} (h : fs.entries[q]? = some (.file data)) :
    fs.CanSet q := by
  rcases List.eq_nil_or_concat q with rfl | ⟨d, n, rfl⟩
  · simp [fs.root_dir] at h
  · rw [List.concat_eq_append] at h ⊢
    exact ⟨by simpa using fs.valid_name d n _ h, by simpa using fs.parent_dir d n _ h,
      by simp [h]⟩

theorem canSet_of_missing {p d n : _} (h : fs.lookup p = .ok (.missing d n)) :
    fs.CanSet (d ++ [n]) := by
  obtain ⟨hd, hn, hv⟩ := lookup_sound h
  exact ⟨by simpa using hv, by simpa using hd, by simp [hn]⟩

theorem openTarget_eq_ok {p : Bytes} {q : RealPath} :
    fs.openTarget p = .ok q ↔
      (∃ d n, fs.lookup p = .ok (.missing d n) ∧ q = d ++ [n]) ∨
      ∃ data, fs.resolve p = .ok q ∧ fs.entries[q]? = some (.file data) := by
  unfold openTarget
  rcases hl : fs.lookup p with e | ⟨q' | ⟨d, n⟩⟩
  · simp [resolve, hl]
  · have hq' : fs.resolve p = .ok q' := resolve_eq_ok.mpr hl
    rcases entry_of_resolve hq' with he | ⟨data, he⟩
    · simp only [he, ↓reduceIte, reduceCtorEq, hq', false_iff, not_or]
      refine ⟨by simp, ?_⟩
      rintro ⟨data, h, hf⟩
      obtain rfl : q' = q := by simpa using h
      simp [he] at hf
    · simp only [he, hq']
      constructor
      · intro h
        obtain rfl : q' = q := by simpa using h
        exact Or.inr ⟨data, rfl, he⟩
      · rintro (⟨d, n, h, -⟩ | ⟨data', h, -⟩)
        · simp at h
        · simpa using h
  · constructor
    · intro h
      exact Or.inl ⟨d, n, rfl, by simpa using h.symm⟩
    · rintro (⟨d', n', h, rfl⟩ | ⟨data, h, -⟩)
      · simp_all
      · simp [resolve, hl] at h

theorem canSet_of_openTarget {p : Bytes} {q : RealPath} (h : fs.openTarget p = .ok q) :
    fs.CanSet q := by
  rcases openTarget_eq_ok.mp h with ⟨d, n, hl, rfl⟩ | ⟨data, -, he⟩
  · exact canSet_of_missing hl
  · exact canSet_of_file he

/-- Where a lookup ends once there is a file at `q`. -/
def Place.filled (q : RealPath) : Place → Place
  | .found q' => .found q'
  | .missing d n => if d ++ [n] = q then .found q else .missing d n

theorem walkFrom_set {q : RealPath} {data : Bytes} (hset : fs.CanSet q)
    (hfile : ∀ e, fs.entries[q]? = some e → ∃ old, e = .file old)
    {follow follow' : RealPath → List Bytes → Except Errno Place}
    (hf : ∀ cur cs pl, follow cur cs = .ok pl → follow' cur cs = .ok (pl.filled q))
    {cs : List Bytes} {cur : RealPath} {pl : Place} (h : walkFrom fs follow cur cs = .ok pl) :
    walkFrom (fs.set q (.file data)) follow' cur cs = .ok (pl.filled q) := by
  induction cs generalizing cur with
  | nil =>
    obtain rfl : Place.found cur = pl := by simpa [walkFrom] using h
    rfl
  | cons c cs ih =>
    by_cases h1 : c = dot
    · rw [walkFrom, if_pos h1] at h ⊢
      exact ih h
    by_cases h2 : c = dotdot
    · rw [walkFrom, if_neg h1, if_pos h2] at h ⊢
      exact ih h
    by_cases h3 : nameMax < c.length
    · simp [walkFrom, h1, h2, h3] at h
    rw [walkFrom, if_neg h1, if_neg h2, if_neg h3] at h ⊢
    rw [entries_set hset]
    by_cases hq : cur ++ [c] = q
    · -- the place of the file is the end of the walk before and after
      rw [if_pos hq]
      rcases he : fs.entries[cur ++ [c]]? with _ | e
      · simp only [he] at h ⊢
        split_ifs at h with h4
        obtain rfl : Place.missing cur c = pl := by simpa using h
        simp [h4, Place.filled, hq]
      · obtain ⟨old, rfl⟩ := hfile e (hq ▸ he)
        simp only [he] at h ⊢
        split_ifs at h with h4
        obtain rfl : Place.found (cur ++ [c]) = pl := by simpa using h
        simp [h4, Place.filled]
    · rw [if_neg hq]
      rcases he : fs.entries[cur ++ [c]]? with _ | ⟨data' | _ | t⟩ <;> simp only [he] at h ⊢
      · split_ifs at h with h4
        obtain rfl : Place.missing cur c = pl := by simpa using h
        simp [h4, Place.filled, hq]
      · split_ifs at h with h4
        obtain rfl : Place.found (cur ++ [c]) = pl := by simpa using h
        simp [h4, Place.filled]
      · exact ih h
      · split_ifs at h ⊢ with h4 h5
        · exact hf _ _ _ h
        · exact hf _ _ _ h

theorem lookup_set {q : RealPath} {data p : Bytes} {pl : Place} (hset : fs.CanSet q)
    (hfile : ∀ e, fs.entries[q]? = some e → ∃ old, e = .file old) (h : fs.lookup p = .ok pl) :
    (fs.set q (.file data)).lookup p = .ok (pl.filled q) := by
  have hlinks : ∀ k cur cs pl, walkLinks fs k cur cs = .ok pl →
      walkLinks (fs.set q (.file data)) k cur cs = .ok (pl.filled q) := by
    intro k
    induction k with
    | zero => exact fun cur cs pl => walkFrom_set hset hfile (by simp)
    | succ k ih => exact fun cur cs pl => walkFrom_set hset hfile ih
  simp only [lookup] at h ⊢
  split_ifs at h ⊢
  have hstart : (fs.set q (.file data)).startDir (cStr p) = fs.startDir (cStr p) := by
    simp [startDir]
  rw [hstart]
  exact hlinks linkMax _ _ _ h

theorem resolve_set_openTarget {p : Bytes} {q : RealPath} (h : fs.openTarget p = .ok q)
    (data : Bytes) : (fs.set q (.file data)).resolve p = .ok q := by
  have hset := canSet_of_openTarget h
  rw [resolve_eq_ok]
  rcases openTarget_eq_ok.mp h with ⟨d, n, hl, rfl⟩ | ⟨old, hq, he⟩
  · obtain ⟨-, hnone, -⟩ := lookup_sound hl
    have hplace : (fs.set (d ++ [n]) (.file data)).lookup p = .ok ((Place.missing d n).filled (d ++ [n])) :=
      lookup_set hset (by simp [hnone]) hl
    simpa [Place.filled] using hplace
  · have hfile : ∀ e, fs.entries[q]? = some e → ∃ old, e = .file old := fun e hq' =>
      ⟨old, Option.some.inj (hq'.symm.trans he)⟩
    exact lookup_set hset hfile (resolve_eq_ok.mp hq)

theorem read_set_openTarget {p : Bytes} {q : RealPath} (h : fs.openTarget p = .ok q)
    (data : Bytes) : (fs.set q (.file data)).read p = some data := by
  apply read_of_file (resolve_set_openTarget h data)
  rw [entries_set (canSet_of_openTarget h), if_pos rfl]

def smallTree : FileSystem :=
  let fs := ((FileSystem.empty.set [text "srv"] .dir).set [text "srv", text "root"] .dir).set
    [text "srv", text "root", text "a"] (.file (text "hello"))
  { fs with cwd := [text "srv"], cwd_dir := by decide +kernel }

end SemanticSearch.FileSystem
