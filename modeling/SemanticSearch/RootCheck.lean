import SemanticSearch.StaticEffects

namespace SemanticSearch

open FileSystem

variable {fs : FileSystem} {filesRoot relpath : Bytes}

/-- What the check admits: locations at or below the root. The root `/` admits itself only,
since the text `/` ends in the separator the check asks for once more. -/
def Admitted (r t : RealPath) : Prop := r <+: t ∧ (r = [] → t = [])

instance (r t : RealPath) : Decidable (Admitted r t) := inferInstanceAs (Decidable (_ ∧ _))

theorem textCheck_iff {r t : RealPath} (hr : ∀ n ∈ r, PlainName n) (ht : ∀ n ∈ t, PlainName n) :
    ((pathString t).length < (pathString r).length ∨ ¬ pathString r <+: pathString t ∨
      ((pathString r).length < (pathString t).length ∧
        (pathString t)[(pathString r).length]? ≠ some slash)) ↔ ¬ Admitted r t := by
  -- the root directory alone has a text that ends in the separator
  rcases eq_or_ne t [] with rfl | ht0
  · cases r with
    | nil => simp [Admitted, pathString]
    | cons n r =>
      have hn : n ≠ [] := (hr n List.mem_cons_self).1
      have : 0 < n.length := List.length_pos_iff.mpr hn
      simp [Admitted, pathString]
      omega
  rcases eq_or_ne r [] with rfl | hr0
  · obtain ⟨n, t, rfl⟩ := List.exists_cons_of_ne_nil ht0
    obtain ⟨c, cs, rfl⟩ := List.exists_cons_of_ne_nil (ht n List.mem_cons_self).1
    have hc : slash ≠ c := fun h => (ht _ List.mem_cons_self).2 (h ▸ List.mem_cons_self)
    simp [Admitted, pathString, hc.symm]
  · simp only [pathString, if_neg ht0, Admitted, hr0, if_false, false_implies, and_true]
    constructor
    · rintro h ⟨t', rfl⟩
      rw [joined_append] at h
      cases t' with
      | nil => simp at h
      | cons n t' =>
        rcases h with hlt | hnot | ⟨-, hsep⟩
        · rw [List.length_append] at hlt
          omega
        · exact hnot (List.prefix_append _ _)
        · rw [List.getElem?_append_right (Nat.le_refl _), Nat.sub_self, joined_cons] at hsep
          exact hsep rfl
    · intro h
      by_cases hp : joined r <+: joined t
      · obtain ⟨rest, hrest⟩ := hp
        right; right
        -- the text goes on inside a name, which the separator test sees
        have hcut : ¬ StartsCut rest := fun hc => h (prefix_of_joined_eq hr ht hc hrest.symm)
        have hne : rest ≠ [] := fun h0 => hcut (Or.inl h0)
        have : 0 < rest.length := List.length_pos_iff.mpr hne
        rw [← hrest]
        refine ⟨by simp; omega, fun hs => hcut (Or.inr ?_)⟩
        rw [List.getElem?_append_right (le_refl _), Nat.sub_self] at hs
        rwa [List.head?_eq_getElem?]
      · exact Or.inr (Or.inl hp)

theorem checkWithinRoot_eq {r t : RealPath} (h0 : filesRoot ≠ [])
    (hr : fs.canonical filesRoot = .ok r) (ht : fs.weaklyCanonical relpath = .ok (.real t)) :
    checkWithinRoot fs filesRoot relpath = .ok (if Admitted r t then [] else forbidden) := by
  have hc : ((WeakPath.real t).string.length < (pathString r).length ∨
      ¬ pathString r <+: (WeakPath.real t).string ∨
      ((pathString r).length < (WeakPath.real t).string.length ∧
        (WeakPath.real t).string[(pathString r).length]? ≠ some slash)) ↔ ¬ Admitted r t :=
    textCheck_iff (plainName_of_resolve hr) (plainName_weaklyCanonical ht)
  simp only [checkWithinRoot, if_neg h0, hr, ht, bind, Except.bind]
  by_cases ha : Admitted r t
  · rw [if_neg (not_not.mpr ha ∘ hc.mp), if_pos ha]
    rfl
  · rw [if_pos (hc.mpr ha), if_neg ha]
    rfl

theorem checkWithinRoot_relative {r : RealPath} {cs : List Bytes} (h0 : filesRoot ≠ [])
    (hr : fs.canonical filesRoot = .ok r) (ht : fs.weaklyCanonical relpath = .ok (.relative cs)) :
    checkWithinRoot fs filesRoot relpath = .ok forbidden := by
  have hroot : ∃ s, pathString r = slash :: s := by
    cases r with
    | nil => exact ⟨[], rfl⟩
    | cons n r => exact ⟨n ++ joined r, by simp [pathString]⟩
  have hprefix : ¬ pathString r <+: (WeakPath.relative cs).string := by
    obtain ⟨s, hs⟩ := hroot
    rintro ⟨rest, hrest⟩
    apply head?_of_relative ht
    rw [← hrest, hs]
    rfl
  simp only [checkWithinRoot, if_neg h0, hr, ht, bind, Except.bind]
  rw [if_pos (Or.inr (Or.inl hprefix))]
  rfl

theorem checkWithinRoot_ok {e : Bytes} (h0 : filesRoot ≠ [])
    (h : checkWithinRoot fs filesRoot relpath = .ok e) :
    ∃ r, fs.canonical filesRoot = .ok r ∧
      (e = forbidden ∨ e = [] ∧ ∃ t, fs.weaklyCanonical relpath = .ok (.real t) ∧ Admitted r t) := by
  rcases hr : fs.canonical filesRoot with er | r
  · simp only [checkWithinRoot, if_neg h0, hr, bind, Except.bind] at h
    cases h
  refine ⟨r, rfl, ?_⟩
  rcases ht : fs.weaklyCanonical relpath with et | t | cs
  · simp only [checkWithinRoot, if_neg h0, hr, ht, bind, Except.bind] at h
    cases h
  · rw [checkWithinRoot_eq h0 hr ht] at h
    obtain rfl := Except.ok.inj h
    by_cases ha : Admitted r t
    · exact Or.inr ⟨if_pos ha, t, rfl, ha⟩
    · exact Or.inl (if_neg ha)
  · rw [checkWithinRoot_relative h0 hr ht] at h
    exact Or.inl (Except.ok.inj h).symm

theorem admitted_of_check {r : RealPath} (h0 : filesRoot ≠ [])
    (hr : fs.canonical filesRoot = .ok r) (h : checkWithinRoot fs filesRoot relpath = .ok []) :
    ∃ t, fs.weaklyCanonical relpath = .ok (.real t) ∧ Admitted r t := by
  obtain ⟨r', hr', he | ⟨-, t, ht, ha⟩⟩ := checkWithinRoot_ok h0 h
  · exact absurd he.symm forbidden_ne_nil
  · obtain rfl : r' = r := by simpa [hr] using hr'.symm
    exact ⟨t, ht, ha⟩

theorem filesRoot_ne_nil {r : RealPath} (hr : fs.canonical filesRoot = .ok r) : filesRoot ≠ [] := by
  rintro rfl
  simp [canonical, resolve, lookup, cStr] at hr

/-- The check decides containment, component by component, for every root but `/`; of that one it
admits nothing below it. -/
theorem checkWithinRoot_exact_iff {r t : RealPath} (hr : fs.canonical filesRoot = .ok r)
    (ht : fs.weaklyCanonical relpath = .ok (.real t)) :
    (checkWithinRoot fs filesRoot relpath = .ok [] ↔ r <+: t) ↔ (r ≠ [] ∨ t = []) := by
  have hcheck : checkWithinRoot fs filesRoot relpath = .ok [] ↔ Admitted r t := by
    rw [checkWithinRoot_eq (filesRoot_ne_nil hr) hr ht]
    by_cases ha : Admitted r t
    · simp [ha]
    · simp [ha, forbidden_ne_nil]
  rw [hcheck]
  constructor
  · intro h
    by_cases hroot : r = []
    · right
      exact (h.mpr (hroot ▸ List.nil_prefix)).2 hroot
    · exact Or.inl hroot
  · intro h
    refine ⟨fun ha => ha.1, fun hp => ⟨hp, fun hroot => ?_⟩⟩
    exact h.resolve_left (not_not.mpr hroot)

theorem checkWithinRoot_exact_smallTree :
    (checkWithinRoot smallTree (text "root") (text "root/a") = .ok [] ↔
        [text "srv", text "root"] <+: [text "srv", text "root", text "a"]) ↔
      ([text "srv", text "root"] ≠ [] ∨ [text "srv", text "root", text "a"] = []) :=
  checkWithinRoot_exact_iff (by decide) (by decide)

/-- With the root `/` everything else is refused. -/
theorem checkWithinRoot_slash :
    smallTree.canonical (text "/") = .ok [] ∧
      smallTree.weaklyCanonical (text "/srv") = .ok (.real [text "srv"]) ∧
      checkWithinRoot smallTree (text "/") (text "/srv") = .ok forbidden ∧
      ¬ (checkWithinRoot smallTree (text "/") (text "/srv") = .ok [] ↔
        ([] : RealPath) <+: [text "srv"]) := by
  have hroot : smallTree.canonical (text "/") = .ok [] := by decide
  have htarget : smallTree.weaklyCanonical (text "/srv") = .ok (.real [text "srv"]) := by decide
  have hcheck : checkWithinRoot smallTree (text "/") (text "/srv") = .ok forbidden := by
    rw [checkWithinRoot_eq (by decide) hroot htarget, if_neg (by decide)]
  refine ⟨hroot, htarget, hcheck, fun h => ?_⟩
  rw [hcheck] at h
  exact forbidden_ne_nil (Except.ok.inj (h.mpr List.nil_prefix))

theorem not_answers_ok_forbidden : ¬ Answers forbidden kHttpOk := by decide

theorem not_answers_ok_notFound :
    ¬ Answers (makeResponse kHttpNotFound (text "<h1>404 Not Found</h1>") (text "text/html") [])
      kHttpOk := by decide

/-- A 200 carries the bytes of a regular file whose real location is at or below the real
location of the root, component by component. -/
theorem staticGet_within_root {response : Bytes} (h0 : filesRoot ≠ [])
    (h : staticGet fs filesRoot relpath = .ok response) (hok : Answers response kHttpOk) :
    ∃ r q data, fs.canonical filesRoot = .ok r ∧ fs.resolve relpath = .ok q ∧ r <+: q ∧
      fs.entries[q]? = some (.file data) ∧
      response = makeResponse kHttpOk data (contentTypeFor relpath) [] := by
  rcases hc : checkWithinRoot fs filesRoot relpath with e | e
  · simp only [staticGet, hc, bind, Except.bind] at h
    cases h
  obtain ⟨r, hr, rfl | ⟨rfl, t, ht, ha⟩⟩ := checkWithinRoot_ok h0 hc
  · simp only [staticGet, hc, bind, Except.bind] at h
    cases h
    exact absurd hok not_answers_ok_forbidden
  · rcases hf : fs.isRegularFile relpath with e | _ | _
    · simp only [staticGet, hc, hf, bind, Except.bind] at h
      cases h
    · simp only [staticGet, hc, hf, bind, Except.bind] at h
      cases h
      exact absurd hok not_answers_ok_notFound
    · obtain ⟨q, data, hq, hd⟩ := isRegularFile_eq_true.mp hf
      -- the file that is opened is the one that the check looked at
      have htq : t = q := by simpa [weaklyCanonical_of_resolve hq] using ht.symm
      simp only [staticGet, hc, hf, bind, Except.bind] at h
      cases h
      refine ⟨r, q, data, hr, hq, htq ▸ ha.1, hd, ?_⟩
      simp [readAll, read_of_file hq hd]

theorem staticGet_within_root_smallTree :
    ∃ r q data, smallTree.canonical (text "root") = .ok r ∧
      smallTree.resolve (text "root/../root/a") = .ok q ∧ r <+: q ∧
      smallTree.entries[q]? = some (.file data) ∧
      makeResponse kHttpOk (text "hello") (contentTypeFor (text "root/../root/a")) [] =
        makeResponse kHttpOk data (contentTypeFor (text "root/../root/a")) [] :=
  staticGet_within_root (by decide) (by decide) (answers_makeResponse _ _ _ _)

/-- Every entry whose directory is not at or below `r` is the same before and after. -/
def FrameOutside (r : RealPath) (fs fs' : FileSystem) : Prop :=
  ∀ d n, ¬ r <+: d → fs'.entries[d ++ [n]]? = fs.entries[d ++ [n]]?

/-- The path canonically points inside `r`, but opening it creates a file outside. -/
def CreatesOutside (fs : FileSystem) (r : RealPath) (relpath : Bytes) : Prop :=
  ∃ t d n, fs.weaklyCanonical relpath = .ok (.real t) ∧ r <+: t ∧
    fs.lookup relpath = .ok (.missing d n) ∧ ¬ r <+: d

/-- The path leads to a regular file inside `r`, but names an entry outside. -/
def UnlinksOutside (fs : FileSystem) (r : RealPath) (relpath : Bytes) : Prop :=
  ∃ q data d n, fs.resolve relpath = .ok q ∧ fs.entries[q]? = some (.file data) ∧ r <+: q ∧
    fs.entryPath relpath = .ok (d ++ [n]) ∧ ¬ r <+: d

theorem check_of_admitted {r t : RealPath} (hr : fs.canonical filesRoot = .ok r)
    (ht : fs.weaklyCanonical relpath = .ok (.real t)) (ha : Admitted r t) :
    checkWithinRoot fs filesRoot relpath = .ok [] := by
  rw [checkWithinRoot_eq (filesRoot_ne_nil hr) hr ht, if_pos ha]

theorem admitted_of_below {r t d : RealPath} (h : r <+: t) (hd : ¬ r <+: d) : Admitted r t :=
  ⟨h, fun h0 => absurd (h0 ▸ List.nil_prefix) hd⟩

theorem prefix_of_file {r d : RealPath} {n data : Bytes} (hdir : fs.entries[r]? = some .dir)
    (hq : r <+: d ++ [n]) (hd : fs.entries[d ++ [n]]? = some (.file data)) : r <+: d := by
  rcases List.prefix_concat_iff.mp hq with rfl | h
  · simp [hd] at hdir
  · exact h

theorem frameOutside_of_eq_off {r d : RealPath} {n : Bytes} {fs' : FileSystem} (hd : r <+: d)
    (h : ∀ q : RealPath, q ≠ d ++ [n] → fs'.entries[q]? = fs.entries[q]?) :
    FrameOutside r fs fs' := by
  intro d' n' hd'
  apply h
  intro heq
  exact hd' ((List.append_inj' heq rfl).1 ▸ hd)

theorem FrameOutside.prefix_of_ne {r d : RealPath} {n : Bytes} {fs' : FileSystem}
    (h : FrameOutside r fs fs') (hne : fs'.entries[d ++ [n]]? ≠ fs.entries[d ++ [n]]?) :
    r <+: d := by
  by_contra hd
  exact hne (h d n hd)

theorem FrameOutside.refl (r : RealPath) (fs : FileSystem) : FrameOutside r fs fs :=
  fun _ _ _ => rfl

theorem staticPut_frame_iff {r : RealPath} (hr : fs.canonical filesRoot = .ok r)
    (hdir : fs.entries[r]? = some .dir) :
    (∀ data overwrite, FrameOutside r fs (staticPut fs filesRoot relpath data overwrite).2) ↔
      ¬ CreatesOutside fs r relpath := by
  constructor
  · rintro h ⟨t, d, n, ht, hrt, hl, hd⟩
    have hex : fs.exists relpath = .ok false := by
      simp only [FileSystem.exists, status_of_missing hl]
      rfl
    have hacc : PutAccepted fs filesRoot relpath true (d ++ [n]) false :=
      ⟨check_of_admitted hr ht (admitted_of_below hrt hd), hex, rfl,
        openTarget_eq_ok.mpr (Or.inl ⟨d, n, hl, rfl⟩)⟩
    -- an empty body is enough: the open itself creates the entry
    have hf := h [] true
    rw [staticPut_of_accepted hacc] at hf
    apply hd
    apply hf.prefix_of_ne (n := n)
    rw [entries_set (canSet_of_missing hl), if_pos rfl, (lookup_sound hl).2.1]
    simp
  · intro h data overwrite
    by_cases hacc : ∃ q existed, PutAccepted fs filesRoot relpath overwrite q existed
    · obtain ⟨q, existed, hacc⟩ := hacc
      obtain ⟨t, ht, ha⟩ := admitted_of_check (filesRoot_ne_nil hr) hr hacc.check
      rw [staticPut_of_accepted hacc]
      obtain ⟨d, n, rfl, -, -⟩ := (canSet_of_openTarget hacc.target).eq_concat
      -- a missing target is covered by `h`, an existing file by the check
      have hd : r <+: d := by
        rcases openTarget_eq_ok.mp hacc.target with ⟨d', n', hl, hq⟩ | ⟨data', hq, hf⟩
        · obtain rfl : d = d' := (List.append_inj' hq rfl).1
          by_contra hd
          exact h ⟨t, d, n', ht, ha.1, hl, hd⟩
        · rw [weaklyCanonical_of_resolve hq] at ht
          exact prefix_of_file hdir (WeakPath.real.inj (Except.ok.inj ht) ▸ ha.1) hf
      apply frameOutside_of_eq_off hd
      intro q' hq'
      rw [entries_set (canSet_of_openTarget hacc.target), if_neg hq']
    · push Not at hacc
      obtain ⟨e, -, he⟩ := staticPut_of_refused hacc data
      rw [he]
      exact FrameOutside.refl r fs

theorem staticDelete_frame_iff {r : RealPath} (hr : fs.canonical filesRoot = .ok r) :
    FrameOutside r fs (staticDelete fs filesRoot relpath).2 ↔ ¬ UnlinksOutside fs r relpath := by
  constructor
  · rintro h ⟨q, data, d, n, hq, hf, hrq, he, hd⟩
    have hacc : DeleteAccepted fs filesRoot relpath (d ++ [n]) :=
      ⟨check_of_admitted hr (weaklyCanonical_of_resolve hq) (admitted_of_below hrq hd),
        isRegularFile_eq_true.mpr ⟨q, data, hq, hf⟩, he⟩
    rw [staticDelete_of_accepted hacc] at h
    apply hd
    apply h.prefix_of_ne (n := n)
    rw [entries_remove hacc.entries.1, if_pos rfl]
    exact hacc.entries.2.1.symm
  · intro h
    by_cases hacc : ∃ e, DeleteAccepted fs filesRoot relpath e
    · obtain ⟨e, hacc⟩ := hacc
      obtain ⟨t, ht, ha⟩ := admitted_of_check (filesRoot_ne_nil hr) hr hacc.check
      obtain ⟨q, data, hq, hf⟩ := isRegularFile_eq_true.mp hacc.regular
      obtain ⟨d, n, he, -⟩ := unlink_of_file hq hf
      obtain rfl : e = d ++ [n] := by simpa [hacc.entry] using he
      rw [staticDelete_of_accepted hacc]
      have hd : r <+: d := by
        by_contra hd
        rw [weaklyCanonical_of_resolve hq] at ht
        exact h ⟨q, data, d, n, hq, hf, WeakPath.real.inj (Except.ok.inj ht) ▸ ha.1, he, hd⟩
      apply frameOutside_of_eq_off hd
      intro q' hq'
      rw [entries_remove hacc.entries.1, if_neg hq']
    · push Not at hacc
      obtain ⟨e, -, he⟩ := staticDelete_of_refused hacc
      rw [he]
      exact FrameOutside.refl r fs

/-- Both requests leave everything outside the root as it was exactly when the path neither
creates nor names an entry outside while it points inside. -/
theorem static_frame_iff {r : RealPath} (relpath : Bytes) (hr : fs.canonical filesRoot = .ok r)
    (hdir : fs.entries[r]? = some .dir) :
    ((∀ data overwrite, FrameOutside r fs (staticPut fs filesRoot relpath data overwrite).2) ∧
        FrameOutside r fs (staticDelete fs filesRoot relpath).2) ↔
      ¬ CreatesOutside fs r relpath ∧ ¬ UnlinksOutside fs r relpath := by
  rw [staticPut_frame_iff hr hdir, staticDelete_frame_iff hr]

theorem static_frame_smallTree :
    ((∀ data overwrite, FrameOutside [text "srv", text "root"] smallTree
          (staticPut smallTree (text "root") (text "root/b") data overwrite).2) ∧
        FrameOutside [text "srv", text "root"] smallTree
          (staticDelete smallTree (text "root") (text "root/b")).2) ↔
      ¬ CreatesOutside smallTree [text "srv", text "root"] (text "root/b") ∧
        ¬ UnlinksOutside smallTree [text "srv", text "root"] (text "root/b") :=
  static_frame_iff (text "root/b") (by decide) (by decide)

def aliasTree : FileSystem := smallTree.set [text "srv", text "alias"] (.link (text "root/a"))

/-- `DELETE /static/alias` passes the check and unlinks `/srv/alias`. -/
theorem staticDelete_alias_outside :
    aliasTree.canonical (text "root") = .ok [text "srv", text "root"] ∧
      aliasTree.entries[[text "srv", text "root"]]? = some .dir ∧
      ¬ FrameOutside [text "srv", text "root"] aliasTree
        (staticDelete aliasTree (text "root") (text "alias")).2 := by
  refine ⟨by decide, by decide, fun h => ?_⟩
  have hlink : (staticDelete aliasTree (text "root") (text "alias")).2.entries[
      [text "srv", text "alias"]]? = none := by decide
  have hsame := h [text "srv"] (text "alias") (by decide)
  rw [List.singleton_append, hlink] at hsame
  have hbefore : aliasTree.entries[[text "srv", text "alias"]]? ≠ none := by decide
  exact hbefore hsame.symm

end SemanticSearch
