import SemanticSearch.LiveIndex
import SemanticSearch.RequestSteps

namespace SemanticSearch

open FileSystem InvertedIndex

variable {V ι : Type} {fs fs' : FileSystem} {root : Bytes} {r q : RealPath}

/-- The path of the request is the name that `Build` gives to a file. -/
def SpelledAsBuild (root : Bytes) (req : Request) : Prop :=
  ∃ q : RealPath, q ≠ [] ∧ (∀ n ∈ q, ValidName n) ∧ relOf req = underRoot root q

theorem RootedTree.openTarget_underRoot (h : RootedTree fs root r) (hq : q ≠ [])
    (hv : ∀ n ∈ q, ValidName n) {t : RealPath} (ht : fs.openTarget (underRoot root q) = .ok t) :
    t = r ++ q := by
  by_cases hz : (0 : Byte) ∈ root
  · have hl := resolve_eq_ok.mp h.resolve
    rw [openTarget, lookup_underRoot_of_zero hz, hl] at ht
    simp [h.dir] at ht
  · obtain ⟨pl, hl, rfl⟩ := location_of_openTarget ht
    exact (leadsBelow_underRoot h.linkFree h.resolve hz hq hv).location h.linkFree h.dir hq hv hl

theorem read_of_not_file {p content : Bytes} (hr : fs.read p = some content)
    (h : ∀ t data, fs.resolve p = .ok t → fs.entries[t]? ≠ some (.file data)) : content = [] := by
  unfold FileSystem.read at hr
  rcases ht : fs.resolve p with e | t <;> simp only [ht] at hr
  · simp at hr
  · rcases he : fs.entries[t]? with _ | ⟨data | _ | l⟩ <;> simp only [he] at hr
    · simpa using hr.symm
    · exact absurd he (h t data ht)
    · simpa using hr.symm
    · simpa using hr.symm

theorem RootedTree.occurrences_read (h : RootedTree fs root r) (hq : q ≠ [])
    (hv : ∀ n ∈ q, ValidName n) (word : Bytes) :
    occurrences (fun _ => fs.read (underRoot root q)) word (underRoot root q) =
      occurrences (snapshotsOf fs.view root) word (underRoot root q) := by
  by_cases hfile : ∃ data, fs.entries[r ++ q]? = some (.file data)
  · obtain ⟨data, hd⟩ := hfile
    simp only [occurrences, h.snapshots_file hd]
  · push Not at hfile
    have hnone : snapshotsOf fs.view root (underRoot root q) = none := by
      apply h.snapshots_none
      intro p data hpath he
      have hp : ∀ n ∈ p, PlainName n := fun n hn => plainName_of_entry he n (by simp [hn])
      rw [← underRoot_injective root (fun n hn => (hv n hn).1) hp hpath] at he
      exact hfile data he
    rw [show occurrences (snapshotsOf fs.view root) word (underRoot root q) = 0 by
      rw [occurrences, hnone]]
    refine occurrences_eq_zero.mpr (fun content hr => ?_) word
    rw [read_of_not_file hr]
    · rfl
    · intro t data ht he
      have hopen := openTarget_eq_ok.mpr (Or.inr ⟨data, ht, he⟩)
      rw [h.openTarget_underRoot hq hv hopen] at he
      exact hfile data he

/-- The entries of the index for `path` are those `Build` would make. -/
def AgreesAt (root : Bytes) (w : World V) (path : Bytes) : Prop :=
  ∀ word, w.index.cell word path =
    if occurrences (snapshotsOf w.fs.view root) word path = 0 then none
    else some (occurrences (snapshotsOf w.fs.view root) word path)

theorem agreesAt_iff {w : World V} {S : Snapshots} (hS : IndexOf w.index S) {path : Bytes} :
    AgreesAt root w path ↔
      ∀ word, occurrences S word path = occurrences (snapshotsOf w.fs.view root) word path :=
  hS.cells_iff

/-- The file at `path` exists and has a word. -/
def HasWords (root : Bytes) (fs : FileSystem) (path : Bytes) : Prop :=
  ∃ content, snapshotsOf fs.view root path = some content ∧ tokenize content ≠ []

theorem not_hasWords {path : Bytes} :
    ¬ HasWords root fs path ↔ ∀ word, occurrences (snapshotsOf fs.view root) word path = 0 := by
  rw [occurrences_eq_zero, HasWords]
  push Not
  rfl

/-- Where no update of the index is due, the index agrees with the files. -/
def Settled (P : Program V ι) (s : Sys V ι) : Prop :=
  ∀ path, ¬ DueAt Phase.IndexDue P.job s.phase path → AgreesAt P.ctx.files_root s.world path

/-- `RemoveFile` runs while the file exists with words only if another update of the index is
due there. -/
def RemovalOk (P : Program V ι) (s : Sys V ι) : Option ι → Prop
  | none => True
  | some i => (s.phase i).IndexDue → (P.job i).method = text "DELETE" →
      HasWords P.ctx.files_root s.world.fs (relOf (P.job i)) →
        ∃ j, j ≠ i ∧ (s.phase j).IndexDue ∧ relOf (P.job j) = relOf (P.job i)

section Step

variable [DecidableEq ι] {P : Program V ι} {s : Sys V ι} {i : ι} {path : Bytes}

theorem Settled.quiet (h : Settled P s) (hi : ¬ (s.phase i).IndexDue) (p : Phase) (v : V) :
    Settled P ⟨{ s.world with vec := v }, Function.update s.phase i p⟩ := by
  intro path hdue
  exact h path (not_dueAt_of_update (Or.inl hi) hdue)

theorem Settled.change (h : Settled P s) (hroot : RootedTree s.world.fs P.ctx.files_root r)
    {fs' : FileSystem} (hrel : relOf (P.job i) = underRoot P.ctx.files_root q)
    (hc : ChangedAt s.world.fs fs' (r ++ q)) (resp : Bytes) :
    Settled P ⟨{ s.world with fs := fs' }, Function.update s.phase i (.changed resp)⟩ := by
  intro path hdue
  have hpath : relOf (P.job i) ≠ path := by
    intro hpath
    exact hdue (dueAt_update.mpr (Or.inl ⟨trivial, hpath⟩))
  have hname : ¬ NameOf P.ctx.files_root r path (r ++ q) := by
    intro ⟨q', hq', hpath'⟩
    apply hpath
    rw [hrel, hpath', List.append_cancel_left hq']
  have hagree := h path (not_dueAt_of_update (Or.inr hpath) hdue)
  intro word
  have hsnap : snapshotsOf fs'.view P.ctx.files_root path =
      snapshotsOf s.world.fs.view P.ctx.files_root path := hroot.snapshots_off hc hname
  rw [occurrences_congr hsnap word]
  exact hagree word

theorem Settled.entries_iff (h : Settled P s) {S : Snapshots} (hS : IndexOf s.world.index S)
    {index' : InvertedIndex} {content : Option Bytes}
    (hS' : IndexOf index' (Function.update S (relOf (P.job i)) content)) (resp : Bytes) :
    Settled P ⟨{ s.world with index := index' }, Function.update s.phase i (.indexed resp)⟩ ↔
      (∃ j, j ≠ i ∧ (s.phase j).IndexDue ∧ relOf (P.job j) = relOf (P.job i)) ∨
        ∀ word, occurrences (Function.update S (relOf (P.job i)) content) word (relOf (P.job i)) =
          occurrences (snapshotsOf s.world.fs.view P.ctx.files_root) word (relOf (P.job i)) := by
  have hdue : DueAt Phase.IndexDue P.job (Function.update s.phase i (.indexed resp))
        (relOf (P.job i)) ↔
      ∃ j, j ≠ i ∧ (s.phase j).IndexDue ∧ relOf (P.job j) = relOf (P.job i) := by
    rw [dueAt_update]
    simp [Phase.IndexDue]
  constructor
  · intro hset
    by_cases hd : DueAt Phase.IndexDue P.job (Function.update s.phase i (.indexed resp))
        (relOf (P.job i))
    · exact Or.inl (hdue.mp hd)
    · have hagree := (agreesAt_iff hS').mp (hset _ hd)
      exact Or.inr hagree
  · intro hor path hd
    apply (agreesAt_iff hS').mpr
    by_cases hpath : relOf (P.job i) = path
    · subst hpath
      exact hor.resolve_left fun hother => hd (hdue.mpr hother)
    · -- nothing has changed there
      have hagree := h path (not_dueAt_of_update (Or.inr hpath) hd)
      intro word
      rw [occurrences_congr (Function.update_of_ne (Ne.symm hpath) content S) word]
      exact (agreesAt_iff hS).mp hagree word

theorem Settled.index_iff (h : Settled P s) (hroot : RootedTree s.world.fs P.ctx.files_root r)
    {S : Snapshots} (hS : IndexOf s.world.index S) (hi : (s.phase i).IndexDue) (resp : Bytes)
    (hq0 : q ≠ []) (hq : ∀ n ∈ q, ValidName n)
    (hrel : relOf (P.job i) = underRoot P.ctx.files_root q) :
    (∃ S', IndexOf (updateIndex (P.job i) s.world.fs s.world.index) S') ∧
    (Settled P ⟨{ s.world with index := updateIndex (P.job i) s.world.fs s.world.index },
        Function.update s.phase i (.indexed resp)⟩ ↔ RemovalOk P s (some i)) := by
  by_cases hm : (P.job i).method = text "DELETE"
  · have hS' := hS.removeFile (relOf (P.job i))
    rw [updateIndex, if_pos hm]
    refine ⟨⟨_, hS'⟩, ?_⟩
    rw [h.entries_iff hS hS' resp]
    simp only [occurrences, Function.update_self]
    constructor
    · intro hor _ _ hwords
      exact hor.resolve_right fun hzero => not_hasWords.mpr (fun word => (hzero word).symm) hwords
    · intro hok
      by_cases hwords : HasWords P.ctx.files_root s.world.fs (relOf (P.job i))
      · exact Or.inl (hok hi hm hwords)
      · exact Or.inr fun word => (not_hasWords.mp hwords word).symm
  · have hS' := hS.addFile s.world.fs.view (relOf (P.job i))
    rw [updateIndex, if_neg hm]
    refine ⟨⟨_, hS'⟩, iff_of_true ((h.entries_iff hS hS' resp).mpr (Or.inr ?_)) ?_⟩
    · -- `AddFile` reads what `Build` would read
      intro word
      rw [hrel, ← hroot.occurrences_read hq0 hq word]
      simp only [occurrences, Function.update_self]
      rfl
    · exact fun _ hdel => absurd hdel hm

omit [DecidableEq ι] in
theorem removalOk_of_not_due (hi : ¬ (s.phase i).IndexDue) : RemovalOk P s (some i) :=
  fun hdue => absurd hdue hi

/-- What holds of files and index in any case. -/
def Sound (P : Program V ι) (r : RealPath) (s : Sys V ι) : Prop :=
  RootedTree s.world.fs P.ctx.files_root r ∧ ∃ S, IndexOf s.world.index S

theorem step_settled_iff (hspell : ∀ i, SpelledAsBuild P.ctx.files_root (P.job i))
    (hs : Sound P r s) (h : Settled P s) (a : Option ι) :
    Sound P r (P.step s a) ∧ (Settled P (P.step s a) ↔ RemovalOk P s a) := by
  obtain ⟨hroot, S, hS⟩ := hs
  cases a with
  | none => exact ⟨⟨hroot, S, hS⟩, iff_of_true h trivial⟩
  | some i =>
    obtain ⟨q, hq0, hq, hrel⟩ := hspell i
    rcases P.step_cases s i with ⟨p, hi, hstep⟩ | ⟨fs', resp, hi, hchange, hstep⟩ |
      ⟨resp, hi, hstep⟩ | ⟨resp, hi, hstep⟩
    · -- the check, or a refusal
      have hi' : ¬ (s.phase i).IndexDue := mt Phase.IndexDue.vecDue hi
      rw [hstep]
      exact ⟨⟨hroot, S, hS⟩, iff_of_true (h.quiet hi' p s.world.vec) (removalOk_of_not_due hi')⟩
    · -- the write or the removal
      have hchanged : ChangedAt s.world.fs fs' (r ++ q) := by
        apply hchange.changedAt hroot.linkFree
        intro t ht
        rw [hrel] at ht
        exact hroot.openTarget_underRoot hq0 hq ht
      rw [hstep]
      exact ⟨⟨hroot.changed hchanged, S, hS⟩, iff_of_true (h.change hroot hrel hchanged resp)
        (removalOk_of_not_due (mt Phase.IndexDue.vecDue hi))⟩
    · -- the update of the index
      rw [hstep]
      obtain ⟨hS', hiff⟩ := h.index_iff hroot hS (by simp [hi, Phase.IndexDue]) resp hq0 hq hrel
      exact ⟨⟨hroot, hS'⟩, hiff⟩
    · -- the message
      have hi' : ¬ (s.phase i).IndexDue := by simp [hi, Phase.IndexDue]
      rw [hstep]
      exact ⟨⟨hroot, S, hS⟩, iff_of_true (h.quiet hi' _ _) (removalOk_of_not_due hi')⟩

omit [DecidableEq ι] in
theorem Settled.fresh (h : Settled P s) (hs : Sound P r s) (hdone : s.Completed) :
    IndexFresh P.ctx s.world := by
  obtain ⟨hroot, S, hS⟩ := hs
  apply hroot.build_eq_iff.mpr
  apply (indexOf_iff hS).mpr
  intro word path
  have hdue : ¬ DueAt Phase.IndexDue P.job s.phase path := hdone.not_dueAt id fun _ => id
  exact (agreesAt_iff hS).mp (h path hdue) word

theorem run_settled_iff (hspell : ∀ i, SpelledAsBuild P.ctx.files_root (P.job i))
    (hs : Sound P r s) (h : Settled P s) (acts : List (Option ι)) :
    Runs.Throughout P.step (Settled P) s acts ↔ Runs.AllOk P.step (RemovalOk P) s acts := by
  apply Runs.throughout_iff_allOk (J := Sound P r) _ hs h
  intro s a hs h
  exact step_settled_iff hspell hs h a

/-- From a fresh index, with every path spelled as `Build` spells it: in a run in which every
`RemoveFile` is `RemovalOk`, the index is fresh whenever every request has completed. -/
theorem completed_fresh (P : Program V ι) (s : Sys V ι)
    (hroot : RootedTree s.world.fs P.ctx.files_root r) (hfresh : IndexFresh P.ctx s.world)
    (hspell : ∀ i, SpelledAsBuild P.ctx.files_root (P.job i)) (acts : List (Option ι))
    (hok : Runs.AllOk P.step (RemovalOk P) s acts) :
    ∀ pre, pre <+: acts → (Runs.run P.step s pre).Completed →
      IndexFresh P.ctx (Runs.run P.step s pre).world := by
  have hS := hroot.build_eq_iff.mp hfresh
  have hset : Settled P s := fun path _ word => hS.cell_eq word path
  have hrun : Runs.Throughout P.step (fun s => Sound P r s ∧ Settled P s) s acts := by
    apply hok.throughout (I := fun s => Sound P r s ∧ Settled P s) _ ⟨⟨hroot, _, hS⟩, hset⟩
    intro s a hs ha
    obtain ⟨hs', hiff⟩ := step_settled_iff hspell hs.1 hs.2 a
    exact ⟨hs', hiff.mpr ha⟩
  intro pre hpre hdone
  obtain ⟨hs', hset'⟩ := hrun pre hpre
  exact hset'.fresh hs' hdone

end Step

/-- `PUT /static/root/a` as `false`, `DELETE /static/root/a` as `true`. -/
def putAndDelete : Program Unit Bool where
  ctx := plainCtx
  background _ v := v
  job
    | false => { method := text "PUT", path := text "/static/root/a", body := text "hat" }
    | true => { method := text "DELETE", path := text "/static/root/a" }

def freshStart : Sys Unit Bool := ⟨⟨smallTree, smallIndex, ()⟩, fun _ => .waiting⟩

theorem spelled_putAndDelete (i : Bool) :
    SpelledAsBuild putAndDelete.ctx.files_root (putAndDelete.job i) :=
  ⟨[text "a"], by decide, by decide, by cases i <;> decide⟩

/-- `RemoveFile` runs between the removal of the file and its next write. -/
def mixedRequests : List (Option Bool) :=
  [some false, some true, some true, some true, some false, some true, some false, some false]

theorem completed_fresh_mixed :
    Runs.AllOk putAndDelete.step (RemovalOk putAndDelete) freshStart mixedRequests ∧
      IndexFresh plainCtx (Runs.run putAndDelete.step freshStart mixedRequests).world := by
  have hput : ∀ s : Sys Unit Bool, RemovalOk putAndDelete s (some false) :=
    fun s _ hm => absurd hm (by decide)
  have hquiet : ∀ (s : Sys Unit Bool) p, s.phase true = p → ¬ p.IndexDue →
      RemovalOk putAndDelete s (some true) := by
    intro s p hp hdue
    rw [← hp] at hdue
    exact removalOk_of_not_due hdue
  have hgone : RemovalOk putAndDelete
      (Runs.run putAndDelete.step freshStart [some false, some true, some true]) (some true) := by
    intro _ _ hwords
    obtain ⟨content, hcontent, -⟩ := hwords
    have hnone : snapshotsOf (Runs.run putAndDelete.step freshStart
        [some false, some true, some true]).world.fs.view (text "root") (text "root/a") = none := by
      decide +kernel
    exact absurd (hnone.symm.trans hcontent) (by simp)
  have hok : Runs.AllOk putAndDelete.step (RemovalOk putAndDelete) freshStart mixedRequests := by
    refine Runs.allOk_cons.mpr ⟨hput _, ?_⟩
    refine Runs.allOk_cons.mpr ⟨hquiet _ .waiting (by decide +kernel) id, ?_⟩
    refine Runs.allOk_cons.mpr ⟨hquiet _ (.checked true) (by decide +kernel) id, ?_⟩
    refine Runs.allOk_cons.mpr ⟨hgone, ?_⟩
    refine Runs.allOk_cons.mpr ⟨hput _, ?_⟩
    refine Runs.allOk_cons.mpr ⟨hquiet _ (.indexed deleteDone) (by decide +kernel) id, ?_⟩
    refine Runs.allOk_cons.mpr ⟨hput _, ?_⟩
    exact Runs.allOk_cons.mpr ⟨hput _, Runs.allOk_nil⟩
  refine ⟨hok, completed_fresh putAndDelete freshStart rootedTree_smallTree indexFresh_smallTree
    spelled_putAndDelete _ hok _ (List.prefix_refl _) fun i => ?_⟩
  cases i with
  | false => exact Or.inr ⟨putDone true, by decide +kernel⟩
  | true => exact Or.inr ⟨deleteDone, by decide +kernel⟩

/-- DELETE removes the file, PUT stores and indexes it again, and then `RemoveFile` drops the
entry. -/
def lostEntry : List (Option Bool) :=
  [some true, some true, some false, some false, some false, some false, some true, some true]

theorem lostEntry_not_fresh :
    RootedTree freshStart.world.fs putAndDelete.ctx.files_root [text "srv", text "root"] ∧
      IndexFresh putAndDelete.ctx freshStart.world ∧
      (∀ i, SpelledAsBuild putAndDelete.ctx.files_root (putAndDelete.job i)) ∧
      (Runs.run putAndDelete.step freshStart lostEntry).Completed ∧
      ¬ IndexFresh putAndDelete.ctx (Runs.run putAndDelete.step freshStart lostEntry).world := by
  refine ⟨rootedTree_smallTree, indexFresh_smallTree, spelled_putAndDelete, fun i => ?_, fun h => ?_⟩
  · cases i with
    | false => exact Or.inr ⟨putDone false, by decide +kernel⟩
    | true => exact Or.inr ⟨deleteDone, by decide +kernel⟩
  · have hcell := h.cell_eq (text "hat") (text "root/a")
    set w := (Runs.run putAndDelete.step freshStart lostEntry).world with hw
    have hlive : w.index.cell (text "hat") (text "root/a") = none := by
      rw [hw]
      decide +kernel
    have hbuilt : (InvertedIndex.build w.fs.view putAndDelete.ctx.files_root).map
        (fun m_count => m_count.cell (text "hat") (text "root/a")) = .ok (some 1) := by
      rw [hw]
      decide +kernel
    rw [hlive, hbuilt] at hcell
    simp at hcell

end SemanticSearch
