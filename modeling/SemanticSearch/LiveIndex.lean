import SemanticSearch.MutationEffects
import SemanticSearch.Runs

namespace SemanticSearch

open FileSystem InvertedIndex

variable {V : Type} {ctx : ClientCtx V} {fs fs' : FileSystem} {root : Bytes} {r q : RealPath}

/-- The root is an existing directory of a tree without links. -/
structure RootedTree (fs : FileSystem) (root : Bytes) (r : RealPath) : Prop where
  linkFree : fs.LinkFree
  resolve : fs.resolve root = .ok r
  dir : fs.entries[r]? = some .dir

theorem RootedTree.changed (h : RootedTree fs root r) (hc : ChangedAt fs fs' q) :
    RootedTree fs' root r where
  linkFree := hc.linkFree'
  resolve := hc.resolve (hc.staysFile (ne_of_dir h.dir hc.not_dir)) h.resolve
  dir := hc.dir h.dir

theorem RootedTree.walk (h : RootedTree fs root r) :
    fs.view.walk root = .ok ((fs.below r).map (fs.walkEntry root r)) := by
  change fs.walk root = _
  simp only [FileSystem.walk, h.resolve, h.dir, if_true]

theorem RootedTree.mem_regularFiles (h : RootedTree fs root r) {path : Bytes} :
    path ∈ fs.view.regularFiles root ↔
      ∃ q data, path = underRoot root q ∧ fs.entries[r ++ q]? = some (.file data) := by
  simp only [FileView.regularFiles, h.walk, List.mem_map, List.mem_filter]
  constructor
  · rintro ⟨_, ⟨⟨p, hp, rfl⟩, hreg⟩, rfl⟩
    obtain ⟨⟨q, rfl⟩, -, -⟩ := mem_below.mp hp
    rcases he : fs.entries[r ++ q]? with _ | ⟨data | _ | t⟩
    · simp [walkEntry, DirEntry.regular, he] at hreg
    · exact ⟨q, data, by simp [walkEntry], he⟩
    · simp [walkEntry, DirEntry.regular, he, entryIsRegular] at hreg
    · exact absurd he (h.linkFree _ t)
  · rintro ⟨q, data, rfl, he⟩
    have hq : r ++ q ≠ r := by
      intro hq
      rw [hq, h.dir] at he
      simp at he
    refine ⟨_, ⟨⟨r ++ q, mem_below.mpr ⟨List.prefix_append r q, hq, by simp [he]⟩, rfl⟩, ?_⟩, ?_⟩
    · simp [walkEntry, DirEntry.regular, he, entryIsRegular]
    · simp [walkEntry]

theorem RootedTree.build_ok (h : RootedTree fs root r) :
    ∃ m_count, InvertedIndex.build fs.view root = .ok m_count := by
  have hfold : ∀ es : List DirEntry, (∀ p ∈ es, ∃ b, p.isRegularFile = .ok b) →
      ∀ m_count, ∃ m_count', es.foldlM (buildEntry fs.view) m_count = .ok m_count' := by
    intro es hes
    induction es with
    | nil => exact fun m_count => ⟨m_count, rfl⟩
    | cons p es ih =>
      intro m_count
      obtain ⟨b, hb⟩ := hes p List.mem_cons_self
      have hentry : ∃ m, buildEntry fs.view m_count p = .ok m := by
        rcases b with _ | _
        · exact ⟨m_count, by simp only [buildEntry, hb]; rfl⟩
        · rcases hr : fs.view.read p.path with _ | content
          · exact ⟨m_count, by simp only [buildEntry, hb, hr]; rfl⟩
          · exact ⟨_, by simp only [buildEntry, hb, hr]; rfl⟩
      obtain ⟨m, hm⟩ := hentry
      rw [List.foldlM_cons, hm]
      exact ih (fun p' hp' => hes p' (List.mem_cons_of_mem _ hp')) m
  rw [InvertedIndex.build, h.walk]
  refine hfold _ (fun p hp => ?_) ∅
  obtain ⟨q, hq, rfl⟩ := List.mem_map.mp hp
  rcases he : fs.entries[q]? with _ | ⟨data | _ | t⟩
  · exact ⟨false, by simp [walkEntry, he]⟩
  · exact ⟨true, by simp [walkEntry, he, entryIsRegular]⟩
  · exact ⟨false, by simp [walkEntry, he, entryIsRegular]⟩
  · exact absurd he (h.linkFree _ t)

theorem RootedTree.build_eq_iff (h : RootedTree fs root r) {m_count : InvertedIndex} :
    InvertedIndex.build fs.view root = .ok m_count ↔
      IndexOf m_count (snapshotsOf fs.view root) := by
  constructor
  · exact indexOf_build
  · intro hm
    obtain ⟨m', hm'⟩ := h.build_ok
    rw [hm', (indexOf_build hm').unique hm]

theorem RootedTree.snapshots_file (h : RootedTree fs root r) {data : Bytes}
    (he : fs.entries[r ++ q]? = some (.file data)) :
    snapshotsOf fs.view root (underRoot root q) = fs.read (underRoot root q) :=
  if_pos (h.mem_regularFiles.mpr ⟨q, data, rfl, he⟩)

theorem RootedTree.snapshots_none (h : RootedTree fs root r) {path : Bytes}
    (hp : ∀ q data, path = underRoot root q → fs.entries[r ++ q]? ≠ some (.file data)) :
    snapshotsOf fs.view root path = none :=
  if_neg fun hm => by
    obtain ⟨q, data, hq, he⟩ := h.mem_regularFiles.mp hm
    exact hp q data hq he

/-- What `Build` reads under a name that leads to a file, a directory or nowhere. -/
theorem RootedTree.read_name (h : RootedTree fs root r) {data : Bytes}
    (he : fs.entries[r ++ q]? = some (.file data)) :
    fs.read (underRoot root q) = match underRootTarget root r q with
      | .ok t => if t = r then some [] else some data
      | .error _ => none := by
  have hne : r ++ q ≠ r := by
    intro hq
    rw [hq, h.dir] at he
    simp at he
  unfold FileSystem.read
  rw [h.linkFree.resolve_underRoot h.resolve h.dir he]
  unfold underRootTarget
  split_ifs
  · simp [h.dir]
  · rfl
  · simp [he, hne]

theorem RootedTree.content_of_read (h : RootedTree fs root r) {data content : Bytes}
    (he : fs.entries[r ++ q]? = some (.file data))
    (hr : fs.read (underRoot root q) = some content) : content = [] ∨ content = data := by
  rw [h.read_name he] at hr
  rcases ht : underRootTarget root r q with e | t <;> simp only [ht] at hr
  · simp at hr
  · split_ifs at hr
    · exact Or.inl (Option.some.inj hr).symm
    · exact Or.inr (Option.some.inj hr).symm

/-- `rel` is the name `Build` gives to the location `q`. -/
def NameOf (root : Bytes) (r : RealPath) (rel : Bytes) (q : RealPath) : Prop :=
  ∃ q', q = r ++ q' ∧ rel = underRoot root q'

/-- There is no word in what `Build` reads under its name of `q`. -/
def WordlessAt (fs : FileSystem) (root : Bytes) (r q : RealPath) : Prop :=
  ∀ path content, NameOf root r path q → snapshotsOf fs.view root path = some content →
    tokenize content = []

theorem RootedTree.snapshots_off (h : RootedTree fs root r) (hc : ChangedAt fs fs' q) {path : Bytes}
    (hp : ¬ NameOf root r path q) :
    snapshotsOf fs'.view root path = snapshotsOf fs.view root path := by
  have h' := h.changed hc
  have hoff : ∀ p, path = underRoot root p → fs'.entries[r ++ p]? = fs.entries[r ++ p]? := by
    intro p hpath
    apply hc.off
    intro hq
    exact hp ⟨p, hq.symm, hpath⟩
  by_cases hfile : ∃ p data, path = underRoot root p ∧ fs.entries[r ++ p]? = some (.file data)
  · obtain ⟨p, data, rfl, he⟩ := hfile
    have he' := (hoff p rfl).trans he
    rw [h.snapshots_file he, h'.snapshots_file he', h.read_name he, h'.read_name he']
  · push Not at hfile
    rw [h.snapshots_none hfile, h'.snapshots_none fun p data hpath => by
      rw [hoff p hpath]
      exact hfile p data hpath]

theorem RootedTree.snapshots_of_target (h : RootedTree fs root r) {rel : Bytes}
    (ht : fs.openTarget rel = .ok q) (hn : ¬ NameOf root r rel q) :
    snapshotsOf fs.view root rel = none := by
  apply h.snapshots_none
  rintro p data rfl he
  have hres := h.linkFree.resolve_underRoot h.resolve h.dir he
  rcases openTarget_eq_ok.mp ht with ⟨d, n, hl, rfl⟩ | ⟨data', hr, hd⟩
  · rw [resolve_of_missing hl] at hres
    unfold underRootTarget at hres
    split_ifs at hres
    simp at hres
  · rw [hr] at hres
    unfold underRootTarget at hres
    split_ifs at hres
    · rw [Except.ok.inj hres, h.dir] at hd
      simp at hd
    · exact hn ⟨p, Except.ok.inj hres, rfl⟩

theorem occurrences_eq_zero {S : Snapshots} {path : Bytes} :
    (∀ w, occurrences S w path = 0) ↔ ∀ content, S path = some content → tokenize content = [] := by
  rcases hS : S path with _ | content
  · simp [occurrences, hS]
  · simp only [occurrences, hS, Option.some.injEq, forall_eq', List.count_eq_zero]
    exact List.eq_nil_iff_forall_not_mem.symm

theorem indexOf_iff {m_count : InvertedIndex} {S S' : Snapshots} (h : IndexOf m_count S) :
    IndexOf m_count S' ↔ ∀ w path, occurrences S w path = occurrences S' w path := by
  constructor
  · intro h' w path
    exact h.cells_iff.mp (fun w => h'.cell_eq w path) w
  · exact h.congr

theorem occurrences_congr {S S' : Snapshots} {path : Bytes} (h : S path = S' path) (w : Bytes) :
    occurrences S w path = occurrences S' w path := by
  simp only [occurrences, h]

theorem NameOf.unique {path rel : Bytes} (h : NameOf root r path q) (h' : NameOf root r rel q) :
    path = rel := by
  obtain ⟨p, rfl, rfl⟩ := h
  obtain ⟨p', hq, rfl⟩ := h'
  rw [List.append_cancel_left hq]

theorem RootedTree.snapshots_named (h : RootedTree fs root r) (hc : ChangedAt fs fs' q)
    {rel : Bytes} (hn : NameOf root r rel q) :
    snapshotsOf fs'.view root =
      Function.update (snapshotsOf fs.view root) rel (snapshotsOf fs'.view root rel) := by
  funext path
  rcases eq_or_ne path rel with rfl | hpath
  · rw [Function.update_self]
  · rw [Function.update_of_ne hpath]
    exact h.snapshots_off hc fun hp => hpath (hp.unique hn)

theorem RootedTree.snapshots_name (h : RootedTree fs root r) {rel data : Bytes}
    (he : fs.entries[q]? = some (.file data)) (hn : NameOf root r rel q) :
    snapshotsOf fs.view root rel = fs.view.read rel := by
  obtain ⟨q', rfl, rfl⟩ := hn
  exact h.snapshots_file he

theorem RootedTree.snapshots_gone (h : RootedTree fs root r) {rel : Bytes}
    (hq : ∀ n ∈ q, PlainName n) (he : ∀ data, fs.entries[q]? ≠ some (.file data))
    (hn : NameOf root r rel q) : snapshotsOf fs.view root rel = none := by
  obtain ⟨q', rfl, rfl⟩ := hn
  apply h.snapshots_none
  intro p data hpath hfile
  have hq' : ∀ n ∈ q', PlainName n := fun n hn => hq n (by simp [hn])
  have hp : ∀ n ∈ p, PlainName n := fun n hn => plainName_of_entry hfile n (by simp [hn])
  rw [← underRoot_injective root hq' hp hpath] at hfile
  exact he data hfile

theorem RootedTree.fresh_alias_iff (h : RootedTree fs root r) (hc : ChangedAt fs fs' q)
    {m_count : InvertedIndex} {rel data : Bytes}
    (hm : IndexOf m_count (Function.update (snapshotsOf fs.view root) rel (some data)))
    (hn : ¬ NameOf root r rel q) (hrel : snapshotsOf fs.view root rel = none)
    (hname : ∀ path content, NameOf root r path q →
      snapshotsOf fs'.view root path = some content → content = [] ∨ content = data) :
    IndexOf m_count (snapshotsOf fs'.view root) ↔ tokenize data = [] ∧ WordlessAt fs root r q := by
  have hrel' := (h.snapshots_off hc hn).trans hrel
  set S := snapshotsOf fs.view root
  set S' := snapshotsOf fs'.view root
  have hnew : tokenize data = [] → ∀ path, NameOf root r path q → ∀ w, occurrences S' w path = 0 := by
    intro hdata path hp
    apply occurrences_eq_zero.mpr
    intro content hS'
    cases hname path content hp hS' with
    | inl hnil => rw [hnil]; rfl
    | inr heq => rw [heq, hdata]
  rw [indexOf_iff hm]
  constructor
  · intro hocc
    have hdata : tokenize data = [] := by
      have hzero : ∀ w, occurrences (Function.update S rel (some data)) w rel = 0 := by
        intro w
        rw [hocc, occurrences, hrel']
      exact occurrences_eq_zero.mp hzero data (Function.update_self ..)
    refine ⟨hdata, fun path content hp hS => ?_⟩
    have hpath : path ≠ rel := fun he => hn (he ▸ hp)
    refine occurrences_eq_zero.mp (fun w => ?_) content hS
    rw [← occurrences_congr (Function.update_of_ne hpath (some data) S) w, hocc]
    exact hnew hdata path hp w
  · intro hwords w path
    obtain ⟨hdata, hold⟩ := hwords
    -- `rel` itself, the names of `q`, and the names that nothing concerns
    rcases eq_or_ne path rel with rfl | hpath
    · rw [show occurrences S' w path = 0 by rw [occurrences, hrel']]
      refine occurrences_eq_zero.mpr (fun content hS => ?_) w
      rw [Function.update_self] at hS
      rw [← Option.some.inj hS, hdata]
    · rw [occurrences_congr (Function.update_of_ne hpath (some data) S) w]
      by_cases hp : NameOf root r path q
      · rw [occurrences_eq_zero.mpr (fun content hS => hold path content hp hS) w,
          hnew hdata path hp w]
      · exact occurrences_congr (h.snapshots_off hc hp).symm w

theorem RootedTree.fresh_put_iff (h : RootedTree fs root r) {m_count : InvertedIndex}
    (hm : IndexOf m_count (snapshotsOf fs.view root)) {rel data : Bytes}
    (ht : fs.openTarget rel = .ok q) :
    IndexOf (InvertedIndex.addFile (fs.set q (.file data)).view rel m_count)
        (snapshotsOf (fs.set q (.file data)).view root) ↔
      NameOf root r rel q ∨ tokenize data = [] ∧ WordlessAt fs root r q := by
  have hc := changedAt_set h.linkFree (canSet_of_openTarget ht) data
  have hread : (fs.set q (.file data)).view.read rel = some data := read_set_openTarget ht data
  have hfile : (fs.set q (.file data)).entries[q]? = some (.file data) := by
    rw [entries_set (canSet_of_openTarget ht), if_pos rfl]
  have hadd := hm.addFile (fs.set q (.file data)).view rel
  rw [hread] at hadd
  have h' := h.changed hc
  by_cases hn : NameOf root r rel q
  · simp only [hn, true_or, iff_true]
    rw [h.snapshots_named hc hn, h'.snapshots_name hfile hn, hread]
    exact hadd
  · rw [h.fresh_alias_iff hc hadd hn (h.snapshots_of_target ht hn)]
    · simp [hn]
    · intro path content hp hS'
      rw [h'.snapshots_name hfile hp] at hS'
      obtain ⟨q', rfl, rfl⟩ := hp
      exact h'.content_of_read hfile hS'

theorem RootedTree.fresh_delete_iff (h : RootedTree fs root r) {m_count : InvertedIndex}
    (hm : IndexOf m_count (snapshotsOf fs.view root)) {rel data : Bytes}
    (hr : fs.resolve rel = .ok q) (hd : fs.entries[q]? = some (.file data)) :
    IndexOf (InvertedIndex.removeFile rel m_count) (snapshotsOf (fs.remove q).view root) ↔
      NameOf root r rel q ∨ WordlessAt fs root r q := by
  have hnd : fs.entries[q]? ≠ some .dir := by simp [hd]
  have hc := changedAt_remove h.linkFree hnd
  have hrem := hm.removeFile rel
  have hname : ∀ path, NameOf root r path q → snapshotsOf (fs.remove q).view root path = none := by
    intro path hp
    refine (h.changed hc).snapshots_gone (plainName_of_entry hd) (fun data' => ?_) hp
    simp [entries_remove hnd]
  by_cases hn : NameOf root r rel q
  · simp only [hn, true_or, iff_true]
    rw [h.snapshots_named hc hn, hname rel hn]
    exact hrem
  · have hrel : snapshotsOf fs.view root rel = none :=
      h.snapshots_of_target (openTarget_eq_ok.mpr (Or.inr ⟨data, hr, hd⟩)) hn
    rw [← hrel, Function.update_eq_self] at hrem
    rw [indexOf_iff hrem]
    simp only [hn, false_or]
    constructor
    · intro hocc path content hp hcontent
      refine occurrences_eq_zero.mp (fun w => ?_) content hcontent
      rw [hocc, occurrences, hname path hp]
    · intro hold w path
      by_cases hp : NameOf root r path q
      · rw [occurrences_eq_zero.mpr (fun content hS => hold path content hp hS) w, occurrences,
          hname path hp]
      · exact occurrences_congr (h.snapshots_off hc hp).symm w

theorem DeleteAccepted.resolve (hfree : fs.LinkFree) {rel : Bytes}
    (h : DeleteAccepted fs root rel q) :
    fs.resolve rel = .ok q ∧ ∃ data, fs.entries[q]? = some (.file data) := by
  obtain ⟨p, data, hp, hd⟩ := isRegularFile_eq_true.mp h.regular
  obtain rfl : p = q := by
    have := hfree.entryPath_eq hp hd
    simpa [h.entry] using this.symm
  exact ⟨hp, data, hd⟩

/-- The request keeps the live index fresh: it is refused, or spells its path as `Build` does,
or there is no word under either name. -/
def LiveOk (ctx : ClientCtx V) (fs : FileSystem) (r : RealPath) (req : Request) : Prop :=
  ((req.method = text "PUT" ∨ req.method = text "POST") → ∀ q existed,
    PutAccepted fs ctx.files_root (req.path.drop 8) (overwrites req) q existed →
      NameOf ctx.files_root r (req.path.drop 8) q ∨
        tokenize req.body = [] ∧ WordlessAt fs ctx.files_root r q) ∧
  (req.method = text "DELETE" → ∀ q, DeleteAccepted fs ctx.files_root (req.path.drop 8) q →
    NameOf ctx.files_root r (req.path.drop 8) q ∨ WordlessAt fs ctx.files_root r q)

/-- The keyword index is the one a build of the current tree gives. -/
def IndexFresh (ctx : ClientCtx V) (w : World V) : Prop :=
  InvertedIndex.build w.fs.view ctx.files_root = .ok w.index

theorem IndexFresh.cell_eq {w : World V} (h : IndexFresh ctx w) (word path : Bytes) :
    (InvertedIndex.build w.fs.view ctx.files_root).map (fun m_count => m_count.cell word path) =
      .ok (w.index.cell word path) := by
  unfold IndexFresh at h
  rw [h]
  rfl

theorem request_fresh_iff {w : World V} (h : RootedTree w.fs ctx.files_root r)
    (hfresh : IndexFresh ctx w) (req : Request) :
    RootedTree (handleStaticMutation ctx req w).2.fs ctx.files_root r ∧
      (IndexFresh ctx (handleStaticMutation ctx req w).2 ↔ LiveOk ctx w.fs r req) := by
  have hm := h.build_eq_iff.mp hfresh
  by_cases hput : req.method = text "PUT" ∨ req.method = text "POST"
  · have hnd : req.method ≠ text "DELETE" := by
      rcases hput with hput | hput <;> rw [hput] <;> decide
    rw [handleStaticMutation_put hput]
    by_cases hacc : ∃ q existed,
        PutAccepted w.fs ctx.files_root (req.path.drop 8) (overwrites req) q existed
    · obtain ⟨q, existed, hacc⟩ := hacc
      have h' := h.changed (changedAt_set h.linkFree (canSet_of_openTarget hacc.target) req.body)
      rw [putAndIndex_of_accepted hacc]
      refine ⟨h', ?_⟩
      unfold IndexFresh
      rw [h'.build_eq_iff, h.fresh_put_iff hm hacc.target]
      refine ⟨fun hn => ⟨fun _ q' existed' hacc' => ?_, fun hd => absurd hd hnd⟩,
        fun hl => hl.1 hput q existed hacc⟩
      -- the request has one target
      obtain rfl : q = q' := Except.ok.inj (hacc.target.symm.trans hacc'.target)
      exact hn
    · push Not at hacc
      rw [putAndIndex_of_refused hacc]
      exact ⟨h, iff_of_true hfresh
        ⟨fun _ q existed hq => absurd hq (hacc q existed), fun hd => absurd hd hnd⟩⟩
  by_cases hd : req.method = text "DELETE"
  · by_cases hacc : ∃ q, DeleteAccepted w.fs ctx.files_root (req.path.drop 8) q
    · obtain ⟨q, hacc⟩ := hacc
      obtain ⟨hq, data, hdata⟩ := hacc.resolve h.linkFree
      have h' := h.changed (changedAt_remove h.linkFree hacc.entries.1)
      rw [handleStaticMutation_delete hd hacc]
      refine ⟨h', ?_⟩
      unfold IndexFresh
      rw [h'.build_eq_iff, h.fresh_delete_iff hm hq hdata]
      refine ⟨fun hn => ⟨fun hp => absurd hp hput, fun _ q' hacc' => ?_⟩, fun hl => hl.2 hd q hacc⟩
      -- the request has one target
      obtain rfl : q = q' := Except.ok.inj (hacc.entry.symm.trans hacc'.entry)
      exact hn
    · push Not at hacc
      rw [handleStaticMutation_delete_refused hd hacc]
      exact ⟨h, iff_of_true hfresh
        ⟨fun hp => absurd hp hput, fun _ q hq => absurd hq (hacc q)⟩⟩
  · rw [not_or] at hput
    rw [handleStaticMutation_other hput.1 hput.2 hd]
    exact ⟨h, iff_of_true hfresh
      ⟨fun hp => absurd hp (by simp [hput.1, hput.2]), fun hd' => absurd hd' hd⟩⟩

/-- The requests handled one after the other. -/
def mutations (ctx : ClientCtx V) (reqs : List Request) (w : World V) : World V :=
  Runs.run (fun w req => (handleStaticMutation ctx req w).2) w reqs

/-- The index is fresh after every request exactly when every request is `LiveOk` in the state
it meets. -/
theorem mutations_fresh_iff (ctx : ClientCtx V) {w : World V}
    (h : RootedTree w.fs ctx.files_root r) (hfresh : IndexFresh ctx w) (reqs : List Request) :
    (∀ pre, pre <+: reqs → IndexFresh ctx (mutations ctx pre w)) ↔
      ∀ pre req, pre ++ [req] <+: reqs → LiveOk ctx (mutations ctx pre w).fs r req := by
  show Runs.Throughout _ (IndexFresh ctx) w reqs ↔
    Runs.AllOk _ (fun w req => LiveOk ctx w.fs r req) w reqs
  apply Runs.throughout_iff_allOk (J := fun w => RootedTree w.fs ctx.files_root r) _ h hfresh
  intro w req hw hfresh
  exact request_fresh_iff hw hfresh req

theorem rootedTree_smallTree :
    RootedTree smallTree (text "root") [text "srv", text "root"] where
  linkFree :=
    LinkFree.set (LinkFree.set (linkFree_empty.set _ (by simp)) _ (by simp)) _ (by simp)
  resolve := by decide +kernel
  dir := by decide +kernel

def smallIndex : InvertedIndex :=
  match InvertedIndex.build smallTree.view (text "root") with
  | .ok m_count => m_count
  | .error _ => ∅

theorem indexFresh_smallTree : IndexFresh plainCtx ⟨smallTree, smallIndex, ()⟩ := by
  obtain ⟨m_count, hm⟩ := rootedTree_smallTree.build_ok
  change InvertedIndex.build smallTree.view (text "root") = .ok smallIndex
  rw [smallIndex, hm]

def putAlias : Request where
  method := text "PUT"
  path := text "/static/root//a"
  body := text "hat"

theorem mutations_fresh_iff_putAlias :
    (∀ pre, pre <+: [putAlias] →
        IndexFresh plainCtx (mutations plainCtx pre ⟨smallTree, smallIndex, ()⟩)) ↔
      ∀ pre req, pre ++ [req] <+: [putAlias] →
        LiveOk plainCtx (mutations plainCtx pre ⟨smallTree, smallIndex, ()⟩).fs
          [text "srv", text "root"] req :=
  mutations_fresh_iff plainCtx rootedTree_smallTree indexFresh_smallTree [putAlias]

/-- The word of the new content stands under `root//a`, where no build puts it. -/
theorem putAlias_not_fresh :
    RootedTree smallTree (text "root") [text "srv", text "root"] ∧
      IndexFresh plainCtx ⟨smallTree, smallIndex, ()⟩ ∧
        ¬ IndexFresh plainCtx (mutations plainCtx [putAlias] ⟨smallTree, smallIndex, ()⟩) := by
  refine ⟨rootedTree_smallTree, indexFresh_smallTree, fun h => ?_⟩
  have hcell := h.cell_eq (text "hat") (text "root//a")
  set w := mutations plainCtx [putAlias] ⟨smallTree, smallIndex, ()⟩ with hw
  have hlive : w.index.cell (text "hat") (text "root//a") = some 1 := by
    rw [hw]
    decide +kernel
  have hbuilt : (InvertedIndex.build w.fs.view plainCtx.files_root).map
      (fun m_count => m_count.cell (text "hat") (text "root//a")) = .ok none := by
    rw [hw]
    decide +kernel
  rw [hlive, hbuilt] at hcell
  simp at hcell

end SemanticSearch
