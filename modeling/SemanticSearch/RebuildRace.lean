import SemanticSearch.EmbedMessages

namespace SemanticSearch

open FileSystem EmbedService EmbedConfig

variable {R ι : Type} {cfg : EmbedConfig Char R} {ctx : ClientCtx (Embedder Char R)}
  {job : ι → Request} {r q : RealPath} {path : Bytes}

/-- The server with the requests `job`, and the embed service with its rebuild in the background.
The messages are those of `VectorClient`. -/
def EmbedConfig.program (cfg : EmbedConfig Char R) (ctx : ClientCtx (Embedder Char R))
    (job : ι → Request) : Program (Embedder Char R) ι where
  ctx := { ctx with
    addDoc := fun docId content v =>
      { v with service := VectorClient.addDoc cfg.encode docId content v.service }
    removeDoc := fun docId v =>
      { v with service := VectorClient.removeDoc cfg.encode docId v.service } }
  background := cfg.rebuildStep
  job := job

/-- The path of the request is the name that the rebuild gives to a file. -/
def SpelledAsRebuild (root : Bytes) (req : Request) : Prop :=
  ∃ q : RealPath, q ≠ [] ∧ (∀ n ∈ q, ValidName n) ∧ relOf req = pathChild root q

/-- The ids that are to be the files: those on their way from the listing to the swap, and then
those of the service. -/
def Embedder.listedIds (v : Embedder Char R) : Option (List Bytes) :=
  match v.rebuild with
  | .waiting => none
  | .listed docs => some (docs.map Prod.fst)
  | .embedded ids _ => some ids
  | .swapped => some v.service.stores.ids
  | .finished => some v.service.stores.ids

/-- From the listing on, the ids agree with the files where no message is due. -/
def VecSettled (cfg : EmbedConfig Char R) (job : ι → Request) (s : Sys (Embedder Char R) ι) : Prop :=
  ∀ ids ∈ s.world.vec.listedIds, ∀ path, ¬ DueAt Phase.VecDue job s.phase path →
    (path ∈ ids ↔ path ∈ rglobFiles s.world.fs cfg.search_root)

/-- Another request has a message for the same path to send. -/
def OtherDue (job : ι → Request) (s : Sys (Embedder Char R) ι) (i : ι) : Prop :=
  ∃ j, j ≠ i ∧ (s.phase j).VecDue ∧ relOf (job j) = relOf (job i)

/-- The ids that are on their way to the swap. -/
def Embedder.carriedIds (v : Embedder Char R) : Option (List Bytes) :=
  match v.rebuild with
  | .listed docs => some (docs.map Prod.fst)
  | .embedded ids _ => some ids
  | _ => none

def Embedder.Swapped (v : Embedder Char R) : Prop := v.rebuild = .swapped ∨ v.rebuild = .finished

/-- What the message of `i` must meet. Between listing and swap its file is there exactly if it is
listed. Behind the swap an addition finds the file there, and it is taken in or an id already; a
removal finds the file gone. None of this matters where another message for the path follows, but a
removal names the path itself in any case. -/
structure MessageOk (cfg : EmbedConfig Char R) (job : ι → Request) (s : Sys (Embedder Char R) ι)
    (i : ι) : Prop where
  carried : ∀ ids ∈ s.world.vec.carriedIds, OtherDue job s i ∨
    (relOf (job i) ∈ ids ↔ relOf (job i) ∈ rglobFiles s.world.fs cfg.search_root)
  added : s.world.vec.Swapped → (job i).method ≠ text "DELETE" → OtherDue job s i ∨
    relOf (job i) ∈ rglobFiles s.world.fs cfg.search_root ∧
      (VectorClient.Accepted (relOf (job i)) (job i).body ∨
        relOf (job i) ∈ s.world.vec.service.stores.ids)
  removed : s.world.vec.Swapped → (job i).method = text "DELETE" → NamesItself (relOf (job i)) ∧
    (OtherDue job s i ∨ relOf (job i) ∉ rglobFiles s.world.fs cfg.search_root)

/-- The steps that lose nothing. The rebuild ends without a swap only if a message is due for every
id, and every message is as `MessageOk` has it. -/
def VecOk (cfg : EmbedConfig Char R) (job : ι → Request) (s : Sys (Embedder Char R) ι) :
    Option ι → Prop
  | none => s.world.vec.rebuild = .waiting → rglobFiles s.world.fs cfg.search_root = [] →
      ∀ path ∈ s.world.vec.service.stores.ids, DueAt Phase.VecDue job s.phase path
  | some i => ∀ resp, s.phase i = .indexed resp → MessageOk cfg job s i

/-- The arrays that the rebuild carries to its swap are those of some files. -/
def RebuildSound (cfg : EmbedConfig Char R) : RebuildPhase Char R → Prop
  | .listed docs => docs ≠ [] ∧ (docs.map Prod.fst).Nodup
  | .embedded ids vecs => ∃ docs : List (Bytes × List Char), (docs.map Prod.fst).Nodup ∧
      (ids, vecs) = embedAll cfg.encode docs
  | _ => True

structure VecSound (cfg : EmbedConfig Char R) (r : RealPath) (s : Sys (Embedder Char R) ι) :
    Prop where
  rooted : SearchRoot s.world.fs cfg.search_root r
  stores : ∃ docs, Holds cfg.encode s.world.vec.service.stores docs
  rebuild : RebuildSound cfg s.world.vec.rebuild

variable [DecidableEq ι] {s : Sys (Embedder Char R) ι} {i : ι}

theorem VecSound.rebuild_step (hs : VecSound cfg r s) :
    VecSound cfg r ((cfg.program ctx job).step s none) := by
  obtain ⟨hroot, hst, hreb⟩ := hs
  change VecSound cfg r ⟨{ s.world with vec := cfg.rebuildStep s.world.fs s.world.vec }, s.phase⟩
  cases hv : s.world.vec.rebuild with
  | waiting =>
    by_cases hfiles : rglobFiles s.world.fs cfg.search_root = []
    · rw [rebuildStep_noFiles hv hfiles]
      exact ⟨hroot, hst, trivial⟩
    · rw [rebuildStep_files hv hfiles]
      refine ⟨hroot, hst, cfg.readDocs_ne_nil hfiles, ?_⟩
      rw [cfg.ids_readDocs]
      exact nodup_rglobFiles _ _
  | listed docs =>
    rw [hv] at hreb
    rw [rebuildStep_listed hv hreb.1]
    exact ⟨hroot, hst, docs, hreb.2, rfl⟩
  | embedded ids vecs =>
    rw [hv] at hreb
    obtain ⟨docs, hdocs, harrays⟩ := hreb
    obtain ⟨rfl, rfl⟩ := Prod.mk.inj harrays
    rw [rebuildStep_embedded hv]
    exact ⟨hroot, ⟨docs, holds_swapIn cfg.encode hdocs⟩, trivial⟩
  | swapped =>
    rw [rebuildStep_swapped hv]
    exact ⟨hroot, hst, trivial⟩
  | finished =>
    rw [rebuildStep_finished hv]
    exact ⟨hroot, hst, hreb⟩

theorem VecSettled.rebuild_step (hs : VecSound cfg r s) (h : VecSettled cfg job s)
    (hok : VecOk cfg job s none) : VecSettled cfg job ((cfg.program ctx job).step s none) := by
  change VecSettled cfg job ⟨{ s.world with vec := cfg.rebuildStep s.world.fs s.world.vec }, s.phase⟩
  cases hv : s.world.vec.rebuild with
  | waiting =>
    by_cases hfiles : rglobFiles s.world.fs cfg.search_root = []
    · -- no file: the rebuild ends here, and the ids stay
      rw [rebuildStep_noFiles hv hfiles]
      rintro ids ⟨⟩ path hnot
      change path ∈ s.world.vec.service.stores.ids ↔ path ∈ rglobFiles s.world.fs cfg.search_root
      rw [hfiles]
      exact iff_of_false (fun hpath => hnot (hok hv hfiles path hpath)) List.not_mem_nil
    · rw [rebuildStep_files hv hfiles]
      rintro ids ⟨⟩ path -
      rw [cfg.ids_readDocs]
  | listed docs =>
    have hreb := hs.rebuild
    rw [hv] at hreb
    rw [rebuildStep_listed hv hreb.1]
    rintro ids ⟨⟩
    exact h _ (by rw [Embedder.listedIds, hv]; rfl)
  | embedded ids vecs =>
    rw [rebuildStep_embedded hv]
    rintro ids' ⟨⟩
    exact h _ (by rw [Embedder.listedIds, hv]; rfl)
  | swapped =>
    rw [rebuildStep_swapped hv]
    rintro ids ⟨⟩
    exact h _ (by rw [Embedder.listedIds, hv]; rfl)
  | finished =>
    rw [rebuildStep_finished hv]
    exact h

theorem VecSettled.quiet (h : VecSettled cfg job s) {p : Phase}
    (hi : (s.phase i).VecDue → p.VecDue) (index : InvertedIndex) :
    VecSettled cfg job ⟨{ s.world with index := index }, Function.update s.phase i p⟩ := by
  intro ids hids path hdue
  apply h ids hids path
  intro ⟨j, hj, hpath⟩
  apply hdue
  apply dueAt_update.mpr
  by_cases hji : j = i
  · subst hji
    exact Or.inl ⟨hi hj, hpath⟩
  · exact Or.inr ⟨j, hji, hj, hpath⟩

/-- A step that changes a file; the message is due then. -/
theorem VecSettled.change (h : VecSettled cfg job s)
    (hroot : SearchRoot s.world.fs cfg.search_root r) {fs' : FileSystem}
    (hrel : relOf (job i) = pathChild cfg.search_root q)
    (hc : ChangedAt s.world.fs fs' (r ++ q)) (resp : Bytes) :
    VecSettled cfg job ⟨{ s.world with fs := fs' }, Function.update s.phase i (.changed resp)⟩ := by
  intro ids hids path hdue
  have hpath : relOf (job i) ≠ path := by
    intro hpath
    exact hdue (dueAt_update.mpr (Or.inl ⟨trivial, hpath⟩))
  have hagree := h ids hids path (not_dueAt_of_update (Or.inr hpath) hdue)
  rw [hroot.rglobFiles_off hc (by rw [← hrel]; exact Ne.symm hpath)]
  exact hagree

omit [DecidableEq ι] in
theorem rebuild_updateVec (cfg : EmbedConfig Char R) (ctx : ClientCtx (Embedder Char R))
    (job : ι → Request) (req : Request) (v : Embedder Char R) :
    (updateVec (cfg.program ctx job).ctx req v).rebuild = v.rebuild := by
  unfold updateVec
  split_ifs <;> rfl

omit [DecidableEq ι] in
/-- What a message leaves of the ids, and that they stay those of some documents. -/
theorem mem_ids_updateVec (cfg : EmbedConfig Char R) (ctx : ClientCtx (Embedder Char R))
    (job : ι → Request) {req : Request}
    (hreq : InTarget (relOf req)) {v : Embedder Char R} {docs : List (Bytes × List Char)}
    (hst : Holds cfg.encode v.service.stores docs) :
    (∃ docs', Holds cfg.encode (updateVec (cfg.program ctx job).ctx req v).service.stores docs') ∧
      ∀ path, path ∈ (updateVec (cfg.program ctx job).ctx req v).service.stores.ids ↔
        if req.method = text "DELETE" then
          path ∈ v.service.stores.ids ∧ path ≠ utf8 (removedName (relOf req))
        else path ∈ v.service.stores.ids ∨
          VectorClient.Accepted (relOf req) req.body ∧ path = relOf req := by
  by_cases hm : req.method = text "DELETE"
  · simp only [updateVec, if_pos hm]
    exact VectorClient.mem_ids_removeDoc hst hreq
  · simp only [updateVec, if_neg hm]
    exact VectorClient.mem_ids_addDoc hst (relOf req) req.body

/-- A message that is as it must be keeps the agreement behind the swap. -/
theorem VecSettled.message_behind (h : VecSettled cfg job s) (hreq : InTarget (relOf (job i)))
    {docs : List (Bytes × List Char)} (hst : Holds cfg.encode s.world.vec.service.stores docs)
    {resp : Bytes} (hi : s.phase i = .indexed resp) (hok : VecOk cfg job s (some i))
    (hv : s.world.vec.Swapped) :
    ∀ path, ¬ DueAt Phase.VecDue job (Function.update s.phase i (.done resp)) path →
      (path ∈ (updateVec (cfg.program ctx job).ctx (job i) s.world.vec).service.stores.ids ↔
        path ∈ rglobFiles s.world.fs cfg.search_root) := by
  intro path hdue
  have hids := (mem_ids_updateVec cfg ctx job hreq hst).2 path
  have hold : ∀ p, ¬ DueAt Phase.VecDue job s.phase p →
      (p ∈ s.world.vec.service.stores.ids ↔ p ∈ rglobFiles s.world.fs cfg.search_root) := by
    apply h
    rcases hv with hv | hv <;> rw [Embedder.listedIds, hv] <;> rfl
  have hmessage := hok resp hi
  have hother : OtherDue job s i → path ≠ relOf (job i) := by
    rintro hother rfl
    exact hdue (dueAt_update.mpr (Or.inr hother))
  rw [hids]
  by_cases hm : (job i).method = text "DELETE"
  · have hremoves := hmessage.removed hv hm
    rw [if_pos hm, (utf8_removedName_iff _).mpr hremoves.1]
    by_cases hpath : path = relOf (job i)
    · have hgone := hremoves.2.resolve_left fun ho => hother ho hpath
      rw [hpath]
      exact iff_of_false (fun hmem => hmem.2 rfl) hgone
    · rw [and_iff_left hpath]
      exact hold path (not_dueAt_of_update (Or.inr (Ne.symm hpath)) hdue)
  · have hadds := hmessage.added hv hm
    rw [if_neg hm]
    by_cases hpath : path = relOf (job i)
    · obtain ⟨hfile, hin⟩ := hadds.resolve_left fun ho => hother ho hpath
      rw [hpath]
      exact iff_of_true (hin.elim (fun ha => Or.inr ⟨ha, rfl⟩) Or.inl) hfile
    · rw [or_iff_left fun hmem => hpath hmem.2]
      exact hold path (not_dueAt_of_update (Or.inr (Ne.symm hpath)) hdue)

/-- A message that is as it must be keeps the agreement. What it tells the service before the swap
is thrown away. -/
theorem VecSettled.message (h : VecSettled cfg job s) (hreq : InTarget (relOf (job i)))
    {docs : List (Bytes × List Char)} (hst : Holds cfg.encode s.world.vec.service.stores docs)
    {resp : Bytes} (hi : s.phase i = .indexed resp) (hok : VecOk cfg job s (some i)) :
    VecSettled cfg job ⟨{ s.world with
      vec := updateVec (cfg.program ctx job).ctx (job i) s.world.vec },
      Function.update s.phase i (.done resp)⟩ := by
  have hreb := rebuild_updateVec cfg ctx job (job i) s.world.vec
  have hwindow : ∀ listed : List Bytes, s.world.vec.listedIds = some listed →
      OtherDue job s i ∨ (relOf (job i) ∈ listed ↔
        relOf (job i) ∈ rglobFiles s.world.fs cfg.search_root) →
      ∀ path, ¬ DueAt Phase.VecDue job (Function.update s.phase i (.done resp)) path →
        (path ∈ listed ↔ path ∈ rglobFiles s.world.fs cfg.search_root) := by
    intro listed hlisted hmessage path hdue
    by_cases hpath : path = relOf (job i)
    · rw [hpath] at hdue ⊢
      exact hmessage.resolve_left fun ho => hdue (dueAt_update.mpr (Or.inr ho))
    · exact h listed hlisted path (not_dueAt_of_update (Or.inr (Ne.symm hpath)) hdue)
  have hmessage := hok resp hi
  intro ids hids
  cases hv : s.world.vec.rebuild with
  | waiting =>
    rw [hv] at hreb
    simp [Embedder.listedIds, hreb] at hids
  | listed ds =>
    rw [hv] at hreb
    obtain rfl : ds.map Prod.fst = ids := by simpa [Embedder.listedIds, hreb] using hids
    refine hwindow _ (by rw [Embedder.listedIds, hv]) (hmessage.carried _ ?_)
    rw [Embedder.carriedIds, hv]
    rfl
  | embedded is vs =>
    rw [hv] at hreb
    obtain rfl : is = ids := by simpa [Embedder.listedIds, hreb] using hids
    refine hwindow _ (by rw [Embedder.listedIds, hv]) (hmessage.carried _ ?_)
    rw [Embedder.carriedIds, hv]
    rfl
  | swapped =>
    rw [hv] at hreb
    simp only [Embedder.listedIds, hreb, Option.mem_def, Option.some.injEq] at hids
    subst hids
    exact h.message_behind hreq hst hi hok (Or.inl hv)
  | finished =>
    rw [hv] at hreb
    simp only [Embedder.listedIds, hreb, Option.mem_def, Option.some.injEq] at hids
    subst hids
    exact h.message_behind hreq hst hi hok (Or.inr hv)

theorem VecSettled.step (ctx : ClientCtx (Embedder Char R))
    (hspell : ∀ i, SpelledAsRebuild cfg.search_root (job i))
    (hreq : ∀ i, InTarget (relOf (job i))) (hs : VecSound cfg r s) (h : VecSettled cfg job s)
    {a : Option ι} (hok : VecOk cfg job s a) :
    VecSound cfg r ((cfg.program ctx job).step s a) ∧
      VecSettled cfg job ((cfg.program ctx job).step s a) := by
  cases a with
  | none => exact ⟨hs.rebuild_step, h.rebuild_step hs hok⟩
  | some i =>
    obtain ⟨hroot, hst, hreb⟩ := hs
    obtain ⟨q, hq0, hq, hrel⟩ := hspell i
    rcases (cfg.program ctx job).step_cases s i with ⟨p, hi, hstep⟩ |
      ⟨fs', resp, hi, hchange, hstep⟩ | ⟨resp, hi, hstep⟩ | ⟨resp, hi, hstep⟩
    · -- the check, or a refusal
      rw [hstep]
      exact ⟨⟨hroot, hst, hreb⟩, h.quiet (fun hdue => absurd hdue hi) s.world.index⟩
    · -- the write or the removal
      have hchanged : ChangedAt s.world.fs fs' (r ++ q) := by
        apply hchange.changedAt hroot.linkFree
        intro t ht
        change s.world.fs.openTarget (relOf (job i)) = .ok t at ht
        rw [hrel] at ht
        exact hroot.openTarget_pathChild hq0 hq ht
      rw [hstep]
      exact ⟨⟨hroot.changed hchanged, hst, hreb⟩, h.change hroot hrel hchanged resp⟩
    · -- the update of the index
      rw [hstep]
      exact ⟨⟨hroot, hst, hreb⟩, h.quiet (p := .indexed resp) (fun _ => trivial) _⟩
    · -- the message
      obtain ⟨docs, hdocs⟩ := hst
      rw [hstep]
      refine ⟨⟨hroot, (mem_ids_updateVec cfg ctx job (hreq i) hdocs).1, ?_⟩,
        h.message (hreq i) hdocs hi hok⟩
      change RebuildSound cfg (updateVec (cfg.program ctx job).ctx (job i) s.world.vec).rebuild
      rw [rebuild_updateVec]
      exact hreb

omit [DecidableEq ι] in
theorem vecOk_of_added (hv : s.world.vec.rebuild = .swapped)
    (hm : (job i).method ≠ text "DELETE")
    (hfile : relOf (job i) ∈ rglobFiles s.world.fs cfg.search_root)
    (ha : VectorClient.Accepted (relOf (job i)) (job i).body) : VecOk cfg job s (some i) := by
  intro resp _
  refine ⟨?_, fun _ _ => Or.inr ⟨hfile, Or.inl ha⟩, fun _ h => absurd h hm⟩
  intro ids hids
  simp [Embedder.carriedIds, hv] at hids

/-- The service over `root`, with the number of characters as the vector. -/
def echoConfig : EmbedConfig Char ℕ := ⟨text "root", utf8Replace, List.length⟩

def embedCtx : ClientCtx (Embedder Char ℕ) where
  home_page := text "home"
  files_root := text "root"
  addDoc _ _ v := v
  removeDoc _ v := v
  searchJson _ _ _ := text "[]"
  askJson _ _ := text "[]"

def putB (_ : Unit) : Request :=
  { method := text "PUT", path := text "/static/root/b",
    headers := (∅ : Headers).insert (text "content-length") (text "3"), body := text "hat" }

def embedStart : Sys (Embedder Char ℕ) Unit := ⟨⟨smallTree, smallIndex, {}⟩, fun _ => .waiting⟩

theorem searchRoot_smallTree :
    SearchRoot smallTree (text "root") [text "srv", text "root"] where
  linkFree := rootedTree_smallTree.linkFree
  resolve := by decide +kernel
  dir := rootedTree_smallTree.dir
  zero := by decide

theorem parsed_putB (i : Unit) : ∃ raw, parseRequest raw = .ok (putB i) :=
  ⟨text "PUT /static/root/b HTTP/1.1\r\nContent-Length: 3\r\n\r\nhat", by cases i; decide +kernel⟩

theorem spelled_putB (i : Unit) : SpelledAsRebuild echoConfig.search_root (putB i) :=
  ⟨[text "b"], by decide, by decide, by cases i; decide⟩

theorem accepted_putB : VectorClient.Accepted (relOf (putB ())) (putB ()).body :=
  ⟨by decide +kernel, by decide +kernel⟩

/-- The file is written before the listing, and its message comes in behind the swap. -/
def putAroundRebuild : List (Option Unit) :=
  [some (), some (), some (), none, none, none, some (), none]

/-- The upload comes behind the listing and is complete before the swap. -/
def putInWindow : List (Option Unit) :=
  [none] ++ List.replicate 4 (some ()) ++ List.replicate 3 none

end SemanticSearch
