import SemanticSearch.EmbeddedText
import SemanticSearch.RequestSteps

namespace SemanticSearch

open FileSystem InvertedIndex EmbedService

variable {ι : Type} [DecidableEq ι]

/-- The embed service, with each text itself in the place of its vector. -/
abbrev TextService := Service Bytes (List Char)

/-- The text that a path was last embedded with. -/
def embedded (rel : Bytes) (v : TextService) : Option (List Char) :=
  (v.stores.ids.zip v.stores.vecs).lookup rel

/-- What `VectorClient::AddDoc` sends of a text. -/
def truncated (data : Bytes) : Bytes := data.take EmbedConfig.kTextLimit

/-- The embedded text is that of the file. -/
def EmbedsFile (rel : Bytes) (fs : FileSystem) (v : TextService) : Prop :=
  (embedded rel v).map utf8 = (fs.read rel).map truncated

/-- PUTs of the bodies `body` on one path. -/
def puts (filesRoot rel : Bytes) (body : ι → Bytes) : Program TextService ι where
  ctx :=
    { home_page := []
      files_root := filesRoot
      addDoc := VectorClient.addDoc id
      removeDoc := VectorClient.removeDoc id
      searchJson := fun _ _ _ => []
      askJson := fun _ _ => [] }
  background _ v := v
  job i := { method := text "PUT", path := staticPrefix ++ rel, body := body i }

/-- Some request is accepted and completed. -/
def Accepted (s : Sys TextService ι) : Prop := ∃ i resp, s.phase i = .done resp ∧ succeeded resp

/-- Once a request is accepted and no message is due, both indexes are those of the file. -/
def SameVersion (rel : Bytes) (s : Sys TextService ι) : Prop :=
  Accepted s → (∀ i, ¬ (s.phase i).VecDue) →
    EmbedsFile rel s.world.fs s.world.vec ∧
      ∃ S, IndexOf s.world.index S ∧ S rel = s.world.fs.read rel

/-- The message of a request leaves the service with the text of the file: if the service takes it
in, by its own body, and otherwise by what is there already. -/
def BringsFile (rel body : Bytes) (fs : FileSystem) (v : TextService) : Prop :=
  (VectorClient.Accepted rel body → (fs.read rel).map truncated = some (truncated body)) ∧
    (¬ VectorClient.Accepted rel body → EmbedsFile rel fs v)

/-- The request that sends its message brings the text of the file, or another message is due
behind it. -/
def SendsFile (rel : Bytes) (body : ι → Bytes) (s : Sys TextService ι) : Option ι → Prop
  | none => True
  | some i => ∀ resp, s.phase i = .indexed resp →
      (∃ j, j ≠ i ∧ (s.phase j).VecDue) ∨ BringsFile rel (body i) s.world.fs s.world.vec

def HasIndexed (p : Phase) : Prop := ∃ resp, succeeded resp ∧ (p = .indexed resp ∨ p = .done resp)

/-- Behind the change of the file an answer is a success, the index is that of the file where no
update of it is due, and the stores of the service are aligned. -/
structure Tracks (rel : Bytes) (s : Sys TextService ι) : Prop where
  answers : ∀ i resp, s.phase i = .changed resp ∨ s.phase i = .indexed resp → succeeded resp
  index : ∃ S, IndexOf s.world.index S ∧
    ((∃ i, HasIndexed (s.phase i)) → (∀ i, ¬ (s.phase i).IndexDue) → S rel = s.world.fs.read rel)
  docs : ∃ docs, Holds id s.world.vec.stores docs

variable {filesRoot rel : Bytes} {body : ι → Bytes} {s : Sys TextService ι} {i : ι}

omit [DecidableEq ι] in
theorem map_utf8_embedded {v : TextService} {docs : List (Bytes × List Char)}
    (h : Holds id v.stores docs) {content : Bytes} (ha : VectorClient.Accepted rel content) :
    (embedded rel (VectorClient.addDoc id rel content v)).map utf8 = some (truncated content) := by
  obtain ⟨c, hc, hadd⟩ := VectorClient.addDoc_accepted (s := v) h ha
  have hutf8 : utf8 c = truncated content := VectorClient.utf8_of_received hc
  have hlen : c.length ≤ textLimit := by
    have hbytes := congrArg List.length hutf8
    have hcut : (truncated content).length ≤ EmbedConfig.kTextLimit := List.length_take_le _ _
    exact (length_le_utf8 c).trans (hbytes.le.trans hcut)
  have hother : ((without docs rel).map fun doc => (doc.1, encodeText id doc.2)).lookup rel =
      none := by
    rw [List.lookup_eq_none_iff]
    intro p hp
    obtain ⟨doc, hdoc, rfl⟩ := List.mem_map.mp hp
    simpa using Ne.symm (mem_without.mp hdoc).2
  rw [embedded, hadd.ids, hadd.vecs, List.zip_map', List.map_append, List.lookup_append, hother]
  simp [encodeText, List.take_of_length_le hlen, hutf8]

omit [DecidableEq ι] in
theorem embedsFile_addDoc_iff (rel : Bytes) {v : TextService} {docs : List (Bytes × List Char)}
    (h : Holds id v.stores docs) (fs : FileSystem) (content : Bytes) :
    EmbedsFile rel fs (VectorClient.addDoc id rel content v) ↔ BringsFile rel content fs v := by
  by_cases ha : VectorClient.Accepted rel content
  · simp [EmbedsFile, BringsFile, map_utf8_embedded h ha, ha, eq_comm]
  · simp [BringsFile, VectorClient.addDoc_rejected ha, ha]

omit [DecidableEq ι] in
theorem relOf_puts (i : ι) : relOf ((puts filesRoot rel body).job i) = rel := by
  simp [relOf, puts, staticPrefix, text]

theorem checkFile_put {V : Type} (ctx : ClientCtx V) (fs : FileSystem) {req : Request}
    (hmethod : req.method = text "PUT") :
    ¬ (checkFile ctx req fs).VecDue ∧
      ∀ resp, succeeded resp → checkFile ctx req fs ≠ .done resp := by
  simp only [checkFile, hmethod, true_or, if_true]
  rcases hc : checkPut fs ctx.files_root (relOf req) (overwrites req) with e | exist
  · refine ⟨id, fun resp hresp hdone => ?_⟩
    obtain rfl : e = resp := by simpa using hdone
    rw [not_succeeded_checkPut hc] at hresp
    cases hresp
  · exact ⟨id, fun resp _ => by simp⟩

theorem puts_step_cases (filesRoot rel : Bytes) (body : ι → Bytes) (s : Sys TextService ι) (i : ι) :
    (∃ p, ¬ (s.phase i).VecDue ∧ ¬ p.VecDue ∧
      (∀ resp, succeeded resp → (p = .done resp ↔ s.phase i = .done resp)) ∧
      (puts filesRoot rel body).step s (some i) = ⟨s.world, Function.update s.phase i p⟩) ∨
    (∃ fs' resp, succeeded resp ∧ (∃ exist, s.phase i = .checked exist) ∧
      (puts filesRoot rel body).step s (some i) =
        ⟨{ s.world with fs := fs' }, Function.update s.phase i (.changed resp)⟩) ∨
    (∃ resp, s.phase i = .changed resp ∧ (puts filesRoot rel body).step s (some i) =
      ⟨{ s.world with index := InvertedIndex.addFile s.world.fs.view rel s.world.index },
        Function.update s.phase i (.indexed resp)⟩) ∨
    ∃ resp, s.phase i = .indexed resp ∧ (puts filesRoot rel body).step s (some i) =
      ⟨{ s.world with vec := VectorClient.addDoc id rel (body i) s.world.vec },
        Function.update s.phase i (.done resp)⟩ := by
  have hmethod : ((puts filesRoot rel body).job i).method = text "PUT" := rfl
  have hdelete : text "PUT" ≠ text "DELETE" := by decide
  have hrel : relOf ((puts filesRoot rel body).job i) = rel := relOf_puts i
  cases hp : s.phase i with
  | waiting =>
    left
    obtain ⟨hdue, hdone⟩ := checkFile_put (puts filesRoot rel body).ctx s.world.fs hmethod
    refine ⟨checkFile (puts filesRoot rel body).ctx ((puts filesRoot rel body).job i) s.world.fs,
      id, hdue, fun resp hresp => ?_, by simp [Program.step, clientStep, hp]⟩
    simp [hdone resp hresp]
  | checked exist =>
    rcases hf : changeFile ((puts filesRoot rel body).job i) exist s.world.fs with ⟨resp, fs'⟩
    by_cases hs : succeeded resp
    · right; left
      exact ⟨fs', resp, hs, ⟨exist, rfl⟩, by simp [Program.step, clientStep, hp, hf, hs]⟩
    · left
      rcases clientStep_checked (puts filesRoot rel body).ctx ((puts filesRoot rel body).job i)
        s.world exist with ⟨resp', hc⟩ | ⟨resp', fs'', -, hc⟩
      · refine ⟨.done resp, id, id, fun resp'' hresp => ?_, ?_⟩
        · have hne : resp ≠ resp'' := by
            rintro rfl
            exact hs hresp
          simp [hne]
        · have hresp : resp' = resp := by
            simp only [clientStep, hf, hs, Bool.false_eq_true, if_false, Prod.mk.injEq,
              Phase.done.injEq] at hc
            exact hc.1.symm
          simp [Program.step, hp, hc, hresp]
      · simp [clientStep, hf, hs] at hc
  | changed resp =>
    right; right; left
    exact ⟨resp, rfl, by simp [Program.step, clientStep, hp, updateIndex, hmethod, hdelete, hrel]⟩
  | indexed resp =>
    right; right; right
    refine ⟨resp, rfl, ?_⟩
    simp only [Program.step, clientStep, hp, updateVec, hmethod, hdelete, hrel, if_false]
    rfl
  | done resp =>
    left
    exact ⟨.done resp, id, id, fun resp' _ => Iff.rfl, by simp [Program.step, clientStep, hp]⟩

theorem SameVersion.quiet_iff {p : Phase} (hi : ¬ (s.phase i).VecDue) (hp : ¬ p.VecDue)
    (hdone : ∀ resp, succeeded resp → (p = .done resp ↔ s.phase i = .done resp)) :
    SameVersion rel ⟨s.world, Function.update s.phase i p⟩ ↔ SameVersion rel s := by
  have haccepted : Accepted (⟨s.world, Function.update s.phase i p⟩ : Sys TextService ι) ↔
      Accepted s := by
    apply exists_congr
    intro j
    apply exists_congr
    intro resp
    apply and_congr_left
    intro hresp
    rcases eq_or_ne j i with rfl | hj
    · simpa using hdone resp hresp
    · simp [hj]
  have hdue : (∀ j, ¬ (Function.update s.phase i p j).VecDue) ↔ ∀ j, ¬ (s.phase j).VecDue := by
    rw [Function.forall_update_iff s.phase fun _ p => ¬ p.VecDue]
    constructor
    · intro h j
      rcases eq_or_ne j i with rfl | hj
      · exact hi
      · exact h.2 j hj
    · exact fun h => ⟨hp, fun j _ => h j⟩
  rw [SameVersion, SameVersion, haccepted, hdue]

theorem Tracks.quiet {p : Phase} (h : Tracks rel s) (hi : ¬ (s.phase i).VecDue) (hp : ¬ p.VecDue)
    (hdone : ∀ resp, succeeded resp → (p = .done resp ↔ s.phase i = .done resp)) :
    Tracks rel ⟨s.world, Function.update s.phase i p⟩ := by
  obtain ⟨S, hS, hrel⟩ := h.index
  refine ⟨fun j resp => ?_, ⟨S, hS, fun ⟨j, hj⟩ hdue => hrel ?_ fun k => ?_⟩, h.docs⟩
  · rcases eq_or_ne j i with rfl | hj
    · simp only [Function.update_self]
      rintro (rfl | rfl)
      · exact absurd trivial hp
      · exact absurd trivial hp
    · simpa [hj] using h.answers j resp
  · rcases eq_or_ne j i with rfl | hji
    · simp only [Function.update_self] at hj
      obtain ⟨resp, hresp, rfl | rfl⟩ := hj
      · exact absurd trivial hp
      · exact ⟨j, resp, hresp, Or.inr ((hdone resp hresp).mp rfl)⟩
    · exact ⟨j, by simpa [hji] using hj⟩
  · rcases eq_or_ne k i with rfl | hk
    · exact fun hd => hi hd.vecDue
    · simpa [hk] using hdue k

theorem sameVersion_due {p : Phase} (hp : p.VecDue) (w : World TextService) :
    SameVersion rel ⟨w, Function.update s.phase i p⟩ :=
  fun _ hdue => absurd (by simpa using hp) (hdue i)

theorem Tracks.answers_update {p : Phase} (h : Tracks rel s)
    (hp : ∀ resp, p = .changed resp ∨ p = .indexed resp → succeeded resp) (j : ι) (resp : Bytes) :
    Function.update s.phase i p j = .changed resp ∨ Function.update s.phase i p j = .indexed resp →
      succeeded resp := by
  rcases eq_or_ne j i with rfl | hj
  · simpa using hp resp
  · simpa [hj] using h.answers j resp

theorem Tracks.change (h : Tracks rel s) {fs' : FileSystem} {resp : Bytes}
    (hresp : succeeded resp) :
    Tracks rel ⟨{ s.world with fs := fs' }, Function.update s.phase i (.changed resp)⟩ := by
  obtain ⟨S, hS, -⟩ := h.index
  refine ⟨h.answers_update ?_, ⟨S, hS, fun _ hdue => absurd ?_ (hdue i)⟩, h.docs⟩
  · rintro resp' (h' | h') <;> cases h'
    exact hresp
  · simp [Phase.IndexDue]

theorem Tracks.indexed (h : Tracks rel s) {resp : Bytes} (hi : s.phase i = .changed resp) :
    Tracks rel ⟨{ s.world with index := InvertedIndex.addFile s.world.fs.view rel s.world.index },
      Function.update s.phase i (.indexed resp)⟩ := by
  obtain ⟨S, hS, -⟩ := h.index
  refine ⟨h.answers_update ?_, ⟨_, hS.addFile s.world.fs.view rel, fun _ _ => ?_⟩, h.docs⟩
  · rintro resp' (h' | h') <;> cases h'
    exact h.answers i resp (Or.inl hi)
  · exact Function.update_self ..

theorem Tracks.sent (h : Tracks rel s) {resp : Bytes} (hi : s.phase i = .indexed resp)
    (content : Bytes) :
    Tracks rel ⟨{ s.world with vec := VectorClient.addDoc id rel content s.world.vec },
      Function.update s.phase i (.done resp)⟩ := by
  obtain ⟨S, hS, hrel⟩ := h.index
  obtain ⟨docs, hdocs⟩ := h.docs
  have hadd := (VectorClient.mem_ids_addDoc hdocs rel content).1
  refine ⟨h.answers_update (by simp), ⟨S, hS, fun _ hdue => hrel ⟨i, resp, ?_⟩ fun j => ?_⟩, hadd⟩
  · exact ⟨h.answers i resp (Or.inr hi), Or.inl hi⟩
  · rcases eq_or_ne j i with rfl | hj
    · simp [hi, Phase.IndexDue]
    · simpa [hj] using hdue j

theorem sameVersion_sent_iff (h : Tracks rel s) {resp : Bytes} (hi : s.phase i = .indexed resp) :
    SameVersion rel ⟨{ s.world with vec := VectorClient.addDoc id rel (body i) s.world.vec },
      Function.update s.phase i (.done resp)⟩ ↔
    (∃ j, j ≠ i ∧ (s.phase j).VecDue) ∨ BringsFile rel (body i) s.world.fs s.world.vec := by
  obtain ⟨docs, hdocs⟩ := h.docs
  have hembeds := embedsFile_addDoc_iff rel hdocs s.world.fs (body i)
  have hresp := h.answers i resp (Or.inr hi)
  have hdue : (∀ j, ¬ (Function.update s.phase i (.done resp) j).VecDue) ↔
      ¬ ∃ j, j ≠ i ∧ (s.phase j).VecDue := by
    rw [Function.forall_update_iff s.phase fun _ p => ¬ p.VecDue]
    simp [Phase.VecDue]
  constructor
  · intro hsame
    by_cases hother : ∃ j, j ≠ i ∧ (s.phase j).VecDue
    · exact Or.inl hother
    · exact Or.inr (hembeds.mp (hsame ⟨i, resp, by simp, hresp⟩ (hdue.mpr hother)).1)
  · intro hor _ hnone
    have hfile := hor.resolve_left (hdue.mp hnone)
    obtain ⟨S, hS, hrel⟩ := h.index
    refine ⟨hembeds.mpr hfile, S, hS,
      hrel ⟨i, resp, hresp, Or.inl hi⟩ fun j => ?_⟩
    rcases eq_or_ne j i with rfl | hj
    · simp [hi, Phase.IndexDue]
    · exact fun hd => hdue.mp hnone ⟨j, hj, hd.vecDue⟩

theorem step_sameVersion_iff (h : Tracks rel s) (hsame : SameVersion rel s) (a : Option ι) :
    Tracks rel ((puts filesRoot rel body).step s a) ∧
      (SameVersion rel ((puts filesRoot rel body).step s a) ↔ SendsFile rel body s a) := by
  cases a with
  | none => exact ⟨h, iff_of_true hsame trivial⟩
  | some i =>
    rcases puts_step_cases filesRoot rel body s i with ⟨p, hi, hp, hdone, hstep⟩ |
      ⟨fs', resp, hresp, ⟨exist, hi⟩, hstep⟩ | ⟨resp, hi, hstep⟩ | ⟨resp, hi, hstep⟩ <;> rw [hstep]
    · -- the check, or a refusal
      refine ⟨h.quiet hi hp hdone, iff_of_true ((SameVersion.quiet_iff hi hp hdone).mpr hsame) ?_⟩
      intro resp hresp
      exact absurd (by rw [hresp]; trivial) hi
    · -- the write
      have hdue : (Phase.changed resp).VecDue := trivial
      refine ⟨h.change hresp, iff_of_true (sameVersion_due hdue _) ?_⟩
      intro resp' hresp'
      rw [hi] at hresp'
      cases hresp'
    · -- the update of the index
      have hdue : (Phase.indexed resp).VecDue := trivial
      refine ⟨h.indexed hi, iff_of_true (sameVersion_due hdue _) ?_⟩
      intro resp' hresp'
      rw [hi] at hresp'
      cases hresp'
    · -- the message
      refine ⟨h.sent hi _, (sameVersion_sent_iff h hi).trans ⟨fun hor _ _ => hor, fun hor => ?_⟩⟩
      exact hor resp hi

/-- `hat` and `cap`. -/
def hatCap (second : Bool) : Bytes := if second then text "cap" else text "hat"

def hatThenCap : Program TextService Bool := puts (text "root") (text "root/a") hatCap

def putStart : Sys TextService Bool := ⟨⟨smallTree, ∅, {}⟩, fun _ => .waiting⟩

def crossed : List (Option Bool) :=
  [some false, some false, some true, some true, some true, some true, some false, some false]

/-- `cap` is written and sent last, with the steps of `hat` in between. -/
def mixed : List (Option Bool) :=
  [some false, some true, some false, some true, some true, some false, some false, some true]

end SemanticSearch
