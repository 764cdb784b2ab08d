import SemanticSearch.HeaderBlock
import SemanticSearch.HttpServer
import Mathlib.Logic.Relation

namespace SemanticSearch

open FileSystem

variable {V : Type} {ctx : ClientCtx V} {fs : FileSystem} {filesRoot relpath : Bytes}

theorem status_ok_iff {p : Bytes} :
    (∃ st, fs.status p = .ok st) ↔ ∀ e, fs.resolve p = .error e → e = .ENOENT ∨ e = .ENOTDIR := by
  unfold status
  rcases fs.resolve p with e | q
  · cases e <;> simp
  · simp

theorem weaklyCanonical_ok_iff {p : Bytes} :
    (∃ t, fs.weaklyCanonical p = .ok t) ↔ ∃ st, fs.status p = .ok st := by
  rcases hs : fs.status p with e | _ | e
  · simp [weaklyCanonical, hs, bind, Except.bind]
  · rcases weaklyCanonical_of_absent hs with ⟨q, -, hw⟩ | ⟨-, hw⟩ | ⟨-, hw⟩ <;> simp [hw]
  · obtain ⟨q, hq⟩ := resolve_of_status hs
    simp [weaklyCanonical_of_resolve hq]

/-- The file system answers the lookups of a GET: the root is there, and the path runs into
neither a loop of links nor a name that is too long. -/
def StaticGetSafe (fs : FileSystem) (filesRoot relpath : Bytes) : Prop :=
  (filesRoot ≠ [] → ∃ r, fs.resolve filesRoot = .ok r) ∧
    ∀ e, fs.resolve relpath = .error e → e = .ENOENT ∨ e = .ENOTDIR

theorem isRegularFile_ok_iff {p : Bytes} :
    (∃ b, fs.isRegularFile p = .ok b) ↔ ∃ st, fs.status p = .ok st := by
  unfold isRegularFile
  rcases fs.status p with e | _ | ⟨data | _ | t⟩ <;> simp [bind, Except.bind, pure, Except.pure]

theorem checkWithinRoot_ok_iff :
    (∃ e, checkWithinRoot fs filesRoot relpath = .ok e) ↔
      (filesRoot ≠ [] → (∃ r, fs.resolve filesRoot = .ok r) ∧ ∃ st, fs.status relpath = .ok st) := by
  by_cases h0 : filesRoot = []
  · simp only [h0, ne_eq, not_true_eq_false, false_implies, iff_true]
    exact ⟨[], rfl⟩
  rw [← weaklyCanonical_ok_iff]
  simp only [checkWithinRoot, canonical, ne_eq, h0, not_false_eq_true, true_implies, if_false]
  rcases fs.resolve filesRoot with e | r
  · simp [bind, Except.bind]
  rcases fs.weaklyCanonical relpath with e | t
  · simp [bind, Except.bind]
  · simp only [bind, Except.bind, Except.ok.injEq, exists_eq', and_self, iff_true]
    split_ifs
    · exact ⟨_, rfl⟩
    · exact ⟨_, rfl⟩

theorem staticGet_ok_iff :
    (∃ resp, staticGet fs filesRoot relpath = .ok resp) ↔ StaticGetSafe fs filesRoot relpath := by
  unfold StaticGetSafe
  rw [← status_ok_iff]
  rcases hc : checkWithinRoot fs filesRoot relpath with e | e
  · have hno : ¬ ∃ e, checkWithinRoot fs filesRoot relpath = .ok e := by simp [hc]
    rw [checkWithinRoot_ok_iff] at hno
    simp only [staticGet, hc, bind, Except.bind, reduceCtorEq, exists_false, false_iff]
    tauto
  · have hyes := checkWithinRoot_ok_iff.mp ⟨e, hc⟩
    rw [← isRegularFile_ok_iff] at hyes ⊢
    by_cases he : e = []
    · subst he
      rcases hf : fs.isRegularFile relpath with e | b
      · simp only [staticGet, hc, hf, bind, Except.bind]
        simp
      · simp only [staticGet, hc, hf, bind, Except.bind]
        cases b
        · exact ⟨fun _ => ⟨fun h => (hyes h).1, false, rfl⟩, fun _ => ⟨_, rfl⟩⟩
        · exact ⟨fun _ => ⟨fun h => (hyes h).1, true, rfl⟩, fun _ => ⟨_, rfl⟩⟩
    · -- a refusal: the check has already looked at the path
      have h0 : filesRoot ≠ [] := by
        rintro rfl
        exact he (Except.ok.inj hc).symm
      simp only [staticGet, hc, bind, Except.bind]
      rw [if_pos he]
      exact ⟨fun _ => ⟨fun h => (hyes h).1, (hyes h0).2⟩, fun _ => ⟨_, rfl⟩⟩

theorem staticPrefix_ne {p : Bytes} (h : staticPrefix <+: p) :
    p ≠ text "/" ∧ p ≠ [] ∧ p ≠ text "/query" ∧ p ≠ text "/api/search" ∧ p ≠ text "/api/ask" ∧
      p ≠ text "/ask" := by
  refine ⟨?_, ?_, ?_, ?_, ?_, ?_⟩ <;> rintro rfl <;> exact absurd h (by decide)

theorem respond_ok_iff {r : Request} {w : World V} :
    (∃ x, respond ctx r w = .ok x) ↔ (r.method = text "GET" → staticPrefix <+: r.path →
      StaticGetSafe w.fs ctx.files_root (r.path.drop 8)) := by
  unfold respond
  by_cases hm : r.method = text "GET"
  · by_cases hp : staticPrefix <+: r.path
    · obtain ⟨h1, h2, h3, h4, h5, h6⟩ := staticPrefix_ne hp
      rw [← staticGet_ok_iff]
      simp only [hm, hp, if_true, true_implies, handleGetRequest, h1, h2, h3, h4, h5, h6, or_self,
        if_false]
      rcases staticGet w.fs ctx.files_root (r.path.drop 8) with e | resp <;>
        simp [Except.mapError, Except.map]
    · simp only [hm, hp, if_true, if_false, false_implies, implies_true, iff_true, handleGetRequest]
      split_ifs <;> exact ⟨_, rfl⟩
  · simp only [hm, if_false, false_implies, iff_true]
    split_ifs <;> exact ⟨_, rfl⟩

/-- Handling the request of the block `H` raises nothing: its headers are readable, and a
static GET asks for a path the file system answers. -/
def RequestSafe (ctx : ClientCtx V) (w : World V) (H : Bytes) : Prop :=
  ParseSafe H ∧
    ((requestLine H).1 = text "GET" → staticPrefix <+: (splitQuery (requestLine H).2.1).1 →
      StaticGetSafe w.fs ctx.files_root ((splitQuery (requestLine H).2.1).1.drop 8))

/-- The pass finds nothing, or a header block whose body length and request are safe. -/
def PassSafe (ctx : ClientCtx V) (c : Conn V) : Prop :=
  ∀ i ∈ find headerEnd (stream c.socket),
    AnnounceSafe ((stream c.socket).take (i + 4)) ∧
      RequestSafe ctx c.world ((stream c.socket).take (i + 4))

theorem getSafe_iff {H b : Bytes} {r : Request} (hH : IsHeaderBlock H)
    (h : parseRequest (H ++ b) = .ok r) (P : Bytes → Prop) :
    (r.method = text "GET" → staticPrefix <+: r.path → P r.path) ↔
      ((requestLine H).1 = text "GET" → staticPrefix <+: (splitQuery (requestLine H).2.1).1 →
        P (splitQuery (requestLine H).2.1).1) := by
  obtain ⟨r₀, n, h₀, -, rfl⟩ := hH.exists_head h
  rcases parseHead_ok h₀ with ⟨hempty, rfl⟩ | ⟨-, hm, hp, -⟩
  · have hleft : ({} : Request).method ≠ text "GET" := by decide
    refine iff_of_true (fun hm => absurd hm hleft) fun hm hp => ?_
    rcases hempty with h0 | h0
    · rw [h0] at hm
      exact absurd hm (by decide)
    · rw [h0] at hp
      exact absurd hp (by decide)
  · rw [withBody, hm, hp]

/-- The answer to a request that is all of the buffer. -/
def answer (ctx : ClientCtx V) (w : World V) (raw : Bytes) : Except Exn (Bytes × World V) := do
  respond ctx (← parseRequest raw) w

theorem answer_ok_iff {w : World V} {H : Bytes} (hH : IsHeaderBlock H) (b : Bytes) :
    (∃ x, answer ctx w (H ++ b) = .ok x) ↔ RequestSafe ctx w H := by
  unfold RequestSafe answer
  rw [← hH.parseRequest_ok_iff b]
  rcases hp : parseRequest (H ++ b) with e | r
  · simp [bind, Except.bind]
  · have hget := getSafe_iff hH hp fun p => StaticGetSafe w.fs ctx.files_root (p.drop 8)
    have hrespond : (∃ x, respond ctx r w = .ok x) ↔ _ := respond_ok_iff
    rw [← hget, ← hrespond]
    simp [bind, Except.bind]

theorem pass_ok_iff {c : Conn V} : (∃ x, pass ctx c = .ok x) ↔ PassSafe ctx c := by
  unfold PassSafe
  rcases hf : find headerEnd (stream c.socket) with _ | i
  · obtain ⟨s', hr, -⟩ := readRawRequest_none hf
    rw [pass_of_none hr hf]
    simp
  simp only [Option.mem_def, Option.some.injEq, forall_eq']
  -- what the pass does depends on the block in front of the stream only
  have hH := isHeaderBlock_take hf
  have hs := (List.take_append_drop (i + 4) (stream c.socket)).symm
  set H := (stream c.socket).take (i + 4)
  rw [← hH.announcedLength_ok_iff]
  rcases ha : announcedLength H H.length with e | m
  · rw [pass_of_error (hH.readRawRequest_error hs ha)]
    simp
  obtain ⟨s', hr, -⟩ := hH.readRawRequest_ok hs ha
  rw [pass_of_some hr (hH.find_append _)]
  simp only [Except.ok.injEq, exists_eq', true_and]
  rw [← answer_ok_iff hH ((List.drop (i + 4) (stream c.socket)).take
    (max (readAhead H (cuts c.socket)) (m.getD 0))), answer]
  rcases parseRequest (H ++ _) with e | r
  · simp [bind, Except.bind]
  · simp only [bind, Except.bind]
    rcases respond ctx r c.world with e | ⟨response, world⟩ <;> simp [pure, Except.pure]

/-- The states at the head of the loop that a connection comes to. -/
def Reaches (ctx : ClientCtx V) : Conn V → Conn V → Prop :=
  Relation.ReflTransGen fun c c' => pass ctx c = .ok (true, c')

/-- No exception leaves `handleClient` exactly when every pass it comes to is safe. -/
theorem handleClient_ok_iff (ctx : ClientCtx V) (c : Conn V) :
    (∃ c', handleClient ctx c = .ok c') ↔ ∀ c', Reaches ctx c c' → PassSafe ctx c' := by
  fun_induction handleClient ctx c with
  | case1 c e h =>
    have hno : ¬ PassSafe ctx c := by simp [← pass_ok_iff, h]
    simp only [reduceCtorEq, exists_false, false_iff, not_forall]
    exact ⟨c, .refl, hno⟩
  | case2 c c₁ h =>
    simp only [Except.ok.injEq, exists_eq', true_iff]
    intro c' hc'
    rcases hc'.cases_head with rfl | ⟨c₂, h₂, -⟩
    · exact pass_ok_iff.mp ⟨_, h⟩
    · simp [h] at h₂
  | case3 c c₁ h ih =>
    rw [ih]
    constructor
    · intro hall c' hc'
      rcases hc'.cases_head with rfl | ⟨c₂, h₂, hrest⟩
      · exact pass_ok_iff.mp ⟨_, h⟩
      · obtain rfl : c₁ = c₂ := by simpa [h] using h₂
        exact hall c' hrest
    · intro hall c' hc'
      exact hall c' (.head h hc')

def emptyHostSocket : Socket := [.chunk 71 (text "ET / HTTP/1.1\r\nHost:\r\n\r\n")]

/-- `substr` throws on the value of a header line that ends in its colon. -/
theorem handleClient_emptyHost_throws :
    handleClient plainCtx ⟨⟨smallTree, ∅, ()⟩, emptyHostSocket, []⟩ = .error .out_of_range := by
  have hr : readRawRequest emptyHostSocket =
      .ok (71 :: text "ET / HTTP/1.1\r\nHost:\r\n\r\n", []) := by decide +kernel
  have hf : find headerEnd (71 :: text "ET / HTTP/1.1\r\nHost:\r\n\r\n") = some 21 := by
    decide
  have hp : parseRequest (71 :: text "ET / HTTP/1.1\r\nHost:\r\n\r\n") = .error .out_of_range := by
    decide
  apply handleClient_of_error
  rw [pass_of_some hr hf, hp]
  rfl

end SemanticSearch
