import Mathlib.Data.Set.List
import SemanticSearch.CommandLine

namespace SemanticSearch

variable {V : Type}

/-- The text comes from `MakeResponse`, and what stands in its head stays within its line. -/
def FromMakeResponse (response : Bytes) : Prop :=
  ∃ status body contentType statusText, status < 1000 ∧ InLine contentType ∧ InLine statusText ∧
    response = makeResponse status body contentType statusText

theorem FromMakeResponse.exists_render {response : Bytes} (h : FromMakeResponse response)
    (hlen : response.length < ulongBound) : ∃ r : BuiltResponse, r.render = response := by
  obtain ⟨status, body, contentType, statusText, hs, hc, ht, rfl⟩ := h
  have hbody : body.length < ulongBound := by
    simp only [makeResponse, List.length_append] at hlen
    omega
  have hstatus : IsInt status := by
    unfold IsInt
    omega
  refine ⟨⟨status, body, contentType, statusText, hstatus, hc, ht, hbody⟩, ?_⟩
  exact makeResponseInt_natCast status body contentType statusText

theorem fromMakeResponse_forbidden : FromMakeResponse forbidden :=
  ⟨_, _, _, _, by decide, by decide, by decide, rfl⟩

theorem fromMakeResponse_internalError : FromMakeResponse internalError :=
  ⟨_, _, _, _, by decide, by decide, by decide, rfl⟩

section Static

variable {fs fs' : FileSystem} {filesRoot relpath data response : Bytes} {overwrite : Bool}

theorem fromMakeResponse_staticGet (h : staticGet fs filesRoot relpath = .ok response) :
    FromMakeResponse response := by
  obtain ⟨status, hs, body, contentType, statusText, hc, ht, hr⟩ := staticGet_answer h
  have hsmall : ∀ status ∈ staticGetStatuses, status < 1000 := by decide
  exact ⟨status, body, contentType, statusText, hsmall status hs, hc, ht, hr⟩

theorem fromMakeResponse_writeFile (fs : FileSystem) (target data : Bytes)
    (h : (writeFile fs target data).1 ≠ []) : FromMakeResponse (writeFile fs target data).1 := by
  rcases ho : fs.openTarget target with e | q
  · rw [writeFile, ho]
    exact fromMakeResponse_internalError
  · rw [writeFile, ho] at h
    exact absurd rfl h

theorem fromMakeResponse_tryPut
    (h : tryPut writeFile fs filesRoot relpath data overwrite = .ok (response, fs')) :
    FromMakeResponse response := by
  rw [tryPut] at h
  rcases hc : checkWithinRoot fs filesRoot relpath with e | e
  · rw [hc] at h
    cases h
  rcases checkWithinRoot_answer hc with rfl | rfl
  · rcases hx : fs.exists relpath with e | existed
    · simp [hc, hx, bind, Except.bind] at h
    · simp only [hc, hx, bind, Except.bind, ne_eq, not_true_eq_false, if_false] at h
      split_ifs at h with hconflict hwritten hexisted
      · obtain ⟨rfl, -⟩ := Prod.mk.inj (Except.ok.inj h)
        exact ⟨kHttpConflict, _, _, _, by decide, by decide, by decide, rfl⟩
      · obtain ⟨rfl, -⟩ := Prod.mk.inj (Except.ok.inj h)
        exact ⟨kHttpOk, _, _, _, by decide, by decide, by decide, rfl⟩
      · obtain ⟨rfl, -⟩ := Prod.mk.inj (Except.ok.inj h)
        exact ⟨kHttpCreated, _, _, _, by decide, by decide, by decide, rfl⟩
      · obtain ⟨rfl, -⟩ := Prod.mk.inj (Except.ok.inj h)
        exact fromMakeResponse_writeFile fs relpath data hwritten
  · simp only [hc, bind, Except.bind, if_pos forbidden_ne_nil] at h
    obtain ⟨rfl, -⟩ := Prod.mk.inj (Except.ok.inj h)
    exact fromMakeResponse_forbidden

theorem fromMakeResponse_staticPut (fs : FileSystem) (filesRoot relpath data : Bytes)
    (overwrite : Bool) : FromMakeResponse (staticPut fs filesRoot relpath data overwrite).1 := by
  unfold staticPut staticPutWith
  split
  · next r hr => exact fromMakeResponse_tryPut hr
  · exact fromMakeResponse_internalError

theorem fromMakeResponse_tryDelete (h : tryDelete fs filesRoot relpath = .ok (response, fs')) :
    FromMakeResponse response := by
  rw [tryDelete] at h
  rcases hc : checkWithinRoot fs filesRoot relpath with e | e
  · rw [hc] at h
    cases h
  rcases checkWithinRoot_answer hc with rfl | rfl
  · rcases hx : fs.exists relpath with e | existed
    · simp [hc, hx, bind, Except.bind] at h
    rcases hf : fs.isRegularFile relpath with e | regular
    · simp [hc, hx, hf, bind, Except.bind] at h
    simp only [hc, hx, hf, bind, Except.bind, ne_eq, not_true_eq_false, if_false] at h
    split_ifs at h with hnone
    · obtain ⟨rfl, -⟩ := Prod.mk.inj (Except.ok.inj h)
      exact ⟨kHttpNotFound, _, _, _, by decide, by decide, by decide, rfl⟩
    · rcases hu : fs.unlink relpath with e | fs₁
      · rw [hu] at h
        obtain ⟨rfl, -⟩ := Prod.mk.inj (Except.ok.inj h)
        exact fromMakeResponse_internalError
      · rw [hu] at h
        obtain ⟨rfl, -⟩ := Prod.mk.inj (Except.ok.inj h)
        exact ⟨kHttpNoContent, _, _, _, by decide, by decide, by decide, rfl⟩
  · simp only [hc, bind, Except.bind, if_pos forbidden_ne_nil] at h
    obtain ⟨rfl, -⟩ := Prod.mk.inj (Except.ok.inj h)
    exact fromMakeResponse_forbidden

theorem fromMakeResponse_staticDelete (fs : FileSystem) (filesRoot relpath : Bytes) :
    FromMakeResponse (staticDelete fs filesRoot relpath).1 := by
  unfold staticDelete
  split
  · next r hr => exact fromMakeResponse_tryDelete hr
  · exact fromMakeResponse_internalError

end Static

section Respond

variable {ctx : ClientCtx V} {r : Request} {w w' : World V} {response : Bytes}

theorem fromMakeResponse_ok {body contentType : Bytes} (hc : InLine contentType) :
    FromMakeResponse (makeResponse kHttpOk body contentType []) :=
  ⟨kHttpOk, body, contentType, [], by decide, hc, by decide, rfl⟩

theorem fromMakeResponse_notFoundPage : FromMakeResponse notFoundPage :=
  ⟨kHttpNotFound, _, _, _, by decide, by decide, by decide, rfl⟩

theorem fromMakeResponse_get (h : handleGetRequest ctx r w = .ok response) :
    FromMakeResponse response := by
  have hhtml : ∀ body, FromMakeResponse (makeResponse kHttpOk body (text "text/html") []) :=
    fun _ => fromMakeResponse_ok (by decide)
  have hjson : ∀ body, FromMakeResponse (makeResponse kHttpOk body (text "application/json") []) :=
    fun _ => fromMakeResponse_ok (by decide)
  simp only [handleGetRequest] at h
  split_ifs at h
  · exact Except.ok.inj h ▸ hhtml _
  · exact Except.ok.inj h ▸ hhtml _
  · exact Except.ok.inj h ▸ hjson _
  · exact Except.ok.inj h ▸ hjson _
  · exact Except.ok.inj h ▸ hjson _
  · exact Except.ok.inj h ▸ hjson _
  · exact Except.ok.inj h ▸ hhtml _
  · rcases hs : staticGet w.fs ctx.files_root (r.path.drop 8) with e | resp
    · rw [hs] at h
      cases h
    · rw [hs] at h
      exact Except.ok.inj h ▸ fromMakeResponse_staticGet hs
  · exact Except.ok.inj h ▸ fromMakeResponse_notFoundPage

theorem fromMakeResponse_put (ctx : ClientCtx V) (rel body : Bytes) (overwrite : Bool)
    (w : World V) : FromMakeResponse (putAndIndex ctx rel body overwrite w).1 := by
  have hstatic := fromMakeResponse_staticPut w.fs ctx.files_root rel body overwrite
  by_cases hs : succeeded (staticPut w.fs ctx.files_root rel body overwrite).1 = true
  · simp only [putAndIndex, if_pos hs]
    exact hstatic
  · simp only [putAndIndex, if_neg hs]
    exact hstatic

theorem fromMakeResponse_mutation (ctx : ClientCtx V) (r : Request) (w : World V) :
    FromMakeResponse (handleStaticMutation ctx r w).1 := by
  by_cases hput : r.method = text "PUT"
  · simp only [handleStaticMutation, if_pos hput]
    exact fromMakeResponse_put ..
  by_cases hpost : r.method = text "POST"
  · simp only [handleStaticMutation, if_neg hput, if_pos hpost]
    exact fromMakeResponse_put ..
  by_cases hdelete : r.method = text "DELETE"
  · have hstatic := fromMakeResponse_staticDelete w.fs ctx.files_root (r.path.drop 8)
    simp only [handleStaticMutation, if_neg hput, if_neg hpost, if_pos hdelete]
    by_cases hs : succeeded (staticDelete w.fs ctx.files_root (r.path.drop 8)).1 = true
    · rw [if_pos hs]
      exact hstatic
    · rw [if_neg hs]
      exact hstatic
  · simp only [handleStaticMutation, if_neg hput, if_neg hpost, if_neg hdelete]
    exact ⟨kHttpNotImplemented, _, _, _, by decide, by decide, by decide, rfl⟩

theorem fromMakeResponse_respond (h : respond ctx r w = .ok (response, w')) :
    FromMakeResponse response := by
  by_cases hget : r.method = text "GET"
  · rcases hr : handleGetRequest ctx r w with e | resp
    · rw [respond, if_pos hget, hr] at h
      cases h
    · rw [respond, if_pos hget, hr] at h
      obtain ⟨rfl, -⟩ := Prod.mk.inj (Except.ok.inj h)
      exact fromMakeResponse_get hr
  by_cases hstatic : staticPrefix <+: r.path
  · rw [respond, if_neg hget, if_pos hstatic] at h
    have hmutation := fromMakeResponse_mutation ctx r w
    rw [Except.ok.inj h] at hmutation
    exact hmutation
  · rw [respond, if_neg hget, if_neg hstatic] at h
    obtain ⟨rfl, -⟩ := Prod.mk.inj (Except.ok.inj h)
    exact fromMakeResponse_notFoundPage

theorem fromMakeResponse_served {c c' : Conn V} (h : handleClient ctx c = .ok c')
    (hc : ∀ x ∈ c.served, FromMakeResponse x.2) : ∀ x ∈ c'.served, FromMakeResponse x.2 := by
  have hpass : ∀ {c c' : Conn V} {go}, pass ctx c = .ok (go, c') →
      (∀ x ∈ c.served, FromMakeResponse x.2) → ∀ x ∈ c'.served, FromMakeResponse x.2 := by
    intro c c' go h hc
    rcases hr : readRawRequest c.socket with e | ⟨raw, socket⟩
    · rw [pass_of_error hr] at h
      cases h
    rcases hf : find headerEnd raw with _ | i
    · rw [pass_of_none hr hf] at h
      obtain ⟨-, rfl⟩ := Prod.mk.inj (Except.ok.inj h)
      exact hc
    · obtain ⟨r, response, world, -, hrespond, -, rfl⟩ := pass_ok hr hf h
      intro x hx
      rcases List.mem_append.mp hx with hx | hx
      · exact hc x hx
      · rw [List.mem_singleton.mp hx]
        exact fromMakeResponse_respond hrespond
  fun_induction handleClient ctx c with
  | case1 => cases h
  | case2 c c₁ h₁ =>
    cases h
    exact hpass h₁ hc
  | case3 c c₁ h₁ ih => exact ih h (hpass h₁ hc)

end Respond

/-- How many answers are sent whole before the first one that is cut. -/
def sentWhole : List Wrote → List Bytes → ℕ
  | _, [] => 0
  | writes, response :: responses =>
    if (sendAll writes response).ok then sentWhole (sendAll writes response).writes responses + 1
    else 0

def Lasting : List Wrote → Prop
  | [] => True
  | .took _ :: writes => Lasting writes
  | .failed :: writes => ∀ x ∈ writes, x = .failed

theorem sendAll_of_failed {writes : List Wrote} (h : ∀ x ∈ writes, x = .failed) (buf : Bytes) :
    (sendAll writes buf).bytes = [] ∧ ∀ x ∈ (sendAll writes buf).writes, x = .failed := by
  cases buf with
  | nil =>
    rw [sendAll]
    exact ⟨rfl, h⟩
  | cons c cs =>
    cases writes with
    | nil => exact ⟨rfl, h⟩
    | cons x writes =>
      obtain rfl := h x List.mem_cons_self
      exact ⟨rfl, fun y hy => h y (List.mem_cons_of_mem _ hy)⟩

theorem sendEach_of_failed {writes : List Wrote} (h : ∀ x ∈ writes, x = .failed)
    (responses : List Bytes) : sendEach writes responses = [] := by
  induction responses generalizing writes with
  | nil => rfl
  | cons response responses ih =>
    obtain ⟨hbytes, hrest⟩ := sendAll_of_failed h response
    rw [sendEach, hbytes, ih hrest]
    rfl

theorem Lasting.sendAll {writes : List Wrote} (h : Lasting writes) (buf : Bytes) :
    ((SemanticSearch.sendAll writes buf).ok → Lasting (SemanticSearch.sendAll writes buf).writes) ∧
      ((SemanticSearch.sendAll writes buf).ok = false →
        ∀ x ∈ (SemanticSearch.sendAll writes buf).writes, x = .failed) := by
  fun_induction SemanticSearch.sendAll writes buf with
  | case1 => exact ⟨fun _ => h, fun hok => (by cases hok)⟩
  | case2 => exact ⟨fun _ => h, fun _ x hx => absurd hx List.not_mem_nil⟩
  | case3 => exact ⟨fun hok => (by cases hok), fun _ => h⟩
  | case4 n writes c cs sent ih => exact ih h

theorem sendEach_eq (writes : List Wrote) (responses : List Bytes) :
    ∃ rest, sendEach writes responses =
        (responses.take (sentWhole writes responses)).flatten ++ rest ∧
      (Lasting writes → rest = [] ∨ ∃ response ∈ responses, rest <+: response ∧ rest ≠ response) := by
  induction responses generalizing writes with
  | nil => exact ⟨[], rfl, fun _ => Or.inl rfl⟩
  | cons response responses ih =>
    rw [sendEach, sentWhole]
    by_cases hok : (sendAll writes response).ok = true
    · obtain ⟨rest, hrest, hlasting⟩ := ih (sendAll writes response).writes
      refine ⟨rest, ?_, fun h => ?_⟩
      · rw [if_pos hok, (ok_sendAll_iff writes response).mp hok, hrest, List.take_succ_cons,
          List.flatten_cons, List.append_assoc]
      · rcases hlasting ((h.sendAll response).1 hok) with hnil | ⟨next, hnext, hcut⟩
        · exact Or.inl hnil
        · exact Or.inr ⟨next, List.mem_cons_of_mem _ hnext, hcut⟩
    · rw [if_neg hok]
      refine ⟨(sendAll writes response).bytes ++ sendEach (sendAll writes response).writes responses,
        rfl, fun h => Or.inr ⟨response, List.mem_cons_self, ?_⟩⟩
      have hbroken := (h.sendAll response).2 (by simpa using hok)
      rw [sendEach_of_failed hbroken, List.append_nil]
      exact ⟨bytes_sendAll writes response, fun heq => hok ((ok_sendAll_iff writes response).mpr heq)⟩

theorem sendEach_eq_flatten_iff (writes : List Wrote) (responses : List Bytes) :
    sendEach writes responses = responses.flatten ↔
      sentWhole writes responses = responses.length := by
  have hle : ∀ (responses : List Bytes) (writes : List Wrote),
      (sendEach writes responses).length ≤ responses.flatten.length := by
    intro responses
    induction responses with
    | nil => exact fun _ => le_refl _
    | cons response responses ih =>
      intro writes
      have hfirst := (bytes_sendAll writes response).length_le
      have hrest := ih (sendAll writes response).writes
      rw [sendEach, List.length_append, List.flatten_cons, List.length_append]
      omega
  induction responses generalizing writes with
  | nil => exact ⟨fun _ => rfl, fun _ => rfl⟩
  | cons response responses ih =>
    rw [sendEach, sentWhole, List.flatten_cons, List.length_cons]
    by_cases hok : (sendAll writes response).ok = true
    · rw [if_pos hok, (ok_sendAll_iff writes response).mp hok, List.append_right_inj]
      exact (ih _).trans Nat.add_right_cancel_iff.symm
    · have hcut : (sendAll writes response).bytes ≠ response :=
        fun heq => hok ((ok_sendAll_iff writes response).mpr heq)
      have hlt : (sendAll writes response).bytes.length < response.length :=
        lt_of_le_of_ne (bytes_sendAll writes response).length_le
          fun heq => hcut ((bytes_sendAll writes response).eq_of_length heq)
      have hrest := hle responses (sendAll writes response).writes
      rw [if_neg hok]
      constructor
      · intro heq
        have hlen := congrArg List.length heq
        rw [List.length_append, List.length_append] at hlen
        omega
      · intro hzero
        omega

/-- The answers that stand complete at the front of a stream. -/
def readLeading (s : Bytes) : List (ℤ × Bytes) :=
  match _h : readResponse s with
  | none => []
  | some (r, rest) => r :: readLeading rest
termination_by s.length
decreasing_by exact length_readResponse _h

theorem readLeading_of_none {s : Bytes} (h : readResponse s = none) : readLeading s = [] := by
  rw [readLeading]
  split <;> simp_all

theorem readLeading_of_read {s rest : Bytes} {r : ℤ × Bytes}
    (h : readResponse s = some (r, rest)) : readLeading s = r :: readLeading rest := by
  rw [readLeading]
  split <;> simp_all

def BuiltResponse.content (r : BuiltResponse) : ℤ × Bytes := (r.status, r.body)

theorem readLeading_append (rs : List BuiltResponse) (t : Bytes) :
    readLeading ((rs.map BuiltResponse.render).flatten ++ t) =
      rs.map BuiltResponse.content ++ readLeading t := by
  induction rs with
  | nil => rfl
  | cons r rs ih =>
    rw [List.map_cons, List.flatten_cons, List.append_assoc,
      readLeading_of_read (r.readResponse_append _), ih]
    rfl

theorem BuiltResponse.readResponse_cut (r : BuiltResponse) {part : Bytes} (h : part <+: r.render)
    (hne : part ≠ r.render) : readResponse part = none := by
  have hblock := r.isHeaderBlock
  have hlen := hblock.four_le
  set block := blockText r.statusLine r.lines with hdef
  have hrender : r.render = block ++ r.body := r.render_eq
  by_cases hlt : part.length < block.length
  · -- the blank line has not come yet
    have hnone : find headerEnd part = none := by
      by_contra hsome
      obtain ⟨i, hi⟩ := Option.ne_none_iff_exists'.mp hsome
      obtain ⟨t, ht⟩ := h
      have hwhole := find_append hi t
      rw [ht, hrender, hblock.find_append] at hwhole
      have hbound : i + 4 ≤ part.length := find_add_length_le hi
      have hpos := Option.some.inj hwhole
      omega
    simp only [readResponse, hnone, Option.bind_eq_bind, Option.bind_none]
  · -- the head is there, and fewer bytes behind it than it says
    obtain ⟨body, rfl⟩ := List.prefix_of_prefix_length_le (hrender ▸ List.prefix_append block r.body)
      h (not_lt.mp hlt)
    have hbody : body <+: r.body := by
      rw [hrender] at h
      exact (List.prefix_append_right_inj block).mp h
    have hshort : body.length < r.body.length := by
      apply lt_of_le_of_ne hbody.length_le
      intro heq
      exact hne (by rw [hbody.eq_of_length heq, hrender])
    have hfind : find headerEnd (block ++ body) = some (block.length - 4) := hblock.find_append body
    have hpos : block.length - 4 + 4 = block.length := by omega
    have hstatus := r.parseStatus_append []
    rw [List.append_nil] at hstatus
    have hnumber := stoul_decimal r.body_ok (t := []) (by simp [EndsNumber])
    rw [List.append_nil] at hnumber
    have hvalue := r.headerValue_eq
    rw [← hdef] at hstatus hvalue
    simp only [readResponse, hfind, hpos, List.take_left, List.drop_left, hstatus, hvalue, hnumber,
      Except.toOption, Option.bind_eq_bind, Option.bind_some]
    rw [if_pos hshort]

theorem readLeading_sendEach (writes : List Wrote) (rs : List BuiltResponse) :
    ∃ more, readLeading (sendEach writes (rs.map BuiltResponse.render)) =
        (rs.take (sentWhole writes (rs.map BuiltResponse.render))).map BuiltResponse.content ++ more ∧
      (Lasting writes → more = []) := by
  obtain ⟨rest, hsent, hcut⟩ := sendEach_eq writes (rs.map BuiltResponse.render)
  refine ⟨readLeading rest, ?_, fun h => ?_⟩
  · rw [hsent, ← List.map_take, readLeading_append]
  · rcases hcut h with rfl | ⟨response, hresponse, hprefix, hne⟩
    · exact readLeading_of_none rfl
    · obtain ⟨r, -, rfl⟩ := List.mem_map.mp hresponse
      exact readLeading_of_none (r.readResponse_cut hprefix hne)

/-- On a connection, for all that the server's writes take: the client reads the answers that were
sent whole, each with its status and body, and nothing behind them if a write that fails is the last
one that takes anything; and all bytes arrive exactly when all answers are sent whole. -/
theorem answers_delivered {ctx : ClientCtx V} {w : World V} {socket : Socket} {conn : Conn V}
    (h : handleClient ctx ⟨w, socket, []⟩ = .ok conn)
    (hlen : ∀ x ∈ conn.served, x.2.length < ulongBound) (writes : List Wrote) :
    let responses := conn.served.map Prod.snd
    let n := sentWhole writes responses
    ∃ rs : List BuiltResponse, rs.map BuiltResponse.render = responses ∧
      (rs.take n).map BuiltResponse.content <+: readLeading (sendEach writes responses) ∧
      (Lasting writes →
        readLeading (sendEach writes responses) = (rs.take n).map BuiltResponse.content) ∧
      (sendEach writes responses = responses.flatten ↔ n = responses.length) := by
  intro responses n
  have hbuilt : responses ∈ Set.range (List.map BuiltResponse.render) := by
    rw [Set.range_list_map]
    intro response hresponse
    obtain ⟨x, hx, rfl⟩ := List.mem_map.mp hresponse
    have hmade := fromMakeResponse_served h (fun x hx => absurd hx List.not_mem_nil) x hx
    exact hmade.exists_render (hlen x hx)
  obtain ⟨rs, hrs⟩ := hbuilt
  obtain ⟨more, hread, hmore⟩ := readLeading_sendEach writes rs
  rw [hrs] at hread
  refine ⟨rs, hrs, ?_, fun hlasting => ?_, sendEach_eq_flatten_iff writes responses⟩
  · rw [hread]
    exact List.prefix_append _ more
  · rw [hread, hmore hlasting, List.append_nil]

def homeTwice : Socket := push getHome.render (push getHome.render [])

/-- The second answer is cut in its body, and the client is gone. -/
def cutInBody : List Wrote := [.took 99, .took 64, .failed]

theorem run_homeTwice :
    (handleClient plainCtx ⟨⟨FileSystem.smallTree, ∅, ()⟩, homeTwice, []⟩).map (fun conn =>
      (conn.served.length, conn.served.all fun x => x.2.length < ulongBound,
        sentWhole cutInBody (conn.served.map Prod.snd))) = .ok (2, true, 1) := by decide +kernel

theorem answers_delivered_homeTwice :
    ∃ conn : Conn Unit, conn.served.length = 2 ∧ ∃ rs : List BuiltResponse, rs.length = 2 ∧
      readLeading (sendEach cutInBody (rs.map BuiltResponse.render)) =
        (rs.take 1).map BuiltResponse.content := by
  have hvalue := run_homeTwice
  rcases h : handleClient plainCtx ⟨⟨FileSystem.smallTree, ∅, ()⟩, homeTwice, []⟩ with e | conn
  · rw [h] at hvalue
    cases hvalue
  · rw [h] at hvalue
    obtain ⟨hserved, hrest⟩ := Prod.mk.inj (Except.ok.inj hvalue)
    obtain ⟨hshort, hwhole⟩ := Prod.mk.inj hrest
    have hlen : ∀ x ∈ conn.served, x.2.length < ulongBound := by simpa using hshort
    obtain ⟨rs, hrs, -, hlasting, -⟩ := answers_delivered h hlen cutInBody
    have hread := hlasting (by simp [cutInBody, Lasting])
    rw [hwhole, ← hrs] at hread
    have hlength := congrArg List.length hrs
    rw [List.length_map, List.length_map, hserved] at hlength
    exact ⟨conn, hserved, rs, hlength, hread⟩

end SemanticSearch
