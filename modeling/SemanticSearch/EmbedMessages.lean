import SemanticSearch.JsonText
import SemanticSearch.PercentCoding
import SemanticSearch.Rebuild
import SemanticSearch.RequestRoundTrip

namespace SemanticSearch

open Json EmbedService

/-- The body that `AddDoc` posts. -/
def addBody (docId content : Bytes) : Bytes :=
  let truncated := content.take EmbedConfig.kTextLimit
  text "\x7b\"id\":\"" ++ jsonEscape docId ++ text "\",\"text\":\"" ++ jsonEscape truncated ++
    text "\"\x7d"

/-- The `AddReq` of a body, or nothing when the request is rejected. -/
def addReq (body : Bytes) : Option (List Char × List Char) := do
  let v ← parse (← utf8Decode body)
  let id ← (← v.field ['i', 'd']).asString
  let content ← (← v.field ['t', 'e', 'x', 't']).asString
  return (id, content)

/-- The members of the body for two texts. -/
def addMembers (id content : List Char) : Members :=
  [(['i', 'd'], quoted (escape id), (received (utf8 id)).map .string),
    (['t', 'e', 'x', 't'], quoted (escape content), (received (utf8 content)).map .string)]

theorem parse_addMembers (id content : List Char) :
    parse (objectText (addMembers id content).texts) =
      (addMembers id content).values.map .object := by
  apply parse_object (d := 1)
  · intro m hm
    simp only [addMembers, List.mem_cons, List.not_mem_nil, or_false] at hm
    rcases hm with rfl | rfl <;> exact isPlain_of_all rfl
  · intro m hm
    simp only [addMembers, List.mem_cons, List.not_mem_nil, or_false] at hm
    rcases hm with rfl | rfl
    · exact reads_string (standsFor_escape id)
    · exact reads_string (standsFor_escape content)
  · simp [objectText]

theorem utf8Decode_addBody (docId content : Bytes) :
    utf8Decode (addBody docId content) =
      (utf8Decode docId).bind fun id => (utf8Decode (content.take EmbedConfig.kTextLimit)).map
        fun c => objectText (addMembers id c).texts := by
  have hopen : text "\x7b\"id\":\"" = utf8 ['\x7b', '"', 'i', 'd', '"', ':', '"'] :=
    text_ofList rfl
  have hmiddle : text "\",\"text\":\"" =
      utf8 ['"', ',', '"', 't', 'e', 'x', 't', '"', ':', '"'] :=
    text_ofList rfl
  have hclose : text "\"\x7d" = utf8 ['"', '\x7d'] := text_ofList rfl
  have hdecode : ∀ t, utf8Decode (jsonEscape t) = (utf8Decode t).map escape :=
    utf8Decode_flatMap_jsonByte
  have hnil : utf8Decode [] = some [] := utf8Decode_utf8 []
  have hend : ∀ t, utf8Decode (jsonEscape t ++ utf8 ['"', '\x7d']) =
      (utf8Decode t).map fun c => escape c ++ ['"', '\x7d'] := by
    intro t
    have hne : ['"', '\x7d'] ≠ [] := by decide
    have h := utf8Decode_append (jsonEscape t) [] hne
    rw [List.append_nil, hdecode, hnil] at h
    rw [h]
    rcases utf8Decode t with _ | c
    · rfl
    · simp
  rw [addBody, hopen, hmiddle, hclose, List.append_assoc _ (jsonEscape _),
    utf8Decode_append _ _ (by decide), utf8Decode_utf8_append, hdecode, hend]
  rcases utf8Decode docId with _ | id
  · rfl
  rcases utf8Decode (content.take EmbedConfig.kTextLimit) with _ | c
  · rfl
  simp [addMembers, Members.texts, memberText, objectText, quoted]

theorem addReq_addBody (docId content : Bytes) :
    addReq (addBody docId content) =
      (received docId).bind fun id => (received (content.take EmbedConfig.kTextLimit)).map
        fun c => (id, c) := by
  have hreceived : ∀ t, received t = (utf8Decode t).bind fun cs => received (utf8 cs) := by
    intro t
    rcases ht : utf8Decode t with _ | cs
    · simp [received, ht]
    · rw [utf8Decode_eq_some_iff.mp ht]
      rfl
  rw [addReq, utf8Decode_addBody, hreceived docId, hreceived (content.take _)]
  rcases utf8Decode docId with _ | id
  · rfl
  rcases utf8Decode (content.take EmbedConfig.kTextLimit) with _ | c
  · simp
  simp only [Option.bind_some, Option.map_some, Option.bind_eq_bind, parse_addMembers]
  rcases hid : received (utf8 id) with _ | i
  · simp [addMembers, Members.values, hid]
  rcases hc : received (utf8 c) with _ | u
  · simp [addMembers, Members.values, hid, hc]
  · simp [addMembers, Members.values, hid, hc, Value.field, Value.asString, List.lookup_cons]

def numberSign : Byte := 35

def deleteRequest (docId : Bytes) : Bytes :=
  text "DELETE " ++ (text "/index/" ++ docId) ++
    text " HTTP/1.1\r\nHost: localhost\r\nConnection: close\r\n\r\n"

/-- The percent-decoded path of the URL in a request line. -/
def urlPath (request : Bytes) : List Char :=
  let target := (requestLine request).2.1
  let path := (target.takeWhile (· ≠ questionMark)).takeWhile (· ≠ numberSign)
  utf8Replace (percentDecode path)

/-- The `doc_id` of a request on `/index/{doc_id:path}`. -/
def removedId (request : Bytes) : Option (List Char) :=
  let path := urlPath request
  if "/index/".toList <+: path then some (path.drop 7) else none

/-- What the URL of a removal says, decoded. -/
def removedName (rel : Bytes) : List Char :=
  utf8Replace (percentDecode (rel.takeWhile (· ≠ numberSign)))

def InTarget (rel : Bytes) : Prop := newline ∉ rel ∧ space ∉ rel ∧ questionMark ∉ rel

theorem inTarget_path {raw : Bytes} {r : Request} (h : parseRequest raw = .ok r) :
    InTarget r.path := by
  have htarget : newline ∉ (requestLine raw).2.1 ∧ space ∉ (requestLine raw).2.1 := by
    constructor
    · intro hm
      have hline := List.mem_of_mem_tail ((List.takeWhile_sublist _).subset hm)
      simpa using List.mem_takeWhile_imp ((List.dropWhile_sublist _).subset hline)
    · intro hm
      simpa using List.mem_takeWhile_imp hm
  have hpath : r.path = [] ∨ r.path = (splitQuery (requestLine raw).2.1).1 := by
    unfold parseRequest at h
    simp only at h
    split_ifs at h with h0
    · obtain rfl : {} = r := Except.ok.inj h
      exact Or.inl rfl
    · rcases hh : parseHeaders (getlines newline (requestLine raw).2.2) ∅ with e | headers
      · simp only [hh, bind, Except.bind, reduceCtorEq] at h
      rcases hb : parseBody headers raw with e | body
      · simp only [hh, hb, bind, Except.bind, reduceCtorEq] at h
      · simp only [hh, hb, bind, Except.bind] at h
        exact Or.inr (Except.ok.inj h ▸ rfl)
  rcases hpath with h0 | hpath
  · simp [InTarget, h0]
  rw [InTarget, hpath]
  rcases splitQuery_sides (requestLine raw).2.1 with ⟨hq, hsplit, -⟩ | ⟨hq, hsplit⟩
  · rw [hsplit]
    exact ⟨htarget.1, htarget.2, hq⟩
  · have hsub : ∀ c, c ∉ (requestLine raw).2.1 → c ∉ (splitQuery (requestLine raw).2.1).1 := by
      intro c hc hm
      rw [hsplit] at hc
      exact hc (List.mem_append_left _ hm)
    exact ⟨hsub _ htarget.1, hsub _ htarget.2, hq⟩

theorem target_deleteRequest {rel : Bytes} (h : InTarget rel) :
    (requestLine (deleteRequest rel)).2.1 = text "/index/" ++ rel := by
  obtain ⟨hn, hs, -⟩ := h
  have hraw : deleteRequest rel = (text "DELETE" ++ space :: ((text "/index/" ++ rel) ++
      space :: text "HTTP/1.1\r")) ++ newline ::
        text "Host: localhost\r\nConnection: close\r\n\r\n" := by
    have h1 : text "DELETE " = text "DELETE" ++ [space] := by decide
    have h2 : text " HTTP/1.1\r\nHost: localhost\r\nConnection: close\r\n\r\n" =
        space :: (text "HTTP/1.1\r" ++ newline ::
          text "Host: localhost\r\nConnection: close\r\n\r\n") := by decide
    rw [deleteRequest, h1, h2]
    simp
  have h1 : newline ∉ text "DELETE" ++ space :: ((text "/index/" ++ rel) ++
      space :: text "HTTP/1.1\r") := by
    have h2 : newline ∉ text "DELETE" := by decide
    have h3 : newline ∉ text "/index/" := by decide
    have h4 : newline ∉ text "HTTP/1.1\r" := by decide
    have h5 : newline ≠ space := by decide
    simp [h2, h3, h4, h5, hn]
  have h6 : space ∉ text "DELETE" := by decide
  have h7 : space ∉ text "/index/" ++ rel := by
    have h8 : space ∉ text "/index/" := by decide
    simp [h8, hs]
  rw [hraw]
  simp only [requestLine, takeWhile_ne h1, dropWhile_ne h6, List.tail_cons, takeWhile_ne h7]

theorem urlPath_deleteRequest {rel : Bytes} (h : InTarget rel) :
    urlPath (deleteRequest rel) = "/index/".toList ++ removedName rel := by
  have hroute : text "/index/" = utf8 "/index/".toList := text_ofList rfl
  have hmark : ∀ c ∈ text "/index/" ++ rel, decide (c ≠ questionMark) := by
    intro c hc
    rw [decide_eq_true_eq]
    rintro rfl
    rcases List.mem_append.mp hc with hc | hc
    · exact absurd hc (by decide)
    · exact h.2.2 hc
  have htake : ((text "/index/" ++ rel).takeWhile (· ≠ questionMark)).takeWhile
      (· ≠ numberSign) = text "/index/" ++ rel.takeWhile (· ≠ numberSign) := by
    rw [List.takeWhile_eq_self_iff.mpr hmark, List.takeWhile_append_of_pos (by decide +kernel)]
  rw [urlPath, target_deleteRequest h]
  simp only [htake]
  rw [percentDecode_append (by decide), hroute, utf8Replace_utf8_append]
  rfl

theorem removedId_deleteRequest {rel : Bytes} (h : InTarget rel) :
    removedId (deleteRequest rel) = some (removedName rel) := by
  rw [removedId, urlPath_deleteRequest h]
  simp

/-- UTF-8 with no `#` and no `%` in front of two digits. -/
structure NamesItself (rel : Bytes) : Prop where
  utf8 : (utf8Decode rel).isSome
  noSign : numberSign ∉ rel
  noEscape : ∀ x y, [percent, x, y] <:+: rel → hexByte x y = none

theorem lt_of_hexValue {c : Byte} {n : ℕ} (h : hexValue c = some n) : c < 128 := by
  have hdigit : isDigit c → c < 128 := fun hc => by
    simp only [isDigit, Bool.and_eq_true, decide_eq_true_eq] at hc
    exact UInt8.lt_of_le_of_lt hc.2 (by decide)
  unfold hexValue at h
  split_ifs at h with h1 h2 h3
  · exact hdigit h1
  · rw [Bool.and_eq_true, decide_eq_true_eq, decide_eq_true_eq] at h2
    exact UInt8.lt_of_le_of_lt h2.2 (by decide)
  · rw [Bool.and_eq_true, decide_eq_true_eq, decide_eq_true_eq] at h3
    exact UInt8.lt_of_le_of_lt h3.2 (by decide)

theorem utf8_eq_cons_of_lt {cs : List Char} {a : Byte} {t : Bytes} (h : utf8 cs = a :: t)
    (ha : a < 128) : ∃ c cs', cs = c :: cs' ∧ utf8 cs' = t := by
  cases cs with
  | nil => cases h
  | cons c cs' =>
    refine ⟨c, cs', rfl, ?_⟩
    by_cases hc : c.toNat < 128
    · rw [utf8_cons, utf8EncodeChar_of_lt hc] at h
      exact (List.cons.inj h).2
    · obtain ⟨b, rest, hb, -, -⟩ := utf8EncodeChar_cons c
      have hle := le_of_mem_utf8EncodeChar (c := c) (by omega) (hb ▸ List.mem_cons_self)
      rw [utf8_cons, hb] at h
      rw [(List.cons.inj h).1] at hle
      exact absurd ha (UInt8.not_lt.mpr hle)

theorem percentDecode_utf8 (cs : List Char) :
    percentDecode (utf8 cs) = utf8 cs ∨
      (utf8Replace (percentDecode (utf8 cs))).length < cs.length := by
  induction hn : cs.length using Nat.strong_induction_on generalizing cs with
  | _ n ih =>
    subst hn
    cases cs with
    | nil => exact Or.inl rfl
    | cons c cs =>
      by_cases hp : percent ∈ String.utf8EncodeChar c
      · have hc : c.toNat < 128 := by
          by_contra hc
          exact absurd (le_of_mem_utf8EncodeChar (by omega) hp) (by decide)
        rw [utf8EncodeChar_of_lt hc, List.mem_singleton] at hp
        rw [utf8_cons, utf8EncodeChar_of_lt hc, ← hp, List.singleton_append]
        by_cases hx : ∃ x y t b, utf8 cs = x :: y :: t ∧ hexByte x y = some b
        · -- an escape: three characters become one at most
          obtain ⟨x, y, t, b, hcs, hb⟩ := hx
          have hdigits : ∃ m k, hexValue x = some m ∧ hexValue y = some k := by
            simp only [hexByte, Option.bind_eq_bind, Option.bind_eq_some_iff] at hb
            obtain ⟨m, hm, k, hk, -⟩ := hb
            exact ⟨m, k, hm, hk⟩
          obtain ⟨m, k, hm, hk⟩ := hdigits
          obtain ⟨c1, cs1, rfl, h1⟩ := utf8_eq_cons_of_lt hcs (lt_of_hexValue hm)
          obtain ⟨c2, cs2, rfl, rfl⟩ := utf8_eq_cons_of_lt h1 (lt_of_hexValue hk)
          right
          have hle : (utf8Replace (percentDecode (utf8 cs2))).length ≤ cs2.length := by
            rcases ih cs2.length (by simp only [List.length_cons]; omega) cs2 rfl with h | h
            · rw [h, utf8Replace_utf8]
            · exact h.le
          have hcons := length_utf8Replace_cons_le b (percentDecode (utf8 cs2))
          rw [hcs, percentDecode_percent hb]
          simp only [List.length_cons]
          omega
        · have hstep : ∀ x y t, utf8 cs = x :: y :: t → percent = percent → hexByte x y = none := by
            intro x y t hcs _
            by_contra hne
            obtain ⟨b, hb⟩ := Option.ne_none_iff_exists'.mp hne
            exact hx ⟨x, y, t, b, hcs, hb⟩
          have hfront : ∀ t, utf8Replace (percent :: t) = '%' :: utf8Replace t :=
            utf8Replace_utf8EncodeChar_append '%'
          rw [percentDecode_cons hstep, hfront]
          rcases ih cs.length (by simp only [List.length_cons]; omega) cs rfl with h | h
          · exact Or.inl (congrArg _ h)
          · exact Or.inr (Nat.succ_lt_succ h)
      · rw [utf8_cons, percentDecode_append hp, utf8Replace_utf8EncodeChar_append]
        rcases ih cs.length (by simp only [List.length_cons]; omega) cs rfl with h | h
        · exact Or.inl (congrArg _ h)
        · exact Or.inr (Nat.succ_lt_succ h)

theorem length_percentDecode_utf8_le (cs : List Char) :
    (utf8Replace (percentDecode (utf8 cs))).length ≤ cs.length := by
  rcases percentDecode_utf8 cs with h | h
  · rw [h, utf8Replace_utf8]
  · exact h.le

theorem takeWhile_numberSign {rel : Bytes} (h : numberSign ∉ rel) :
    rel.takeWhile (· ≠ numberSign) = rel := by
  rw [List.takeWhile_eq_self_iff]
  intro c hc
  exact decide_eq_true fun he => h (he ▸ hc)

theorem utf8_removedName_iff (rel : Bytes) : utf8 (removedName rel) = rel ↔ NamesItself rel := by
  constructor
  · intro h
    generalize hcs : removedName rel = cs at h
    subst h
    rw [removedName] at hcs
    have hsign : numberSign ∉ utf8 cs := by
      intro hm
      obtain ⟨a, b, hab, ha⟩ := List.eq_append_cons_of_mem hm
      have hchar : numberSign :: b = String.utf8EncodeChar '#' ++ b := rfl
      rw [hab, takeWhile_ne ha] at hcs
      rw [hchar] at hab
      obtain ⟨a', b', rfl, rfl, -⟩ := exists_utf8_of_append hab.symm
      have hle := length_percentDecode_utf8_le a'
      rw [hcs, List.length_append, List.length_cons] at hle
      omega
    rw [takeWhile_numberSign hsign] at hcs
    refine ⟨by simp, hsign, percentDecode_eq_self_iff.mp ?_⟩
    rcases percentDecode_utf8 cs with h | h
    · exact h
    · rw [hcs] at h
      exact absurd h (lt_irrefl _)
  · rintro ⟨hutf8, hsign, hescape⟩
    obtain ⟨cs, hcs⟩ := Option.isSome_iff_exists.mp hutf8
    obtain rfl := utf8Decode_eq_some_iff.mp hcs
    rw [removedName, takeWhile_numberSign hsign, percentDecode_eq_self_iff.mpr hescape,
      utf8Replace_utf8]

variable {R : Type}

namespace VectorClient

def addDoc (encode : List Char → R) (docId content : Bytes) (s : Service Bytes R) :
    Service Bytes R :=
  match addReq (addBody docId content) with
  | some (id, c) => step encode s (.addDoc (utf8 id) c)
  | none => s

/-- `RemoveDoc`, received by `remove_doc`. -/
def removeDoc (encode : List Char → R) (docId : Bytes) (s : Service Bytes R) : Service Bytes R :=
  match removedId (deleteRequest docId) with
  | some id => step encode s (.removeDoc (utf8 id))
  | none => s

variable {encode : List Char → R} {s : Service Bytes R} {docs : List (Bytes × List Char)}
  {rel content : Bytes}

/-- Whether the service takes the document in. -/
def Accepted (rel content : Bytes) : Prop :=
  (received rel).isSome ∧ (received (content.take EmbedConfig.kTextLimit)).isSome

theorem utf8_of_received {t : Bytes} {cs : List Char} (h : received t = some cs) : utf8 cs = t := by
  rw [received] at h
  split_ifs at h
  exact (utf8Decode_eq_some_iff.mp h).symm

theorem addDoc_accepted (h : Holds encode s.stores docs) (ha : Accepted rel content) :
    ∃ c, received (content.take EmbedConfig.kTextLimit) = some c ∧
      Holds encode (addDoc encode rel content s).stores (without docs rel ++ [(rel, c)]) := by
  obtain ⟨id, hid⟩ := Option.isSome_iff_exists.mp ha.1
  obtain ⟨c, hc⟩ := Option.isSome_iff_exists.mp ha.2
  obtain ⟨st', hst, hholds⟩ := h.addDoc rel c
  refine ⟨c, hc, ?_⟩
  rw [addDoc, addReq_addBody, hid, hc]
  simp only [Option.bind_some, Option.map_some, utf8_of_received hid]
  simpa [step, tryStep, hst] using hholds

theorem addDoc_rejected (ha : ¬ Accepted rel content) : addDoc encode rel content s = s := by
  rw [addDoc, addReq_addBody]
  rcases hid : received rel with _ | id
  · rfl
  rcases hc : received (content.take EmbedConfig.kTextLimit) with _ | c
  · rfl
  · exact absurd ⟨by simp [hid], by simp [hc]⟩ ha

theorem removeDoc_holds (hrel : InTarget rel) (h : Holds encode s.stores docs) :
    Holds encode (removeDoc encode rel s).stores (without docs (utf8 (removedName rel))) := by
  obtain ⟨status, st', hst, hholds⟩ := h.removeDoc (utf8 (removedName rel))
  rw [removeDoc, removedId_deleteRequest hrel]
  simpa [step, tryStep, hst] using hholds

theorem ids_eq_of_holds {st : Stores Bytes R} {docs' : List (Bytes × List Char)}
    (h : Holds encode st docs) (h' : Holds encode st docs') :
    docs.map Prod.fst = docs'.map Prod.fst := by rw [← h.ids, h'.ids]

theorem mem_ids_without {id : Bytes} :
    id ∈ (without docs rel).map Prod.fst ↔ id ∈ docs.map Prod.fst ∧ id ≠ rel := by
  simp only [List.mem_map, mem_without]
  constructor
  · rintro ⟨doc, ⟨hdoc, hne⟩, rfl⟩
    exact ⟨⟨doc, hdoc, rfl⟩, hne⟩
  · rintro ⟨⟨doc, hdoc, rfl⟩, hne⟩
    exact ⟨doc, ⟨hdoc, hne⟩, rfl⟩

theorem mem_ids_addDoc (h : Holds encode s.stores docs) (rel content : Bytes) :
    (∃ docs', Holds encode (addDoc encode rel content s).stores docs') ∧
      ∀ path, path ∈ (addDoc encode rel content s).stores.ids ↔
        path ∈ s.stores.ids ∨ Accepted rel content ∧ path = rel := by
  by_cases ha : Accepted rel content
  · obtain ⟨c, -, hadd⟩ := addDoc_accepted (s := s) h ha
    refine ⟨⟨_, hadd⟩, fun path => ?_⟩
    rw [hadd.ids, h.ids, List.map_append, List.mem_append, mem_ids_without]
    by_cases hp : path = rel <;> simp [hp, ha]
  · rw [addDoc_rejected ha]
    exact ⟨⟨docs, h⟩, fun path => by simp [ha]⟩

theorem mem_ids_removeDoc (h : Holds encode s.stores docs) (hrel : InTarget rel) :
    (∃ docs', Holds encode (removeDoc encode rel s).stores docs') ∧
      ∀ path, path ∈ (removeDoc encode rel s).stores.ids ↔
        path ∈ s.stores.ids ∧ path ≠ utf8 (removedName rel) := by
  have hremove := removeDoc_holds hrel h
  refine ⟨⟨_, hremove⟩, fun path => ?_⟩
  rw [hremove.ids, h.ids, mem_ids_without]

theorem removeDoc_accepted_iff (h : Holds encode s.stores docs) (hrel : InTarget rel)
    (ha : Accepted rel content) :
    Holds encode (removeDoc encode rel (addDoc encode rel content s)).stores (without docs rel) ↔
      utf8 (removedName rel) = rel := by
  obtain ⟨c, -, hadd⟩ := addDoc_accepted (s := s) h ha
  have hremove := removeDoc_holds hrel hadd
  constructor
  · intro hwithout
    by_contra hne
    have hids := ids_eq_of_holds hremove hwithout
    have hmem : rel ∈ (without (without docs rel ++ [(rel, c)])
        (utf8 (removedName rel))).map Prod.fst :=
      mem_ids_without.mpr ⟨by simp, fun he => hne he.symm⟩
    rw [hids] at hmem
    exact (mem_ids_without.mp hmem).2 rfl
  · intro he
    have hdocs : without (without docs rel ++ [(rel, c)]) rel = without docs rel := by
      simp [without]
    rwa [he, hdocs] at hremove

theorem removeDoc_rejected_iff (h : Holds encode s.stores docs) (hrel : InTarget rel)
    (ha : ¬ Accepted rel content) :
    Holds encode (removeDoc encode rel (addDoc encode rel content s)).stores (without docs rel) ↔
      utf8 (removedName rel) = rel ∨
        rel ∉ docs.map Prod.fst ∧ utf8 (removedName rel) ∉ docs.map Prod.fst := by
  have hsame : addDoc encode rel content s = s := addDoc_rejected ha
  have hremove := removeDoc_holds hrel (hsame ▸ h)
  constructor
  · intro hwithout
    by_contra hno
    rw [not_or] at hno
    have hids := ids_eq_of_holds hremove hwithout
    have hboth : ∀ id, id ∈ docs.map Prod.fst →
        (id ≠ utf8 (removedName rel) ↔ id ≠ rel) := by
      intro id hid
      have hmem : id ∈ (without docs rel).map Prod.fst ↔ id ∈ docs.map Prod.fst ∧ id ≠ rel :=
        mem_ids_without
      rw [← hids, mem_ids_without] at hmem
      simpa [hid] using hmem
    apply hno.2
    constructor
    · intro hm
      exact absurd ((hboth rel hm).mp (Ne.symm hno.1)) (by simp)
    · intro hm
      exact absurd ((hboth _ hm).mpr hno.1) (by simp)
  · rintro (he | ⟨hrel0, hname⟩)
    · rwa [he] at hremove
    · rw [without_of_notMem hname] at hremove
      rwa [without_of_notMem hrel0]

end VectorClient

end SemanticSearch
