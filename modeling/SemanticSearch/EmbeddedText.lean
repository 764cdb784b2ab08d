import SemanticSearch.EmbedMessages

namespace SemanticSearch

open EmbedService

def universalNewlines : List Char → List Char
  | '\r' :: '\n' :: s => '\n' :: universalNewlines s
  | '\r' :: s => '\n' :: universalNewlines s
  | c :: s => c :: universalNewlines s
  | [] => []

/-- `fpath.read_text(errors="replace")`. -/
def readText (content : Bytes) : List Char := universalNewlines (utf8Replace content)

/-- What `_rebuild_bg` encodes. -/
def rebuiltText (content : Bytes) : List Char := (readText content).take textLimit

/-- What `add_doc` encodes, if the service takes the document in. -/
def liveText (docId content : Bytes) : Option (List Char) :=
  (addReq (addBody docId content)).map fun req => req.2.take textLimit

theorem universalNewlines_cons {c : Char} (h : c ≠ '\r') (s : List Char) :
    universalNewlines (c :: s) = c :: universalNewlines s := by
  rw [universalNewlines]
  · exact fun _ hc => absurd hc h
  · exact fun hc => absurd hc h

theorem universalNewlines_append {a : List Char} (h : '\r' ∉ a) (b : List Char) :
    universalNewlines (a ++ b) = a ++ universalNewlines b := by
  induction a with
  | nil => rfl
  | cons c a ih =>
    rw [List.mem_cons, not_or] at h
    rw [List.cons_append, universalNewlines_cons (Ne.symm h.1), ih h.2, List.cons_append]

theorem notMem_universalNewlines (s : List Char) : '\r' ∉ universalNewlines s := by
  fun_induction universalNewlines s with
  | case1 s ih => simpa using ih
  | case2 s _ ih => simpa using ih
  | case3 c s _ hc ih => simpa using ⟨fun he => hc he.symm, ih⟩
  | case4 => simp

theorem universalNewlines_eq_nil {s : List Char} : universalNewlines s = [] ↔ s = [] := by
  fun_induction universalNewlines s <;> simp

theorem length_utf8_cons (c : Char) (cs : List Char) :
    (utf8 (c :: cs)).length = c.utf8Size + (utf8 cs).length := by
  rw [utf8_cons, List.length_append, String.length_utf8EncodeChar]

theorem length_le_utf8 (cs : List Char) : cs.length ≤ (utf8 cs).length := by
  induction cs with
  | nil => exact Nat.le_refl 0
  | cons c cs ih =>
    have := c.utf8Size_pos
    rw [length_utf8_cons, List.length_cons]
    omega

theorem length_utf8_eq_iff (cs : List Char) :
    (utf8 cs).length = cs.length ↔ ∀ b ∈ utf8 cs, b < 128 := by
  induction cs with
  | nil => simp
  | cons c cs ih =>
    have hle := length_le_utf8 cs
    rw [length_utf8_cons, List.length_cons, utf8_cons, List.forall_mem_append, ← ih]
    by_cases hc : c.toNat < 128
    · have hsize : c.utf8Size = 1 := by
        rw [← String.length_utf8EncodeChar, utf8EncodeChar_of_lt hc]
        rfl
      have hbyte : ∀ b ∈ String.utf8EncodeChar c, b < 128 := by
        rw [utf8EncodeChar_of_lt hc]
        intro b hb
        rw [List.mem_singleton.mp hb, UInt8.lt_iff_toNat_lt, toNat_ofNat_of_lt (by omega)]
        exact hc
      rw [hsize, and_iff_right hbyte]
      omega
    · have hsize : c.utf8Size ≠ 1 := by
        rw [Ne, Char.utf8Size_eq_one_iff, UInt32.le_iff_toNat_le]
        exact fun hle => hc (Nat.lt_succ_of_le hle)
      have hbyte : ¬ ∀ b ∈ String.utf8EncodeChar c, b < 128 := by
        obtain ⟨a, rest, ha, -, -⟩ := utf8EncodeChar_cons c
        intro hall
        have hmem : a ∈ String.utf8EncodeChar c := ha ▸ List.mem_cons_self
        exact absurd (hall a hmem) (UInt8.not_lt.mpr (le_of_mem_utf8EncodeChar (by omega) hmem))
      have hpos := c.utf8Size_pos
      constructor
      · intro h
        omega
      · exact fun h => absurd h.1 hbyte

theorem utf8_map_ofNat {t : Bytes} (h : ∀ b ∈ t, b < 128) :
    utf8 (t.map fun b => Char.ofNat b.toNat) = t := by
  have hbyte : ∀ n < 128, String.utf8EncodeChar (Char.ofNat n) = [UInt8.ofNat n] := by
    decide +kernel
  induction t with
  | nil => rfl
  | cons b t ih =>
    rw [List.forall_mem_cons, UInt8.lt_iff_toNat_lt] at h
    rw [List.map_cons, utf8_cons, hbyte _ h.1, ih h.2, UInt8.ofNat_toNat, List.singleton_append]

theorem liveText_eq (docId content : Bytes) :
    liveText docId content = (received docId).bind fun _ =>
      (received (content.take EmbedConfig.kTextLimit)).map fun c => c.take textLimit := by
  rw [liveText, addReq_addBody]
  rcases received docId with _ | id
  · rfl
  · simp [Function.comp_def]

theorem addDoc_liveText {R : Type} {encode : List Char → R} {s : Service Bytes R}
    {docs : List (Bytes × List Char)} {docId content : Bytes} {t : List Char}
    (h : Holds encode s.stores docs) (ht : liveText docId content = some t) :
    (VectorClient.addDoc encode docId content s).stores.vecs.getLast? = some (encode t) := by
  rw [liveText_eq] at ht
  rcases hid : received docId with _ | id
  · simp [hid] at ht
  rw [hid, Option.bind_some, Option.map_eq_some_iff] at ht
  obtain ⟨c, hc, rfl⟩ := ht
  have haccepted : VectorClient.Accepted docId content := ⟨by simp [hid], by simp [hc]⟩
  obtain ⟨c', hc', hadd⟩ := VectorClient.addDoc_accepted h haccepted
  obtain rfl : c = c' := Option.some.inj (hc.symm.trans hc')
  rw [hadd.vecs]
  simp [encodeText]

theorem embedAll_readText {R : Type} (encode : List Char → R) (files : List (Bytes × Bytes)) :
    (embedAll encode (files.map fun file => (file.1, readText file.2))).2 =
      files.map fun file => encode (rebuiltText file.2) := by
  simp [embedAll, encodeText, rebuiltText]

theorem take_universalNewlines_iff (u v : List Char) (n : ℕ) :
    (universalNewlines (u ++ v)).take n = u ↔
      '\r' ∉ u ∧ u.length ≤ n ∧ (n ≤ u.length ∨ v = []) := by
  constructor
  · intro h
    have hr : '\r' ∉ u := by
      rw [← h]
      exact fun hm => notMem_universalNewlines _ (List.mem_of_mem_take hm)
    have hlen : u.length ≤ n := by
      rw [← h, List.length_take]
      exact min_le_left _ _
    rw [universalNewlines_append hr, List.take_append, List.take_of_length_le hlen,
      List.append_right_eq_self, List.take_eq_nil_iff, universalNewlines_eq_nil] at h
    exact ⟨hr, hlen, h.imp_left fun h0 => by omega⟩
  · rintro ⟨hr, hlen, hend⟩
    rw [universalNewlines_append hr, List.take_append, List.take_of_length_le hlen,
      List.append_right_eq_self, List.take_eq_nil_iff, universalNewlines_eq_nil]
    exact hend.imp_left fun h0 => by omega

theorem prefix_of_received_take {cs u : List Char} {k : ℕ}
    (hu : received ((utf8 cs).take k) = some u) : ∃ v, cs = u ++ v := by
  have hall := utf8Decode_utf8_append u ((utf8 cs).drop k)
  rw [VectorClient.utf8_of_received hu, List.take_append_drop, utf8Decode_utf8] at hall
  obtain ⟨v, -, he⟩ := Option.map_eq_some_iff.mp hall.symm
  exact ⟨v, he.symm⟩

theorem received_take_ne_none {cs : List Char} {k : ℕ}
    (hcut : (utf8 cs).length ≤ k ∨ ∀ b ∈ (utf8 cs).take k, b < 128)
    (hclean : ∀ b ∈ (utf8 cs).take k, isRawControl b = false) :
    received ((utf8 cs).take k) ≠ none := by
  have hraw : ((utf8 cs).take k).any isRawControl = false := by
    rw [List.any_eq_false]
    exact fun b hb => by simp [hclean b hb]
  rw [received, hraw, if_neg Bool.false_ne_true]
  rcases hcut with hlen | hascii
  · rw [List.take_of_length_le hlen, utf8Decode_utf8]
    exact Option.some_ne_none _
  · rw [← utf8_map_ofNat hascii, utf8Decode_utf8]
    exact Option.some_ne_none _

theorem cut_iff {u v : List Char} {k : ℕ} (hu : utf8 u = (utf8 (u ++ v)).take k) :
    k ≤ u.length ∨ v = [] ↔
      (utf8 (u ++ v)).length ≤ k ∨ ∀ b ∈ (utf8 (u ++ v)).take k, b < 128 := by
  have hnil : v = [] ↔ (utf8 (u ++ v)).length ≤ k := by
    have hdrop : utf8 v = (utf8 (u ++ v)).drop k := by
      have hall := List.take_append_drop k (utf8 (u ++ v))
      rw [← hu, utf8_append] at hall
      rw [utf8_append]
      exact (List.append_cancel_left hall).symm
    rw [← List.drop_eq_nil_iff, ← hdrop]
    exact ⟨fun h => by simp [h], fun h => utf8_injective h⟩
  rw [← hnil, ← hu, ← length_utf8_eq_iff]
  by_cases hv : v = []
  · simp [hv]
  · have hlong : (utf8 u).length = k := by
      rw [hu, List.length_take]
      exact min_eq_left (not_le.mp (hnil.not.mp hv)).le
    simp only [hv, or_false, false_or, hlong]
    have hle := length_le_utf8 u
    omega

end SemanticSearch
