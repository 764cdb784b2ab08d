import SemanticSearch.Bytes

namespace SemanticSearch

def utf8 (cs : List Char) : Bytes := cs.flatMap String.utf8EncodeChar

def utf8Decode (s : Bytes) : Option (List Char) := s.toByteArray.utf8Decode?.map Array.toList

/-- The character that the bytes begin with. -/
def frontChar (s : Bytes) : Option Char := s.toByteArray.utf8DecodeChar? 0

/-- A byte behind the first of a character. -/
def isTail (b : Byte) : Bool := 128 ≤ b && b < 192

/-- Whether some character has `a` and `b` as its first two bytes. -/
def isLeadPair (a b : Byte) : Bool :=
  isTail b && 194 ≤ a && a ≤ 244 && (a != 224 || 160 ≤ b) && (a != 237 || b < 160) &&
    (a != 240 || 144 ≤ b) && (a != 244 || b < 144)

/-- The bytes behind the first one that one U+FFFD stands for. -/
def illFormedTail (a : Byte) : Bytes → ℕ
  | b :: c :: _ => if isLeadPair a b then if isTail c then 2 else 1 else 0
  | [b] => if isLeadPair a b then 1 else 0
  | [] => 0

/-- `bytes.decode(errors="replace")`. -/
def utf8Replace : Bytes → List Char
  | [] => []
  | a :: rest =>
    match frontChar (a :: rest) with
    | some c => c :: utf8Replace (rest.drop (c.utf8Size - 1))
    | none => '\uFFFD' :: utf8Replace (rest.drop (illFormedTail a rest))
termination_by s => s.length
decreasing_by all_goals simp only [List.length_drop, List.length_cons]; omega

theorem utf8EncodeChar_of_lt {c : Char} (h : c.toNat < 128) :
    String.utf8EncodeChar c = [UInt8.ofNat c.toNat] := by
  have hle : c.val.toNat ≤ 127 := Nat.le_of_lt_succ h
  simp only [String.utf8EncodeChar, hle, if_true]
  rfl

theorem toNat_ofNat_of_lt {n : ℕ} (h : n < 256) : (UInt8.ofNat n).toNat = n :=
  Nat.mod_eq_of_lt h

theorem le_ofNat_iff {n : ℕ} (h : n < 256) : (128 : Byte) ≤ UInt8.ofNat n ↔ 128 ≤ n := by
  rw [UInt8.le_iff_toNat_le, toNat_ofNat_of_lt h]
  rfl

theorem isTail_ofNat_iff {n : ℕ} (h : n < 256) :
    isTail (UInt8.ofNat n) ↔ 128 ≤ n ∧ n < 192 := by
  have hlt : UInt8.ofNat n < (192 : Byte) ↔ n < 192 := by
    rw [UInt8.lt_iff_toNat_lt, toNat_ofNat_of_lt h]
    rfl
  rw [isTail, Bool.and_eq_true, decide_eq_true_iff, decide_eq_true_iff, le_ofNat_iff h, hlt]

theorem utf8EncodeChar_cons (c : Char) :
    ∃ a rest, String.utf8EncodeChar c = a :: rest ∧ isTail a = false ∧ ∀ b ∈ rest, isTail b := by
  have hmax : c.val.toNat < 1114112 := by
    rcases c.valid with h | ⟨-, h⟩
    · exact h.trans (by decide)
    · exact h
  have htail : ∀ n < 64, isTail (UInt8.ofNat (n + 128)) := fun n hn =>
    (isTail_ofNat_iff (by omega)).mpr (by omega)
  have hfirst : ∀ n < 128, isTail (UInt8.ofNat n) = false := fun n hn =>
    Bool.eq_false_iff.mpr (mt (isTail_ofNat_iff (by omega)).mp (by omega))
  have hfirst' : ∀ n < 64, isTail (UInt8.ofNat (n + 192)) = false := fun n hn =>
    Bool.eq_false_iff.mpr (mt (isTail_ofNat_iff (by omega)).mp (by omega))
  unfold String.utf8EncodeChar
  simp only
  split_ifs with h1 h2 h3
  · exact ⟨_, _, rfl, hfirst _ (by omega), by simp⟩
  · refine ⟨_, _, rfl, hfirst' _ (by omega), ?_⟩
    simp only [List.mem_cons, List.not_mem_nil, or_false, forall_eq]
    exact htail _ (Nat.mod_lt _ (by decide))
  · refine ⟨_, _, rfl, ?_, ?_⟩
    · have := hfirst' (c.val.toNat / 4096 % 16 + 32) (by omega)
      rwa [Nat.add_assoc] at this
    · simp only [List.mem_cons, List.not_mem_nil, or_false, forall_eq_or_imp, forall_eq]
      exact ⟨htail _ (Nat.mod_lt _ (by decide)), htail _ (Nat.mod_lt _ (by decide))⟩
  · refine ⟨_, _, rfl, ?_, ?_⟩
    · have := hfirst' (c.val.toNat / 262144 % 8 + 48) (by omega)
      rwa [Nat.add_assoc] at this
    · simp only [List.mem_cons, List.not_mem_nil, or_false, forall_eq_or_imp, forall_eq]
      exact ⟨htail _ (Nat.mod_lt _ (by decide)), htail _ (Nat.mod_lt _ (by decide)),
        htail _ (Nat.mod_lt _ (by decide))⟩

theorem le_of_mem_utf8EncodeChar {c : Char} (h : 128 ≤ c.toNat) {b : Byte}
    (hb : b ∈ String.utf8EncodeChar c) : 128 ≤ b := by
  have hhigh : ∀ n < 128, (128 : Byte) ≤ UInt8.ofNat (n + 128) := fun n hn =>
    (le_ofNat_iff (by omega)).mpr (by omega)
  have hne : ¬ c.val.toNat ≤ 127 := by
    have : c.toNat = c.val.toNat := rfl
    omega
  unfold String.utf8EncodeChar at hb
  simp only [hne, if_false] at hb
  split_ifs at hb <;> simp only [List.mem_cons, List.not_mem_nil, or_false] at hb
  · rcases hb with rfl | rfl
    · have := hhigh (c.val.toNat / 64 % 32 + 64) (by omega)
      rwa [Nat.add_assoc] at this
    · exact hhigh _ (by omega)
  · rcases hb with rfl | rfl | rfl
    · have := hhigh (c.val.toNat / 4096 % 16 + 96) (by omega)
      rwa [Nat.add_assoc] at this
    · exact hhigh _ (by omega)
    · exact hhigh _ (by omega)
  · rcases hb with rfl | rfl | rfl | rfl
    · have := hhigh (c.val.toNat / 262144 % 8 + 112) (by omega)
      rwa [Nat.add_assoc] at this
    · exact hhigh _ (by omega)
    · exact hhigh _ (by omega)
    · exact hhigh _ (by omega)

@[simp]
theorem utf8_nil : utf8 [] = [] := rfl

theorem utf8_cons (c : Char) (cs : List Char) :
    utf8 (c :: cs) = String.utf8EncodeChar c ++ utf8 cs :=
  List.flatMap_cons

theorem utf8_append (a b : List Char) : utf8 (a ++ b) = utf8 a ++ utf8 b := List.flatMap_append

theorem mem_utf8_iff {c : Char} (hc : c.toNat < 128) (cs : List Char) :
    UInt8.ofNat c.toNat ∈ utf8 cs ↔ c ∈ cs := by
  constructor
  · intro hm
    obtain ⟨d, hd, hb⟩ := List.mem_flatMap.mp hm
    by_cases hd128 : d.toNat < 128
    · rw [utf8EncodeChar_of_lt hd128, List.mem_singleton] at hb
      have hnat := congrArg UInt8.toNat hb
      rw [toNat_ofNat_of_lt (by omega), toNat_ofNat_of_lt (by omega)] at hnat
      rwa [Char.toNat_inj.mp hnat]
    · have hle := le_of_mem_utf8EncodeChar (by omega) hb
      rw [UInt8.le_iff_toNat_le, toNat_ofNat_of_lt (by omega)] at hle
      exact absurd hc (Nat.not_lt.mpr hle)
  · intro hm
    exact List.mem_flatMap.mpr ⟨c, hm, by simp [utf8EncodeChar_of_lt hc]⟩

theorem text_ofList {cs : List Char} (h : cs.all fun c => c.toNat < 128) :
    text (String.ofList cs) = utf8 cs := by
  have hmap : cs.map (fun c => UInt8.ofNat c.toNat) = utf8 cs := by
    induction cs with
    | nil => rfl
    | cons c cs ih =>
      rw [List.all_cons, Bool.and_eq_true, decide_eq_true_eq] at h
      rw [List.map_cons, ih h.2, utf8_cons, utf8EncodeChar_of_lt h.1, List.singleton_append]
  rw [text, String.toList_ofList, hmap]

theorem toByteArray_utf8 (cs : List Char) : (utf8 cs).toByteArray = cs.utf8Encode := rfl

@[simp]
theorem utf8Decode_utf8 (cs : List Char) : utf8Decode (utf8 cs) = some cs := by
  rw [utf8Decode, toByteArray_utf8, List.utf8Decode?_utf8Encode]
  rfl

theorem utf8Decode_eq_some_iff {s : Bytes} {cs : List Char} :
    utf8Decode s = some cs ↔ s = utf8 cs := by
  constructor
  · intro h
    obtain ⟨a, ha, rfl⟩ := Option.map_eq_some_iff.mp h
    have hget := ByteArray.utf8Encode_get_utf8Decode? (b := s.toByteArray) (h := by simp [ha])
    simp only [ha, Option.get_some] at hget
    exact (List.toByteArray_inj.mp hget).symm
  · rintro rfl
    exact utf8Decode_utf8 cs

theorem utf8_injective {a b : List Char} (h : utf8 a = utf8 b) : a = b :=
  Option.some.inj ((utf8Decode_utf8 a).symm.trans (h ▸ utf8Decode_utf8 b))

theorem exists_utf8_of_append {s : Bytes} {c : Char} {t : Bytes} {cs : List Char}
    (h : s ++ (String.utf8EncodeChar c ++ t) = utf8 cs) :
    ∃ a b, cs = a ++ c :: b ∧ s = utf8 a ∧ t = utf8 b := by
  obtain ⟨first, rest, hfirst, hnot, -⟩ := utf8EncodeChar_cons c
  induction cs generalizing s with
  | nil => simp [hfirst] at h
  | cons d cs ih =>
    obtain ⟨x, xs, hd, hx, hxs⟩ := utf8EncodeChar_cons d
    cases s with
    | nil =>
      have hfront := @ByteArray.utf8DecodeChar?_utf8EncodeChar_append t.toByteArray c
      have hfront' := @ByteArray.utf8DecodeChar?_utf8EncodeChar_append (utf8 cs).toByteArray d
      rw [← List.toByteArray_append] at hfront hfront'
      rw [List.nil_append, utf8_cons] at h
      rw [h, hfront'] at hfront
      obtain rfl : d = c := Option.some.inj hfront
      exact ⟨[], cs, rfl, rfl, List.append_cancel_left h⟩
    | cons y s =>
      rw [utf8_cons] at h
      obtain ⟨u, hu, hrest⟩ | ⟨u, hu, hrest⟩ := List.append_eq_append_iff.mp h
      · -- the character would begin with a tail byte of `d`
        cases u with
        | nil =>
          rw [List.append_nil] at hu
          obtain ⟨a, b, rfl, ha, rfl⟩ := ih (s := []) (by simpa using hrest)
          refine ⟨d :: a, b, rfl, ?_, rfl⟩
          rw [utf8_cons, ← ha, List.append_nil, hu]
        | cons z u =>
          have hz : first = z := by
            rw [hfirst] at hrest
            exact (List.cons.inj hrest).1
          have hmem : z ∈ xs := by
            rw [hd, List.cons_append] at hu
            rw [(List.cons.inj hu).2]
            exact List.mem_append_right s List.mem_cons_self
          rw [hz, hxs z hmem] at hnot
          cases hnot
      · obtain ⟨a, b, rfl, rfl, rfl⟩ := ih hrest.symm
        exact ⟨d :: a, b, rfl, by rw [hu, utf8_cons], rfl⟩

theorem utf8Decode_utf8_append (cs : List Char) (t : Bytes) :
    utf8Decode (utf8 cs ++ t) = (utf8Decode t).map (cs ++ ·) := by
  induction cs with
  | nil => simp
  | cons c cs ih =>
    ext ds
    simp only [Option.map_eq_some_iff, utf8Decode_eq_some_iff] at ih ⊢
    rw [utf8_cons, List.append_assoc]
    constructor
    · intro h
      obtain ⟨a, b, rfl, ha, hb⟩ := exists_utf8_of_append (s := []) h
      obtain rfl : a = [] := utf8_injective ha.symm
      have hdecode : utf8Decode (utf8 cs ++ t) = some b := utf8Decode_eq_some_iff.mpr hb
      rw [ih, Option.map_eq_some_iff] at hdecode
      obtain ⟨d, hd, rfl⟩ := hdecode
      exact ⟨d, utf8Decode_eq_some_iff.mp hd, rfl⟩
    · rintro ⟨d, rfl, rfl⟩
      rw [List.cons_append, utf8_cons, utf8_append]

theorem utf8Decode_append (s t : Bytes) {cs : List Char} (h : cs ≠ []) :
    utf8Decode (s ++ utf8 cs ++ t) =
      (utf8Decode s).bind fun a => (utf8Decode t).map fun b => a ++ cs ++ b := by
  obtain ⟨c, cs, rfl⟩ := List.exists_cons_of_ne_nil h
  rcases hs : utf8Decode s with _ | a
  · rw [Option.bind_none, Option.eq_none_iff_forall_ne_some]
    intro ds hds
    rw [utf8Decode_eq_some_iff, utf8_cons, List.append_assoc, List.append_assoc] at hds
    obtain ⟨a, b, -, rfl, -⟩ := exists_utf8_of_append hds
    simp at hs
  · obtain rfl := utf8Decode_eq_some_iff.mp hs
    rw [← utf8_append, utf8Decode_utf8_append, Option.bind_some]

theorem frontChar_utf8EncodeChar_append (c : Char) (t : Bytes) :
    frontChar (String.utf8EncodeChar c ++ t) = some c := by
  rw [frontChar, List.toByteArray_append]
  exact ByteArray.utf8DecodeChar?_utf8EncodeChar_append

theorem exists_of_frontChar {s : Bytes} {c : Char} (h : frontChar s = some c) :
    ∃ t, s = String.utf8EncodeChar c ++ t := by
  obtain ⟨l, hl⟩ := ByteArray.exists_of_utf8DecodeChar?_eq_some h
  refine ⟨l.data.toList, List.toByteArray_inj.mp ?_⟩
  rw [hl, List.toByteArray_append]
  congr 1
  exact ByteArray.ext (by simp)

theorem utf8Replace_utf8EncodeChar_append (c : Char) (t : Bytes) :
    utf8Replace (String.utf8EncodeChar c ++ t) = c :: utf8Replace t := by
  obtain ⟨a, rest, hc, -, -⟩ := utf8EncodeChar_cons c
  have hfront := frontChar_utf8EncodeChar_append c t
  have hlen : c.utf8Size - 1 = rest.length := by
    rw [← String.length_utf8EncodeChar, hc]
    rfl
  rw [hc, List.cons_append] at hfront ⊢
  rw [utf8Replace, hfront]
  simp only
  rw [hlen, List.drop_left]

theorem utf8Replace_utf8_append (cs : List Char) (t : Bytes) :
    utf8Replace (utf8 cs ++ t) = cs ++ utf8Replace t := by
  induction cs with
  | nil => rfl
  | cons c cs ih =>
    rw [utf8_cons, List.append_assoc, utf8Replace_utf8EncodeChar_append, ih, List.cons_append]

@[simp]
theorem utf8Replace_utf8 (cs : List Char) : utf8Replace (utf8 cs) = cs := by
  have h := utf8Replace_utf8_append cs []
  rwa [List.append_nil, utf8Replace, List.append_nil] at h

theorem isLeadPair_of_isTail {a : Byte} (h : isTail a) (b : Byte) : isLeadPair a b = false := by
  simp only [isTail, Bool.and_eq_true, decide_eq_true_eq, UInt8.le_iff_toNat_le,
    UInt8.lt_iff_toNat_lt] at h
  have hlow : ¬ (194 : Byte) ≤ a := by
    rw [UInt8.le_iff_toNat_le]
    have h192 : (192 : Byte).toNat = 192 := rfl
    have h194 : (194 : Byte).toNat = 194 := rfl
    omega
  simp [isLeadPair, hlow]

theorem utf8Replace_tail {a : Byte} (h : isTail a) (t : Bytes) :
    utf8Replace (a :: t) = '\uFFFD' :: utf8Replace t := by
  have hfront : frontChar (a :: t) = none := by
    rw [Option.eq_none_iff_forall_ne_some]
    intro c hc
    obtain ⟨u, hu⟩ := exists_of_frontChar hc
    obtain ⟨b, rest, hb, hnot, -⟩ := utf8EncodeChar_cons c
    rw [hb, List.cons_append] at hu
    rw [← (List.cons.inj hu).1, h] at hnot
    cases hnot
  have hzero : illFormedTail a t = 0 := by
    unfold illFormedTail
    split
    · rw [isLeadPair_of_isTail h]
      rfl
    · rw [isLeadPair_of_isTail h]
      rfl
    · rfl
  rw [utf8Replace, hfront]
  simp only
  rw [hzero, List.drop_zero]

theorem utf8Replace_cons (a : Byte) (t : Bytes) :
    ∃ c u v, t = u ++ v ∧ (∀ b ∈ u, isTail b) ∧ utf8Replace (a :: t) = c :: utf8Replace v := by
  rw [utf8Replace]
  rcases hf : frontChar (a :: t) with _ | c
  · refine ⟨_, _, _, (List.take_append_drop (illFormedTail a t) t).symm, ?_, rfl⟩
    have hsecond : ∀ b, isLeadPair a b → isTail b := fun b h => by
      simp only [isLeadPair, Bool.and_eq_true] at h
      exact h.1.1.1.1.1.1
    unfold illFormedTail
    split
    · split_ifs with hab hc
      · simpa using ⟨hsecond _ hab, hc⟩
      · simpa using hsecond _ hab
      · simp
    · split_ifs with hab
      · simpa using hsecond _ hab
      · simp
    · simp
  · obtain ⟨u, hu⟩ := exists_of_frontChar hf
    obtain ⟨x, rest, hc, -, htail⟩ := utf8EncodeChar_cons c
    have hlen : c.utf8Size - 1 = rest.length := by
      rw [← String.length_utf8EncodeChar, hc]
      rfl
    rw [hc, List.cons_append] at hu
    obtain ⟨rfl, rfl⟩ := List.cons.inj hu
    exact ⟨c, rest, u, rfl, htail, by simp only [hlen, List.drop_left]⟩

theorem length_utf8Replace_cons_le (a : Byte) (t : Bytes) :
    (utf8Replace (a :: t)).length ≤ (utf8Replace t).length + 1 := by
  obtain ⟨c, u, v, rfl, hu, he⟩ := utf8Replace_cons a t
  have hshort : (utf8Replace v).length ≤ (utf8Replace (u ++ v)).length := by
    clear he
    induction u with
    | nil => exact Nat.le_refl _
    | cons b u ih =>
      rw [List.cons_append, utf8Replace_tail (hu b List.mem_cons_self), List.length_cons]
      exact Nat.le_succ_of_le (ih fun d hd => hu d (List.mem_cons_of_mem b hd))
  rw [he, List.length_cons]
  exact Nat.succ_le_succ hshort

end SemanticSearch
