import SemanticSearch.Bytes

namespace SemanticSearch

def percent : Byte := 37

/-- `0` to `9` and `A` to `F`. -/
def hexDigit (n : ℕ) : Byte := UInt8.ofNat (if n < 10 then 48 + n else 55 + n)

def hexValue (c : Byte) : Option ℕ :=
  if isDigit c then some (c.toNat - 48)
  else if 65 ≤ c && c ≤ 70 then some (c.toNat - 55)
  else if 97 ≤ c && c ≤ 102 then some (c.toNat - 87)
  else none

def percentByte (c : Byte) : Bytes := [percent, hexDigit (c.toNat / 16), hexDigit (c.toNat % 16)]

/-- The bytes of `set` are written by their numbers. -/
def percentEncode (set : Byte → Bool) (s : Bytes) : Bytes :=
  s.flatMap fun c => if set c then percentByte c else [c]

/-- The byte that two hexadecimal digits stand for. -/
def hexByte (h l : Byte) : Option Byte := do
  return UInt8.ofNat (16 * (← hexValue h) + (← hexValue l))

/-- A `%` without two digits behind it stays as it is. -/
def percentDecode : Bytes → Bytes
  | c :: h :: l :: rest =>
    match (if c = percent then hexByte h l else none) with
    | some b => b :: percentDecode rest
    | none => c :: percentDecode (h :: l :: rest)
  | c :: s => c :: percentDecode s
  | [] => []

variable {set : Byte → Bool}

theorem percentEncode_eq_self {s : Bytes} (h : ∀ c ∈ s, set c = false) :
    percentEncode set s = s := by
  induction s with
  | nil => rfl
  | cons c s ih =>
    rw [List.forall_mem_cons] at h
    have htail : percentEncode set s = s := ih h.2
    rw [percentEncode, List.flatMap_cons, h.1, ← percentEncode, htail]
    rfl

theorem length_le_percentEncode (s : Bytes) : s.length ≤ (percentEncode set s).length := by
  induction s with
  | nil => exact Nat.le_refl 0
  | cons c s ih =>
    rw [percentEncode, List.flatMap_cons, List.length_append, ← percentEncode, List.length_cons]
    split_ifs
    · simp only [percentByte, List.length_cons, List.length_nil]
      omega
    · simp only [List.length_cons, List.length_nil]
      omega

theorem length_percentEncode_iff {s : Bytes} :
    (percentEncode set s).length = s.length ↔ ∀ c ∈ s, set c = false := by
  refine ⟨fun h => ?_, fun h => by rw [percentEncode_eq_self h]⟩
  induction s with
  | nil => simp
  | cons c s ih =>
    have hlen : s.length ≤ (percentEncode set s).length := length_le_percentEncode s
    rw [percentEncode, List.flatMap_cons, ← percentEncode, List.length_append,
      List.length_cons] at h
    cases hc : set c with
    | false =>
      rw [hc] at h
      simp only [Bool.false_eq_true, if_false, List.length_cons, List.length_nil] at h
      exact List.forall_mem_cons.mpr ⟨hc, ih (by omega)⟩
    | true =>
      rw [hc] at h
      simp only [if_true, percentByte, List.length_cons, List.length_nil] at h
      omega

theorem percentEncode_eq_self_iff {s : Bytes} :
    percentEncode set s = s ↔ ∀ c ∈ s, set c = false :=
  ⟨fun h => length_percentEncode_iff.mp (congrArg List.length h), percentEncode_eq_self⟩

theorem mem_percentEncode {s : Bytes} {c : Byte} (h : c ∈ percentEncode set s) :
    (c ∈ s ∧ set c = false) ∨ c = percent ∨ ∃ n < 16, c = hexDigit n := by
  obtain ⟨b, hb, hc⟩ := List.mem_flatMap.mp h
  split_ifs at hc with hset
  · have hlt : b.toNat < 256 := b.toNat_lt_size
    simp only [percentByte, List.mem_cons, List.not_mem_nil, or_false] at hc
    rcases hc with rfl | rfl | rfl
    · exact Or.inr (Or.inl rfl)
    · exact Or.inr (Or.inr ⟨_, by omega, rfl⟩)
    · exact Or.inr (Or.inr ⟨_, by omega, rfl⟩)
  · rw [List.mem_singleton.mp hc]
    exact Or.inl ⟨hb, by simpa using hset⟩

theorem percentDecode_cons {c : Byte} {s : Bytes}
    (h : ∀ x y t, s = x :: y :: t → c = percent → hexByte x y = none) :
    percentDecode (c :: s) = c :: percentDecode s := by
  rcases s with _ | ⟨x, _ | ⟨y, t⟩⟩
  · rfl
  · rfl
  · rw [percentDecode]
    by_cases hc : c = percent
    · rw [if_pos hc, h x y t rfl hc]
    · rw [if_neg hc]

theorem percentDecode_percent {x y b : Byte} (h : hexByte x y = some b) (t : Bytes) :
    percentDecode (percent :: x :: y :: t) = b :: percentDecode t := by
  rw [percentDecode, if_pos rfl, h]

theorem percentDecode_append {w : Bytes} (h : percent ∉ w) (t : Bytes) :
    percentDecode (w ++ t) = w ++ percentDecode t := by
  induction w with
  | nil => rfl
  | cons c w ih =>
    rw [List.mem_cons, not_or] at h
    rw [List.cons_append, percentDecode_cons fun _ _ _ _ hc => absurd hc.symm h.1, ih h.2,
      List.cons_append]

theorem length_percentDecode_le (s : Bytes) : (percentDecode s).length ≤ s.length := by
  fun_induction percentDecode s <;> simp only [List.length_cons, List.length_nil] at * <;> omega

theorem percentDecode_eq_self_iff {s : Bytes} :
    percentDecode s = s ↔ ∀ x y, [percent, x, y] <:+: s → hexByte x y = none := by
  induction s with
  | nil => simp [percentDecode]
  | cons c s ih =>
    by_cases hc : ∃ x y t b, s = x :: y :: t ∧ c = percent ∧ hexByte x y = some b
    · obtain ⟨x, y, t, b, rfl, rfl, hb⟩ := hc
      have hlen := length_percentDecode_le t
      rw [percentDecode_percent hb]
      constructor
      · intro h
        have hlength := congrArg List.length h
        simp only [List.length_cons] at hlength
        omega
      · intro h
        have hnone := h x y ⟨[], t, rfl⟩
        rw [hb] at hnone
        cases hnone
    · have hstep : ∀ x y t, s = x :: y :: t → c = percent → hexByte x y = none := by
        intro x y t hs hp
        by_contra hne
        obtain ⟨b, hb⟩ := Option.ne_none_iff_exists'.mp hne
        exact hc ⟨x, y, t, b, hs, hp, hb⟩
      rw [percentDecode_cons hstep, List.cons_inj_right, ih]
      constructor
      · intro h x y hxy
        rcases List.infix_cons_iff.mp hxy with hpre | hin
        · obtain ⟨hp, t, ht⟩ := List.cons_prefix_cons.mp hpre
          exact hstep x y t ht.symm hp.symm
        · exact h x y hin
      · exact fun h x y hxy => h x y (hxy.trans (List.suffix_cons c s).isInfix)

end SemanticSearch
